import OS161.Lib.Run

/-! `strtok_r.c`: the buffer is cut in place, and each call ends within the string. -/
namespace OS161.Strtok

open Function (update update_of_ne)

/-- The characters of memory, by address. -/
abbrev Memory := Nat → Char

/-- `strchr`: the offset of a character in a string; its end is found as well. -/
def strchr : List Char → Char → Option Nat
  | [], ch => if ch = '\x00' then some 0 else none
  | s :: rest, ch => if s = ch then some 0 else (strchr rest ch).map (· + 1)

/-- `while (test(*p)) p++`, for so many turns; `none` while it still runs. -/
def skip (test : Char → Bool) (mem : Memory) : Nat → Nat → Option Nat
  | 0, _ => none
  | fuel + 1, p => if test (mem p) then skip test mem fuel (p + 1) else some p

/-- `*head && strchr(seps, *head)`. -/
def leading (seps : List Char) (ch : Char) : Bool := ch ≠ '\x00' && (strchr seps ch).isSome

/-- `*tail && !strchr(seps, *tail)`. -/
def inWord (seps : List Char) (ch : Char) : Bool := ch ≠ '\x00' && (strchr seps ch).isNone

/-- What a call returns, with the memory and the context it leaves. -/
structure Result where
  word : Option Nat
  mem : Memory
  context : Option Nat

/-- `strtok_r`, with loops of so many turns. -/
def strtokR (fuel : Nat) (mem : Memory) (string : Option Nat) (seps : List Char)
    (context : Option Nat) : Option Result :=
  match string.or context with
  | none => some ⟨none, mem, none⟩
  | some head => do
    let head ← skip (leading seps) mem fuel head
    if mem head = '\x00' then return ⟨none, mem, none⟩
    let tail ← skip (inWord seps) mem fuel head
    if mem tail = '\x00' then return ⟨some head, mem, none⟩
    return ⟨some head, update mem tail '\x00', some (tail + 1)⟩

/-- The string at an address, with the 0 behind it. -/
structure StringAt (mem : Memory) (p : Nat) (l : List Char) : Prop where
  chars : ∀ i (h : i < l.length), mem (p + i) = l[i]
  final : mem (p + l.length) = '\x00'
  nonzero : '\x00' ∉ l

variable {fuel p q hi : Nat} {mem mem' : Memory} {seps l u v w : List Char} {ch : Char}
  {string context : Option Nat} {r : Result} {test : Char → Bool}

theorem StringAt.congr (h : StringAt mem p l) (hmem : ∀ a, p ≤ a → mem' a = mem a) :
    StringAt mem' p l := by
  refine ⟨fun i hi => ?_, ?_, h.nonzero⟩
  · rw [hmem _ (Nat.le_add_right p i)]
    exact h.chars i hi
  · rw [hmem _ (Nat.le_add_right p _)]
    exact h.final

theorem StringAt.drop (h : StringAt mem p (u ++ v)) : StringAt mem (p + u.length) v := by
  refine ⟨fun i hi => ?_, ?_, fun hmem => h.nonzero (List.mem_append_right u hmem)⟩
  · rw [Nat.add_assoc, h.chars (u.length + i) (by simp [hi])]
    simp
  · rw [Nat.add_assoc, ← List.length_append]
    exact h.final

/-- The string in front of a cut. -/
theorem StringAt.cut (h : StringAt mem p (u ++ ch :: v)) :
    StringAt (update mem (p + u.length) '\x00') p u := by
  refine ⟨fun i hi => ?_, by simp, fun hmem => h.nonzero (List.mem_append_left _ hmem)⟩
  rw [update_of_ne (by omega), h.chars i (by simp; omega)]
  simp [List.getElem_append_left hi]

theorem StringAt.head_iff (h : StringAt mem p l) : mem p = '\x00' ↔ l = [] := by
  cases l with
  | nil => simpa using h.final
  | cons c l =>
    have hc : mem p = c := h.chars 0 (Nat.succ_pos _)
    have hne : c ≠ '\x00' := fun h0 => h.nonzero (h0 ▸ List.mem_cons_self)
    simp [hc, hne]

theorem StringAt.unique (h : StringAt mem p u) (h' : StringAt mem p v) : u = v := by
  induction u generalizing p v with
  | nil => exact (h'.head_iff.mp (h.head_iff.mpr rfl)).symm
  | cons c u ih =>
    cases v with
    | nil => exact h.head_iff.mp (h'.head_iff.mpr rfl)
    | cons d v =>
      have hc : mem p = c := h.chars 0 (Nat.succ_pos _)
      have hd : mem p = d := h'.chars 0 (Nat.succ_pos _)
      rw [← hc, ← hd, ih (StringAt.drop (u := [c]) h) (StringAt.drop (u := [d]) h')]

theorem strchr_isSome (h : ch ≠ '\x00') : (strchr seps ch).isSome = decide (ch ∈ seps) := by
  induction seps with
  | nil => simp [strchr, h]
  | cons s seps ih =>
    by_cases hs : s = ch
    · simp [strchr, hs]
    · simp [strchr, hs, ih, Ne.symm hs]

theorem leading_eq (h : ch ≠ '\x00') : leading seps ch = decide (ch ∈ seps) := by
  simp [leading, h, strchr_isSome h]

theorem inWord_eq (h : ch ≠ '\x00') : inWord seps ch = decide (ch ∉ seps) := by
  rw [inWord, ← Option.not_isSome, strchr_isSome h]
  simp [h]

/-- A loop over a prefix of the string. -/
theorem StringAt.skip (h : StringAt mem p (u ++ v)) (hu : ∀ c ∈ u, test c = true)
    (hv : ∀ c ∈ v.head?, test c = false) (h0 : test '\x00' = false) (hfuel : u.length < fuel) :
    Strtok.skip test mem fuel p = some (p + u.length) := by
  induction u generalizing p fuel with
  | nil =>
    obtain ⟨fuel, rfl⟩ := Nat.exists_eq_add_one.mpr hfuel
    have hstop : test (mem p) = false := by
      cases v with
      | nil => rw [h.head_iff.mpr rfl, h0]
      | cons c v =>
        have hc : mem p = c := h.chars 0 (Nat.succ_pos _)
        rw [hc, hv c rfl]
    simp [Strtok.skip, hstop]
  | cons c u ih =>
    obtain ⟨fuel, rfl⟩ := Nat.exists_eq_add_one.mpr (Nat.zero_lt_of_lt hfuel)
    have hc : mem p = c := h.chars 0 (Nat.succ_pos _)
    have hrest := ih (StringAt.drop (u := [c]) h) (fun d hd => hu d (List.mem_cons_of_mem c hd))
      (Nat.lt_of_succ_lt_succ hfuel)
    rw [Strtok.skip, hc, if_pos (hu c List.mem_cons_self)]
    refine hrest.trans ?_
    simp only [List.length_cons, List.length_nil]
    congr 1
    omega

theorem skip_le (h : skip test mem fuel p = some q) (hp : p ≤ hi) (hhi : test (mem hi) = false) :
    p ≤ q ∧ q ≤ hi := by
  induction fuel generalizing p with
  | zero => cases h
  | succ fuel ih =>
    rw [skip] at h
    by_cases ht : test (mem p) = true
    · have hne : p ≠ hi := by
        rintro rfl
        rw [ht] at hhi
        cases hhi
      rw [if_pos ht] at h
      have := ih h (by omega)
      omega
    · rw [if_neg ht] at h
      cases h
      exact ⟨Nat.le_refl _, hp⟩

/-- The non-empty pieces of a string between the separators. -/
def words (seps l : List Char) : List (List Char) := (l.splitOnP (· ∈ seps)).filter (· ≠ [])

theorem words_cons (hw : ∀ c ∈ w, c ∉ seps) (hne : w ≠ []) (hch : ch ∈ seps) :
    words seps (w ++ ch :: v) = w :: words seps v := by
  have hone : w.splitOnP (· ∈ seps) = [w] := List.splitOnP_eq_singleton (by simpa using hw)
  rw [words, List.splitOnP_append_cons w v (by simpa using hch), hone]
  simp [hne, words]

theorem words_last (hw : ∀ c ∈ w, c ∉ seps) (hne : w ≠ []) : words seps w = [w] := by
  have hone : w.splitOnP (· ∈ seps) = [w] := List.splitOnP_eq_singleton (by simpa using hw)
  simp [words, hone, hne]

theorem words_skip (hu : ∀ c ∈ u, c ∈ seps) : words seps (u ++ v) = words seps v := by
  induction u with
  | nil => rfl
  | cons c u ih =>
    have hc : c ∈ seps := hu c List.mem_cons_self
    have hcut := List.splitOnP_append_cons (p := (decide <| · ∈ seps)) [] (u ++ v)
      (show decide (c ∈ seps) = true by simpa using hc)
    rw [← ih fun d hd => hu d (List.mem_cons_of_mem c hd), words, List.cons_append]
    simp only [List.nil_append] at hcut
    rw [hcut]
    simp [words]

/-- A string is separators, a word and the rest, or separators only. -/
theorem exists_word (seps l : List Char) : (∀ c ∈ l, c ∈ seps) ∨
    ∃ u w v, l = u ++ (w ++ v) ∧ (∀ c ∈ u, c ∈ seps) ∧ w ≠ [] ∧ (∀ c ∈ w, c ∉ seps) ∧
      ∀ c ∈ v.head?, c ∈ seps := by
  induction l with
  | nil => exact .inl (by simp)
  | cons c l ih =>
    by_cases hc : c ∈ seps
    · rcases ih with hall | ⟨u, w, v, rfl, hu, hrest⟩
      · exact .inl (by simpa [hc] using hall)
      · exact .inr ⟨c :: u, w, v, rfl, by simpa [hc] using hu, hrest⟩
    refine .inr ?_
    rcases ih with hall | ⟨u, w, v, rfl, hu, hne, hw, hv⟩
    · refine ⟨[], [c], l, rfl, by simp, by simp, by simpa using hc, fun d hd => hall d ?_⟩
      exact List.mem_of_mem_head? hd
    cases u with
    | nil => exact ⟨[], c :: w, v, rfl, by simp, by simp, by simpa [hc] using hw, hv⟩
    | cons d u =>
      refine ⟨[], [c], d :: u ++ (w ++ v), rfl, by simp, by simp, by simpa using hc, ?_⟩
      intro e he
      cases he
      exact hu d List.mem_cons_self

/-- What the user of a word sees: memory, contexts of its own, and the words it may start on. -/
structure Nest where
  mem : Memory
  contexts : Nat → Option Nat
  given : List Nat

structure NestedCall where
  fuel : Nat
  string : Option Nat
  seps : List Char
  context : Nat

/-- A call with a context of one's own, on a word that was handed out or to go on. -/
def Nest.Step (x : Nest) (c : NestedCall) (y : Nest) : Prop :=
  (∀ p ∈ c.string, p ∈ x.given) ∧
    ∃ r, strtokR c.fuel x.mem c.string c.seps (x.contexts c.context) = some r ∧
      y = ⟨r.mem, update x.contexts c.context r.context, r.word.toList ++ x.given⟩

/-- What a call does that returns. -/
theorem strtokR_cases (h : strtokR fuel mem string seps context = some r) :
    r = ⟨none, mem, none⟩ ∨ ∃ start head tail, string.or context = some start ∧
      skip (leading seps) mem fuel start = some head ∧
      skip (inWord seps) mem fuel head = some tail ∧
      (r = ⟨some head, mem, none⟩ ∨
        mem tail ≠ '\x00' ∧ r = ⟨some head, update mem tail '\x00', some (tail + 1)⟩) := by
  unfold strtokR at h
  cases hstart : string.or context with
  | none =>
    rw [hstart] at h
    exact .inl (Option.some.inj h).symm
  | some start =>
    rw [hstart] at h
    obtain ⟨head, hhead, h⟩ := Option.bind_eq_some_iff.mp h
    by_cases hend : mem head = '\x00'
    · rw [if_pos hend] at h
      exact .inl (Option.some.inj h).symm
    rw [if_neg hend] at h
    obtain ⟨tail, htail, h⟩ := Option.bind_eq_some_iff.mp h
    refine .inr ⟨start, head, tail, rfl, hhead, htail, ?_⟩
    by_cases hlast : mem tail = '\x00'
    · rw [if_pos hlast] at h
      exact .inl (Option.some.inj h).symm
    · rw [if_neg hlast] at h
      exact .inr ⟨hlast, (Option.some.inj h).symm⟩

/-- A call that starts within a string changes nothing from its final 0 on, and stays in it. -/
theorem strtokR_within (h : strtokR fuel mem string seps context = some r)
    (hp : ∀ p ∈ string.or context, p ≤ hi) (h0 : mem hi = '\x00') :
    (∀ a, hi ≤ a → r.mem a = mem a) ∧ (∀ p ∈ r.context, p ≤ hi) ∧ ∀ p ∈ r.word, p ≤ hi := by
  rcases strtokR_cases h with rfl | ⟨start, head, tail, hstart, hhead, htail, hr⟩
  · simp
  have hle := skip_le hhead (hp start hstart) (by simp [h0, leading])
  have hle' := skip_le htail hle.2 (by simp [h0, inWord])
  rcases hr with rfl | ⟨hlast, rfl⟩
  · simp [hle.2]
  have hne : tail ≠ hi := by
    rintro rfl
    exact hlast h0
  refine ⟨fun a ha => update_of_ne (by omega) _ _, ?_, by simp [hle.2]⟩
  simp only [Option.mem_def, Option.some.injEq, forall_eq']
  omega

/-- The calls stay within the string that ends at `hi`. -/
structure Nest.Within (hi : Nat) (mem : Memory) (x : Nest) : Prop where
  above : ∀ a, hi ≤ a → x.mem a = mem a
  contexts : ∀ c, ∀ p ∈ x.contexts c, p ≤ hi
  given : ∀ p ∈ x.given, p ≤ hi

theorem Nest.Within.step {x y : Nest} {c : NestedCall} (h : x.Within hi mem)
    (h0 : mem hi = '\x00') (hstep : x.Step c y) : y.Within hi mem := by
  obtain ⟨hgiven, r, hrun, rfl⟩ := hstep
  have hstart : ∀ p ∈ c.string.or (x.contexts c.context), p ≤ hi := by
    intro p hp
    rcases Option.or_eq_some_iff.mp hp with hp | ⟨-, hp⟩
    · exact h.given p (hgiven p hp)
    · exact h.contexts c.context p hp
  obtain ⟨habove, hcontext, hword⟩ := strtokR_within hrun hstart
    (by rw [h.above hi (Nat.le_refl hi), h0])
  refine ⟨fun a ha => (habove a ha).trans (h.above a ha), fun d p hp => ?_, fun p hp => ?_⟩
  · by_cases hd : d = c.context
    · simp only [hd, Function.update_self] at hp
      exact hcontext p hp
    · simp only [update_of_ne hd] at hp
      exact h.contexts d p hp
  · rcases List.mem_append.mp hp with hp | hp
    · exact hword p (by simpa using hp)
    · exact h.given p hp

/-- The calls of `strtok_r` until it returns NULL, with the words; between two of them the word just
returned may be cut further. -/
inductive Session (fuel : Nat) (seps : List Char) :
    Memory → Option Nat → Option Nat → List (List Char) → Prop where
  | last {mem : Memory} {string context : Option Nat} {r : Result} :
      strtokR fuel mem string seps context = some r → r.word = none →
      Session fuel seps mem string context []
  | word {mem : Memory} {string context : Option Nat} {r : Result} {q : Nat} {w : List Char}
      {calls : List NestedCall} {y : Nest} {ws : List (List Char)} :
      strtokR fuel mem string seps context = some r → r.word = some q → StringAt r.mem q w →
      Lts.Run Nest.Step ⟨r.mem, fun _ => none, [q]⟩ calls y →
      Session fuel seps y.mem none r.context ws → Session fuel seps mem string context (w :: ws)

/-- What is left of the string. -/
def Remains (mem : Memory) (l : List Char) : Option Nat → Prop
  | none => l = []
  | some p => StringAt mem p l

/-- A call on separators only. -/
theorem StringAt.strtokR_none (h : StringAt mem p l) (hall : ∀ c ∈ l, c ∈ seps)
    (hfuel : l.length < fuel) (hstart : string.or context = some p) :
    strtokR fuel mem string seps context = some ⟨none, mem, none⟩ := by
  have hend : Strtok.skip (leading seps) mem fuel p = some (p + l.length) := by
    refine StringAt.skip (v := []) (by simpa using h) (fun c hc => ?_) (by simp) rfl hfuel
    rw [leading_eq fun h0 => h.nonzero (h0 ▸ hc), decide_eq_true (hall c hc)]
  simp [strtokR, hstart, hend, h.final]

theorem StringAt.strtokR_word (h : StringAt mem p (u ++ (w ++ v))) (hu : ∀ c ∈ u, c ∈ seps)
    (hne : w ≠ []) (hw : ∀ c ∈ w, c ∉ seps) (hv : ∀ c ∈ v.head?, c ∈ seps)
    (hfuel : (u ++ (w ++ v)).length < fuel) (hstart : string.or context = some p) :
    strtokR fuel mem string seps context = some (if v = [] then ⟨some (p + u.length), mem, none⟩
      else ⟨some (p + u.length), update mem (p + u.length + w.length) '\x00',
        some (p + u.length + w.length + 1)⟩) := by
  have hchar : ∀ c ∈ u ++ (w ++ v), c ≠ '\x00' := fun c hc h0 => h.nonzero (h0 ▸ hc)
  rw [List.length_append, List.length_append] at hfuel
  have hhead : Strtok.skip (leading seps) mem fuel p = some (p + u.length) := by
    refine h.skip (fun c hc => ?_) (fun c hc => ?_) rfl (by omega)
    · rw [leading_eq (hchar c (by simp [hc])), decide_eq_true (hu c hc)]
    obtain ⟨d, w, rfl⟩ := List.exists_cons_of_ne_nil hne
    obtain rfl : d = c := Option.some.inj hc
    rw [leading_eq (hchar d (by simp)), decide_eq_false (hw d List.mem_cons_self)]
  have hword := h.drop
  have htail : Strtok.skip (inWord seps) mem fuel (p + u.length) =
      some (p + u.length + w.length) := by
    refine hword.skip (fun c hc => ?_) (fun c hc => ?_) rfl (by omega)
    · rw [inWord_eq (hchar c (by simp [hc])), decide_eq_true (hw c hc)]
    · rw [inWord_eq (hchar c (by simp [List.mem_of_mem_head? hc]))]
      simp [hv c hc]
  have hstop : ¬ mem (p + u.length) = '\x00' := by simp [hword.head_iff, hne]
  simp only [strtokR, hstart, hhead, htail, Option.bind_eq_bind, Option.bind_some, hstop, if_false,
    hword.drop.head_iff]
  split <;> rfl

/-- Calls on the word in front of a cut leave what is behind it. -/
theorem StringAt.nested {calls : List NestedCall} {y : Nest} (h : StringAt mem hi (ch :: v))
    (hq : q ≤ hi) (hrun : Lts.Run Nest.Step
      ⟨update mem hi '\x00', fun _ => none, [q]⟩ calls y) : StringAt y.mem (hi + 1) v := by
  have hwithin : y.Within hi (update mem hi '\x00') :=
    hrun.invariant _ (fun _ _ _ hstep hx => hx.step (by simp) hstep)
      ⟨fun _ _ => rfl, by simp, by simpa using hq⟩
  refine (StringAt.drop (u := [ch]) h).congr fun a ha => ?_
  have hlt : hi < a := ha
  rw [hwithin.above a (Nat.le_of_lt hlt), update_of_ne (Nat.ne_of_gt hlt)]

/-- One call: it returns, and hands out the next word if there is one. -/
theorem Remains.strtok (h : Remains mem l (string.or context)) (hfuel : l.length < fuel)
    (seps : List Char) :
    ∃ r, strtokR fuel mem string seps context = some r ∧
      (r.word = none ∧ words seps l = [] ∨
        ∃ q w rest, r.word = some q ∧ StringAt r.mem q w ∧
          words seps l = w :: words seps rest ∧ rest.length < l.length ∧
          ∀ calls y, Lts.Run Nest.Step ⟨r.mem, fun _ => none, [q]⟩ calls y →
            Remains y.mem rest r.context) := by
  cases hstart : string.or context with
  | none =>
    rw [hstart] at h
    cases h
    exact ⟨⟨none, mem, none⟩, by simp [strtokR, hstart], .inl ⟨rfl, rfl⟩⟩
  | some p =>
    rw [hstart] at h
    have hstr : StringAt mem p l := h
    rcases exists_word seps l with hall | ⟨u, w, v, rfl, hu, hne, hw, hv⟩
    · refine ⟨_, hstr.strtokR_none hall hfuel hstart, .inl ⟨rfl, ?_⟩⟩
      have hskip := words_skip (v := []) hall
      rw [List.append_nil] at hskip
      exact hskip
    have hrun := hstr.strtokR_word hu hne hw hv hfuel hstart
    have hpos := List.length_pos_iff.mpr hne
    refine ⟨_, hrun, .inr ⟨p + u.length, w, v.tail, ?_⟩⟩
    rw [words_skip hu]
    cases v with
    | nil =>
      refine ⟨rfl, by simpa using hstr.drop, ?_, by simp; omega, fun _ _ _ => rfl⟩
      rw [List.append_nil, words_last hw hne]
      rfl
    | cons c v =>
      refine ⟨rfl, hstr.drop.cut, words_cons hw hne (hv c rfl), by simp; omega, ?_⟩
      exact fun calls y hrun => hstr.drop.drop.nested (Nat.le_add_right _ _) hrun

theorem Session.eq_words {ws : List (List Char)} (h : Session fuel seps mem string context ws)
    (hl : Remains mem l (string.or context)) (hfuel : l.length < fuel) : ws = words seps l := by
  induction h generalizing l with
  | last hrun hword =>
    obtain ⟨r, hrun', hnext⟩ := hl.strtok hfuel _
    cases hrun.symm.trans hrun'
    rcases hnext with ⟨-, hnone⟩ | ⟨q, w, rest, hq, -⟩
    · exact hnone.symm
    · rw [hword] at hq
      cases hq
  | word hrun hword hstr hnest _ ih =>
    obtain ⟨r, hrun', hnext⟩ := hl.strtok hfuel _
    cases hrun.symm.trans hrun'
    rcases hnext with ⟨hnone, -⟩ | ⟨q, w, rest, hq, hw, hwords, hlt, hrest⟩
    · rw [hword] at hnone
      cases hnone
    · cases hword.symm.trans hq
      rw [hwords, hstr.unique hw, ih (hrest _ _ hnest) (by omega)]

theorem Remains.session (h : Remains mem l (string.or context)) (hfuel : l.length < fuel) :
    Session fuel seps mem string context (words seps l) := by
  induction hn : l.length using Nat.strongRecOn generalizing mem l string context with
  | _ n ih =>
    obtain ⟨r, hrun, ⟨hword, hnone⟩ | ⟨q, w, rest, hq, hw, hwords, hlt, hrest⟩⟩ :=
      h.strtok hfuel seps
    · rw [hnone]
      exact .last hrun hword
    · rw [hwords]
      exact .word hrun hq hw .refl
        (ih _ (hn ▸ hlt) (hrest [] _ .refl) (Nat.lt_trans hlt hfuel) rfl)

/-- The calls of `strtok_r` on a string return and give the non-empty pieces between the separators,
in order, also if the words are cut further between the calls; once it has returned NULL, it does so
again. -/
theorem strtok_splits (h : StringAt mem p l) (hfuel : l.length < fuel) (seps : List Char)
    (context : Option Nat) :
    (∀ ws, Session fuel seps mem (some p) context ws ↔
      ws = (l.splitOnP (· ∈ seps)).filter (· ≠ [])) ∧
    ∀ fuel mem string seps context r, strtokR fuel mem string seps context = some r →
      r.word = none → ∀ fuel' seps', strtokR fuel' r.mem none seps' r.context = some r := by
  refine ⟨fun ws => ⟨fun hs => hs.eq_words h hfuel, ?_⟩, ?_⟩
  · rintro rfl
    exact Remains.session h hfuel
  intro fuel mem string seps context r hrun hnone fuel' seps'
  rcases strtokR_cases hrun with rfl | ⟨start, head, tail, -, -, -, rfl | ⟨-, rfl⟩⟩
  · rfl
  · cases hnone
  · cases hnone

/-- The characters of a list from the address 0 on. -/
def memoryOf (l : List Char) : Memory := fun a => l.getD a '\x00'

/-- The two words of `"; a;;bc"`. -/
theorem strtok_splits_two :
    Session 8 [' ', ';'] (memoryOf [';', ' ', 'a', ';', ';', 'b', 'c']) (some 0) none
      [['a'], ['b', 'c']] := by
  have hline : StringAt (memoryOf [';', ' ', 'a', ';', ';', 'b', 'c']) 0
      [';', ' ', 'a', ';', ';', 'b', 'c'] := by
    refine ⟨fun i hi => ?_, rfl, by decide⟩
    simp [memoryOf, List.getElem?_eq_getElem hi]
  exact ((strtok_splits hline (by decide) [' ', ';'] none).1 _).mpr (by decide)

end OS161.Strtok
