import OS161.Asst1.Stoplight

/-! The order of admission: a car enters when it is the first of its wait list. -/
namespace OS161
namespace Stoplight

open Function (update_self update_of_ne update)

/-- Every branch looks at the list of the direction the car comes from. -/
theorem route_list (car : Car) : car.route.list = car.cardirection := by
  obtain ⟨d, t⟩ := car
  fin_cases t <;> fin_cases d <;> rfl

/-- The car has put itself on the wait list and not taken itself off. -/
def Pc.waiting : Pc → Prop
  | .queued | .entry | .ask | .test | .refused | .backOff | .admitted => True
  | _ => False

/-- What a car did with the wait list `d`: it went to its tail, passed the test, removed the entry
of `guy`. -/
inductive Event (n : Nat) where
  | appended (d : Fin 4) (i : Fin n)
  | admitted (d : Fin 4) (i : Fin n)
  | removed (d : Fin 4) (i guy : Fin n)
  deriving DecidableEq

section trace
variable {n : Nat} (d : Fin 4)

def appended : List (Event n) → List (Fin n) :=
  List.filterMap fun
    | .appended d' i => if d' = d then some i else none
    | .admitted .. | .removed .. => none

def admitted : List (Event n) → List (Fin n) :=
  List.filterMap fun
    | .admitted d' i => if d' = d then some i else none
    | .appended .. | .removed .. => none

/-- The cars that removed an entry. -/
def removed : List (Event n) → List (Fin n) :=
  List.filterMap fun
    | .removed d' i _ => if d' = d then some i else none
    | .appended .. | .admitted .. => none

variable {d} {tr : List (Event n)}

/-- The list an event is about. -/
def Event.list : Event n → Fin 4
  | .appended d _ | .admitted d _ | .removed d .. => d

@[simp] theorem appended_snoc (e : Event n) :
    appended d (tr ++ [e]) = appended d tr ++ appended d [e] := List.filterMap_append

@[simp] theorem removed_snoc (e : Event n) :
    removed d (tr ++ [e]) = removed d tr ++ removed d [e] := List.filterMap_append

theorem snoc_other {e : Event n} (h : e.list ≠ d) : appended d (tr ++ [e]) = appended d tr ∧
    admitted d (tr ++ [e]) = admitted d tr ∧ removed d (tr ++ [e]) = removed d tr := by
  cases e <;> simp_all [Event.list, appended, admitted, removed]

end trace

section model
variable {n : Nat} {cars : Fin n → Car} {s s' : Crossing n} {i : Fin n} {mem : Bool}

/-- What happens to the wait lists in a step of the car `i` to `s'`. -/
def events (cars : Fin n → Car) (s : Crossing n) (i : Fin n) (mem : Bool) (s' : Crossing n) :
    List (Event n) :=
  match (cars i).route.action (s.pc i) with
  | .addtail =>
    match (s.waitlist (cars i).cardirection).qAddtail i mem with
    | .ok (some _) => [.appended (cars i).cardirection i]
    | _ => []
  | .test => if s'.pc i = .admitted then [.admitted (cars i).route.list i] else []
  | .remhead =>
    match (s.waitlist (cars i).route.list).qRemhead with
    | .ok (guy, _) => [.removed (cars i).route.list i guy]
    | .error _ => []
  | _ => []

/-- A state with what happened up to it. -/
structure Log (n : Nat) where
  state : Crossing n
  trace : List (Event n)

def Log.start : Log n := ⟨createcars, []⟩

def Log.Step (cars : Fin n → Car) (x : Log n) (a : Fin n × Bool) (y : Log n) : Prop :=
  Stoplight.Step cars x.state a y.state ∧
    y.trace = x.trace ++ events cars x.state a.1 a.2 y.state

/-- The step is not a `q_addtail` that fails for want of memory. -/
def Appends (cars : Fin n → Car) (x : Log n) (a : Fin n × Bool) : Prop :=
  (cars a.1).route.action (x.state.pc a.1) = .addtail →
    (x.state.waitlist (cars a.1).cardirection).qAddtail a.1 a.2 ≠ .ok none

end model

/-- The test on a list that is not empty. -/
theorem head_of_inOrder {n : Nat} {q : Queue (Fin n)} {l : List (Fin n)} {i : Fin n}
    (h : q.Holds l) (hne : l ≠ []) (horder : isInOrder q i = .ok true) : l.head? = some i := by
  obtain ⟨a, rest, rfl⟩ := List.exists_cons_of_ne_nil hne
  have hitem := h.item 0 (by simp)
  rw [Nat.add_zero, Nat.mod_eq_of_lt h.read_lt] at hitem
  rw [isInOrder, if_neg (by rw [h.empty_iff]; exact hne), Queue.qGetguy, Queue.qGetstart,
    if_pos h.read_lt, hitem] at horder
  simpa [bind, Except.bind] using horder

/-- The car has been in `q_addtail`. -/
def Pc.came (pc : Pc) : Prop := pc ≠ .start ∧ pc ≠ .arriving

theorem action_sem_waiting {r : Route} {pc pc' : Pc} {sem : Sem}
    (h : r.action pc = .p sem pc' ∨ r.action pc = .v sem pc') :
    (pc'.waiting ↔ pc.waiting) ∧ (pc' = .admitted ↔ pc = .admitted) ∧ (pc.came → pc'.came) := by
  unfold Route.action at h
  split at h <;> rcases h with h | h <;> cases h <;> simp [Pc.waiting, Pc.came]

section invariant
variable {n : Nat} {cars : Fin n → Car} {x y : Log n} {i j : Fin n} {mem : Bool} {d : Fin 4}
  {l : List (Fin n)} {pc' : Pc}

/-- The cars of `l` are those on the list `d`, in order. -/
structure Waits (cars : Fin n → Car) (x : Log n) (d : Fin 4) (l : List (Fin n)) : Prop where
  holds : (x.state.waitlist d).Holds l
  rest : appended d x.trace = removed d x.trace ++ l
  mem : ∀ i, i ∈ l ↔ (cars i).cardirection = d ∧ (x.state.pc i).waiting
  first : ∀ i, x.state.pc i = .admitted → (cars i).cardirection = d → l.head? = some i

/-- Only the car that has passed the test has still to remove itself. -/
def Passed (cars : Fin n → Car) (x : Log n) (d : Fin 4) : Prop :=
  (∀ i, x.state.pc i = .admitted → (cars i).cardirection ≠ d) ∧
      admitted d x.trace = removed d x.trace ∨
    ∃ i, x.state.pc i = .admitted ∧ (cars i).cardirection = d ∧
      admitted d x.trace = removed d x.trace ++ [i]

structure Ordered (cars : Fin n → Car) (x : Log n) : Prop where
  inv : Inv cars x.state
  waits : ∀ d, ∃ l, Waits cars x d l
  passed : ∀ d, Passed cars x d
  came : ∀ d i, i ∈ appended d x.trace → (x.state.pc i).came
  nodup : ∀ d, (appended d x.trace).Nodup
  own : ∀ d i guy, Event.removed d i guy ∈ x.trace → guy = i

theorem Ordered.start : Ordered cars .start := by
  have hpc : ∀ i : Fin n, (createcars : Crossing n).pc i ≠ .admitted := fun i => by
    simp [createcars]
  refine ⟨.createcars, fun d => ⟨[], Queue.holds_qCreate (by decide), rfl, fun i => ?_, ?_⟩,
    fun d => .inl ⟨fun i hi => absurd hi (hpc i), rfl⟩, fun d i hi => absurd hi List.not_mem_nil,
    fun d => List.nodup_nil, fun d i guy hi => absurd hi List.not_mem_nil⟩
  · simp [Log.start, createcars, Pc.waiting]
  · intro i hi
    exact absurd hi (hpc i)

section
variable (h : Ordered cars x)
include h

/-- A step that has nothing to do with the lists. -/
theorem Ordered.quiet (hinv : Inv cars y.state) (htrace : y.trace = x.trace)
    (hlist : y.state.waitlist = x.state.waitlist) (hpc : y.state.pc = update x.state.pc i pc')
    (hsame : (pc'.waiting ↔ (x.state.pc i).waiting) ∧
      (pc' = .admitted ↔ x.state.pc i = .admitted) ∧ ((x.state.pc i).came → pc'.came)) :
    Ordered cars y := by
  have hpc : ∀ j, ((y.state.pc j).waiting ↔ (x.state.pc j).waiting) ∧
      (y.state.pc j = .admitted ↔ x.state.pc j = .admitted) ∧
      ((x.state.pc j).came → (y.state.pc j).came) := by
    intro j
    by_cases hj : j = i
    · subst hj
      rw [hpc, update_self]
      exact hsame
    · rw [hpc, update_of_ne hj]
      exact ⟨.rfl, .rfl, id⟩
  refine ⟨hinv, fun d => ?_, fun d => ?_, fun d j hj => ?_, fun d => ?_, fun d j guy hj => ?_⟩
  · obtain ⟨l, hl⟩ := h.waits d
    refine ⟨l, by rw [hlist]; exact hl.holds, by rw [htrace]; exact hl.rest, fun j => ?_, ?_⟩
    · rw [(hpc j).1]
      exact hl.mem j
    · intro j hj
      exact hl.first j ((hpc j).2.1.mp hj)
  · have hpassed := h.passed d
    simp only [Passed, htrace, (hpc _).2.1]
    exact hpassed
  · rw [htrace] at hj
    exact (hpc j).2.2 (h.came d j hj)
  · rw [htrace]
    exact h.nodup d
  · rw [htrace] at hj
    exact h.own d j guy hj

/-- A car that has passed the test holds `staus`, as does the car at the test. -/
theorem Ordered.nobody_passed (hpc : x.state.pc i = .test) (j : Fin n) :
    x.state.pc j ≠ .admitted := by
  intro hj
  have hij : i = j := h.inv.permits.holder_unique (k := .staus) rfl
    (by simp [Crossing.held, hpc, Pc.held]) (by simp [Crossing.held, hj, Pc.held])
  rw [hij, hj] at hpc
  cases hpc

omit h in
theorem Waits.other (hl : Waits cars x d l) (hd : d ≠ (cars i).cardirection)
    (hpc : y.state.pc = update x.state.pc i pc') (hlist : y.state.waitlist d = x.state.waitlist d)
    (happ : appended d y.trace = appended d x.trace) (hrem : removed d y.trace = removed d x.trace)
    : Waits cars y d l := by
  have hother : ∀ j, (cars j).cardirection = d → y.state.pc j = x.state.pc j := by
    rintro j rfl
    rw [hpc, update_of_ne fun hj => hd (by rw [hj])]
  refine ⟨by rw [hlist]; exact hl.holds, by rw [happ, hrem]; exact hl.rest, fun j => ?_, ?_⟩
  · rw [hl.mem j]
    exact and_congr_right fun hj => by rw [hother j hj]
  · intro j hj hjd
    rw [hother j hjd] at hj
    exact hl.first j hj hjd

omit h in
theorem Passed.other (h : Passed cars x d) (hd : d ≠ (cars i).cardirection)
    (hpc : y.state.pc = update x.state.pc i pc') (hadm : admitted d y.trace = admitted d x.trace)
    (hrem : removed d y.trace = removed d x.trace) : Passed cars y d := by
  have hother : ∀ j, (cars j).cardirection = d → y.state.pc j = x.state.pc j := by
    rintro j rfl
    rw [hpc, update_of_ne fun hj => hd (by rw [hj])]
  rw [Passed, hadm, hrem]
  rcases h with ⟨hnone, heq⟩ | ⟨j, hj, hjd, heq⟩
  · refine .inl ⟨fun j hj hjd => ?_, heq⟩
    rw [hother j hjd] at hj
    exact hnone j hj hjd
  · exact .inr ⟨j, (hother j hjd).trans hj, hjd, heq⟩

section
variable (hinv : Inv cars y.state)
include hinv

variable {q : Queue (Fin n)}

theorem Ordered.acts {e : Event n} (hpc : y.state.pc = update x.state.pc i pc')
    (hlist : y.state.waitlist = update x.state.waitlist (cars i).cardirection q)
    (htrace : y.trace = x.trace ++ [e]) (he : e.list = (cars i).cardirection)
    (hwaits : ∃ l, Waits cars y (cars i).cardirection l)
    (hpassed : Passed cars y (cars i).cardirection) (hcame : pc'.came)
    (hwho : ∀ j ∈ appended (cars i).cardirection [e], j = i)
    (hnodup : (appended (cars i).cardirection y.trace).Nodup)
    (hown : ∀ d j guy, e = .removed d j guy → guy = j) : Ordered cars y := by
  have hother : ∀ d, d ≠ (cars i).cardirection → appended d y.trace = appended d x.trace ∧
      admitted d y.trace = admitted d x.trace ∧ removed d y.trace = removed d x.trace := by
    intro d hd
    rw [htrace]
    exact snoc_other (by rw [he]; exact hd.symm)
  refine ⟨hinv, fun d => ?_, fun d => ?_, fun d j hj => ?_, fun d => ?_, fun d j guy hj => ?_⟩
  · by_cases hd : d = (cars i).cardirection
    · rw [hd]
      exact hwaits
    · obtain ⟨l, hl⟩ := h.waits d
      refine ⟨l, hl.other hd hpc ?_ (hother d hd).1 (hother d hd).2.2⟩
      rw [hlist, update_of_ne hd]
  · by_cases hd : d = (cars i).cardirection
    · rw [hd]
      exact hpassed
    · exact (h.passed d).other hd hpc (hother d hd).2.1 (hother d hd).2.2
  · rw [hpc]
    by_cases hji : j = i
    · rw [hji, update_self]
      exact hcame
    rw [update_of_ne hji]
    by_cases hd : d = (cars i).cardirection
    · rw [htrace, appended_snoc, List.mem_append, hd] at hj
      exact h.came _ j (hj.resolve_right fun hj => hji (hwho j hj))
    · rw [(hother d hd).1] at hj
      exact h.came d j hj
  · by_cases hd : d = (cars i).cardirection
    · rw [hd]
      exact hnodup
    · rw [(hother d hd).1]
      exact h.nodup d
  · rw [htrace, List.mem_append, List.mem_singleton] at hj
    rcases hj with hj | hj
    · exact h.own d j guy hj
    · exact hown d j guy hj.symm

theorem Ordered.addtail (hpc : x.state.pc i = .arriving)
    (hq : (x.state.waitlist (cars i).cardirection).qAddtail i mem = .ok (some q))
    (hlist : y.state.waitlist = update x.state.waitlist (cars i).cardirection q)
    (hpc' : y.state.pc = update x.state.pc i .queued)
    (htrace : y.trace = x.trace ++ [.appended (cars i).cardirection i]) : Ordered cars y := by
  have happ : appended (cars i).cardirection y.trace =
      appended (cars i).cardirection x.trace ++ [i] := by
    rw [htrace, appended_snoc]
    simp [appended]
  have hrem : removed (cars i).cardirection y.trace = removed (cars i).cardirection x.trace := by
    simp [htrace, removed]
  have hadm : ∀ j, y.state.pc j = .admitted ↔ x.state.pc j = .admitted := by
    intro j
    by_cases hj : j = i
    · rw [hj, hpc', update_self, hpc]
      simp
    · rw [hpc', update_of_ne hj]
  refine h.acts hinv hpc' hlist htrace rfl ?_ ?_ (by simp [Pc.came]) (by simp [appended]) ?_
    (by simp)
  · obtain ⟨l, hl⟩ := h.waits (cars i).cardirection
    refine ⟨l ++ [i], ?_, by rw [happ, hrem, hl.rest, List.append_assoc], fun j => ?_, ?_⟩
    · rcases hl.holds.qAddtail i mem with ⟨q', hq', hholds, -⟩ | ⟨-, -, hfail⟩
      · rw [hq] at hq'
        cases hq'
        rw [hlist, update_self]
        exact hholds
      · rw [hq] at hfail
        cases hfail
    · rw [List.mem_append, List.mem_singleton, hl.mem j, hpc']
      by_cases hj : j = i
      · subst hj
        simp [Pc.waiting]
      · rw [update_of_ne hj]
        simp [hj]
    · intro j hj hjd
      rw [List.head?_append, hl.first j ((hadm j).mp hj) hjd]
      rfl
  · have hsame : admitted (cars i).cardirection y.trace =
        admitted (cars i).cardirection x.trace := by
      simp [htrace, admitted]
    have hpassed := h.passed (cars i).cardirection
    simp only [Passed, hadm, hrem, hsame] at hpassed ⊢
    exact hpassed
  · rw [happ, List.nodup_append]
    refine ⟨h.nodup _, List.nodup_singleton i, ?_⟩
    rintro a ha b hb rfl
    rw [List.mem_singleton.mp hb] at ha
    exact (h.came _ i ha).2 hpc

/-- The car that passes the test is the first of its list: the list is not empty, as the car is
on it. -/
theorem Ordered.test (hpc : x.state.pc i = .test)
    (horder : isInOrder (x.state.waitlist (cars i).cardirection) i = .ok true)
    (hlist : y.state.waitlist = x.state.waitlist)
    (hpc' : y.state.pc = update x.state.pc i .admitted)
    (htrace : y.trace = x.trace ++ [.admitted (cars i).cardirection i]) : Ordered cars y := by
  have hadm : ∀ j, y.state.pc j = .admitted → j = i := by
    intro j hj
    by_contra hji
    rw [hpc', update_of_ne hji] at hj
    exact h.nobody_passed hpc j hj
  refine h.acts (q := x.state.waitlist (cars i).cardirection) hinv hpc' ?_ htrace rfl ?_ ?_
    (by simp [Pc.came]) (by simp [appended]) ?_ (by simp)
  · rw [hlist, Function.update_eq_self]
  · obtain ⟨l, hl⟩ := h.waits (cars i).cardirection
    have hmem : i ∈ l := (hl.mem i).mpr ⟨rfl, by rw [hpc]; trivial⟩
    refine ⟨l, by rw [hlist]; exact hl.holds, ?_, fun j => ?_, ?_⟩
    · simpa [htrace, appended, removed] using hl.rest
    · rw [hl.mem j, hpc']
      by_cases hj : j = i
      · subst hj
        simp [hpc, Pc.waiting]
      · rw [update_of_ne hj]
    · rintro j hj -
      rw [hadm j hj]
      exact head_of_inOrder hl.holds (List.ne_nil_of_mem hmem) horder
  · refine .inr ⟨i, by rw [hpc', update_self], rfl, ?_⟩
    rcases h.passed (cars i).cardirection with ⟨-, heq⟩ | ⟨j, hj, -⟩
    · simpa [htrace, admitted, removed] using heq
    · exact absurd hj (h.nobody_passed hpc j)
  · simpa [htrace, appended] using h.nodup (cars i).cardirection

theorem Ordered.remhead {guy : Fin n} (hpc : x.state.pc i = .admitted)
    (hq : (x.state.waitlist (cars i).cardirection).qRemhead = .ok (guy, q))
    (hlist : y.state.waitlist = update x.state.waitlist (cars i).cardirection q)
    (hpc' : y.state.pc = update x.state.pc i .counting)
    (htrace : y.trace = x.trace ++ [.removed (cars i).cardirection i guy]) : Ordered cars y := by
  obtain ⟨l, hl⟩ := h.waits (cars i).cardirection
  obtain ⟨rest, rfl⟩ := List.head?_eq_some_iff.mp (hl.first i hpc rfl)
  obtain ⟨q', hq', hholds, -⟩ := hl.holds.qRemhead
  rw [hq] at hq'
  cases hq'
  have hrem : removed (cars i).cardirection y.trace =
      removed (cars i).cardirection x.trace ++ [i] := by
    rw [htrace, removed_snoc]
    simp [removed]
  have happ : appended (cars i).cardirection y.trace = appended (cars i).cardirection x.trace := by
    simp [htrace, appended]
  have hadm : ∀ j, y.state.pc j ≠ .admitted := by
    intro j hj
    have hji : j ≠ i := by
      rintro rfl
      rw [hpc', update_self] at hj
      cases hj
    rw [hpc', update_of_ne hji] at hj
    exact hji (h.inv.admission_unique (.inl hpc) (.inl hj))
  have hnodup := h.nodup (cars i).cardirection
  rw [hl.rest] at hnodup
  have hnot : i ∉ rest := (List.nodup_cons.mp (List.nodup_append.mp hnodup).2.1).1
  refine h.acts hinv hpc' hlist htrace rfl ⟨rest, ?_, ?_, fun j => ?_, ?_⟩ (.inl ⟨?_, ?_⟩)
    (by simp [Pc.came]) (by simp [appended]) (by rw [happ]; exact h.nodup _)
    (fun d j guy he => by cases he; rfl)
  · rw [hlist, update_self]
    exact hholds
  · rw [happ, hrem, hl.rest, List.append_assoc]
    rfl
  · have hmem := hl.mem j
    rw [hpc']
    by_cases hj : j = i
    · subst hj
      simp [hnot, Pc.waiting]
    · rw [update_of_ne hj, ← hmem]
      simp [hj]
  · intro j hj
    exact absurd hj (hadm j)
  · intro j hj
    exact absurd hj (hadm j)
  rcases h.passed (cars i).cardirection with ⟨hnone, -⟩ | ⟨j, hj, -, heq⟩
  · exact absurd rfl (hnone i hpc)
  rw [h.inv.admission_unique (.inl hpc) (.inl hj)] at heq
  rw [hrem, ← heq]
  simp [htrace, admitted]

end

theorem Ordered.step (hstep : Log.Step cars x (i, mem) y)
    (happ : Appends cars x (i, mem)) : Ordered cars y := by
  obtain ⟨hstep, htrace⟩ := hstep
  have hinv := h.inv.step hstep
  have hmoved := moved_of_step hstep
  generalize hs : y.state = s' at hmoved
  cases hmoved with
  | p ha _ =>
    refine h.quiet hinv ?_ (by rw [hs]; rfl) (by rw [hs]; rfl)
      (action_sem_waiting (.inl ha))
    rw [htrace, events, ha, List.append_nil]
  | v ha =>
    refine h.quiet hinv ?_ (by rw [hs]; rfl) (by rw [hs]; rfl)
      (action_sem_waiting (.inr ha))
    rw [htrace, events, ha, List.append_nil]
  | @addtail queue hpc hq =>
    have ha : (cars i).route.action (x.state.pc i) = .addtail := by rw [hpc]; rfl
    cases queue with
    | none => exact absurd hq (happ ha)
    | some q =>
      refine h.addtail hinv hpc hq (by rw [hs]; rfl) (by rw [hs]; rfl) ?_
      simp only [htrace, events, ha, hq]
  | refused hpc =>
    have ha : (cars i).route.action (x.state.pc i) = .test := by rw [hpc]; rfl
    refine h.quiet hinv ?_ (by rw [hs]; rfl) (by rw [hs]; rfl)
      (by rw [hpc]; simp [Pc.waiting, Pc.came])
    simp [htrace, events, ha, hs, Crossing.goto]
  | admitted hpc _ horder =>
    have ha : (cars i).route.action (x.state.pc i) = .test := by rw [hpc]; rfl
    rw [route_list] at horder
    refine h.test hinv hpc horder (by rw [hs]; rfl) (by rw [hs]; rfl) ?_
    simp [htrace, events, ha, hs, Crossing.goto, route_list]
  | remhead hpc hq =>
    have ha : (cars i).route.action (x.state.pc i) = .remhead := by rw [hpc]; rfl
    rw [route_list] at hq hs
    refine h.remhead hinv hpc hq (by rw [hs]; rfl) (by rw [hs]; rfl) ?_
    simp only [htrace, events, ha, hq, route_list]
  | count hpc | uncount hpc | leave hpc =>
    refine h.quiet hinv ?_ (by rw [hs]; rfl) (by rw [hs]; rfl)
      (by rw [hpc]; simp [Pc.waiting, Pc.came])
    simp [htrace, events, hpc, Route.action]

theorem Ordered.no_crash (i : Fin n) (mem : Bool) (c : Crash) :
    x.state.step cars i mem ≠ some (.error c) := by
  intro hstep
  obtain ⟨l, hl⟩ := h.waits (cars i).cardirection
  unfold Crossing.step at hstep
  split at hstep
  · split at hstep <;> cases hstep
  · cases hstep
  · rcases hl.holds.qAddtail i mem with ⟨q, hq, -⟩ | ⟨-, -, hq⟩ <;>
      simp [hq, bind, Except.bind] at hstep
  · rw [route_list, isInOrder] at hstep
    split at hstep
    · simp [bind, Except.bind] at hstep
    · simp [Queue.qGetguy, Queue.qGetstart, hl.holds.read_lt, bind, Except.bind] at hstep
  · rename_i ha
    have hpc := (action_eq_local (cars i).route (x.state.pc i)).2.2.1 ha
    obtain ⟨rest, rfl⟩ := List.head?_eq_some_iff.mp (hl.first i hpc rfl)
    obtain ⟨q, hq, -⟩ := hl.holds.qRemhead
    simp [route_list, hq, bind, Except.bind] at hstep
  all_goals cases hstep

theorem Ordered.admitted_first (d : Fin 4) : admitted d x.trace <+: appended d x.trace := by
  obtain ⟨l, hl⟩ := h.waits d
  rw [hl.rest]
  rcases h.passed d with ⟨-, heq⟩ | ⟨i, hi, hd, heq⟩
  · rw [heq]
    exact List.prefix_append _ _
  · obtain ⟨rest, rfl⟩ := List.head?_eq_some_iff.mp (hl.first i hi hd)
    rw [heq]
    exact ⟨rest, by rw [List.append_assoc]; rfl⟩

end

end invariant

/-- In every run in which no `q_addtail` fails for want of memory: the cars of one direction are
admitted in the order in which they were appended, each once; who removes an entry removes its
own; and no assertion of the queues fails, so that `q_remhead` is not called on an empty list. -/
theorem admission_in_order {n : Nat} (cars : Fin n → Car) {as : List (Fin n × Bool)} {x : Log n}
    (h : Lts.Run (Lts.Restrict (Log.Step cars) (Appends cars)) .start as x) :
    (∀ d, admitted d x.trace <+: appended d x.trace ∧ (appended d x.trace).Nodup) ∧
      (∀ d i guy, Event.removed d i guy ∈ x.trace → guy = i) ∧
      (∀ d, admitted d x.trace = removed d x.trace ∨
        ∃ i, x.state.pc i = .admitted ∧ admitted d x.trace = removed d x.trace ++ [i]) ∧
      ∀ i mem c, x.state.step cars i mem ≠ some (.error c) := by
  have hord : Ordered cars x :=
    h.invariant (Ordered cars) (fun _ _ _ hstep hs => hs.step hstep.1 hstep.2) .start
  refine ⟨fun d => ⟨hord.admitted_first d, hord.nodup d⟩, hord.own, fun d => ?_, hord.no_crash⟩
  rcases hord.passed d with ⟨-, heq⟩ | ⟨i, hi, -, heq⟩
  · exact .inl heq
  · exact .inr ⟨i, hi, heq⟩

/-- The step as a function. -/
def Log.next {n : Nat} (cars : Fin n → Car) (x : Log n) (a : Fin n × Bool) : Option (Log n) :=
  match x.state.step cars a.1 a.2 with
  | some (.ok s) => some ⟨s, x.trace ++ events cars x.state a.1 a.2 s⟩
  | _ => none

theorem Log.step_of_next {n : Nat} {cars : Fin n → Car} {x y : Log n} {a : Fin n × Bool}
    (h : x.next cars a = some y) : Log.Step cars x a y := by
  unfold Log.next at h
  split at h
  · rename_i s hs
    cases h
    exact ⟨hs, rfl⟩
  · cases h

/-- Two cars from the north: the second is on the list when the first has passed the test and
removed itself. -/
theorem admission_in_order_two :
    ∃ x : Log 2, Lts.Run (Lts.Restrict (Log.Step fun _ => ⟨0, 0⟩) (Appends fun _ => ⟨0, 0⟩)) .start
        (List.replicate 3 (0, true) ++ List.replicate 3 (1, true) ++ List.replicate 4 (0, true)) x ∧
      x.trace = [.appended 0 0, .appended 0 1, .admitted 0 0, .removed 0 0 0] ∧
      admitted 0 x.trace <+: appended 0 x.trace := by
  refine Lts.exists_run_and ?_ fun x hrun _ => ((admission_in_order _ hrun).1 0).1
  refine ⟨_, .head ⟨Log.step_of_next rfl, ?_⟩ (.head ⟨Log.step_of_next rfl, ?_⟩
    (.head ⟨Log.step_of_next rfl, ?_⟩ (.head ⟨Log.step_of_next rfl, ?_⟩
    (.head ⟨Log.step_of_next rfl, ?_⟩ (.head ⟨Log.step_of_next rfl, ?_⟩
    (.head ⟨Log.step_of_next rfl, ?_⟩ (.head ⟨Log.step_of_next rfl, ?_⟩
    (.head ⟨Log.step_of_next rfl, ?_⟩ (.head ⟨Log.step_of_next rfl, ?_⟩ .refl))))))))), rfl⟩
  all_goals rintro - ⟨⟩

/-- Nineteen cars go to the list and fill it, the twentieth finds no memory; the nineteen cross,
one after the other; the twentieth goes to the test. -/
def twentyCars : List (Fin 20 × Bool) :=
  let nineteen := (List.finRange 20).take 19
  (nineteen.flatMap fun i => List.replicate 3 (i, true)) ++ List.replicate 3 (19, false) ++
    (nineteen.flatMap fun i => List.replicate 11 (i, true)) ++ List.replicate 3 (19, true)

/-- Twenty cars from the north turn right. The ring of twenty slots holds nineteen, and the result
of the `q_addtail` that has to grow it is not looked at: the last car passes the test because the
list is empty, and fails in `q_remhead`. -/
theorem lost_append_crashes :
    ∃ x : Log 20, Lts.Run (Log.Step fun _ => ⟨0, 0⟩) .start twentyCars x ∧
      x.state.pc 19 = .admitted ∧ (x.state.waitlist 0).qEmpty = true ∧
      x.state.step (fun _ => ⟨0, 0⟩) 19 true = some (.error .assertion) := by
  have hend : ((twentyCars.foldlM (Log.next fun _ => ⟨0, 0⟩) Log.start).any fun x =>
      x.state.pc 19 = .admitted ∧ (x.state.waitlist 0).qEmpty = true) = true := by
    decide +kernel
  cases hx : twentyCars.foldlM (Log.next fun _ => ⟨0, 0⟩) Log.start with
  | none =>
    rw [hx] at hend
    cases hend
  | some x =>
    rw [hx] at hend
    obtain ⟨hpc, hempty⟩ := of_decide_eq_true hend
    refine ⟨x, .of_foldlM (fun _ _ _ => Log.step_of_next) hx, hpc, hempty, ?_⟩
    have ha : (Car.route ⟨0, 0⟩).action (x.state.pc 19) = .remhead := by rw [hpc]; rfl
    have hcrash : (x.state.waitlist (Car.route ⟨0, 0⟩).list).qRemhead = .error .assertion := by
      rw [Queue.qRemhead, if_pos]
      exact .inr hempty
    simp only [Crossing.step, ha, hcrash]
    rfl

end Stoplight
end OS161
