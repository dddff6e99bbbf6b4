import Mathlib.Data.Nat.ModEq
import OS161.Base

/-! `queue.c` and `array.c`; a call that allocates is told whether `kmalloc` has memory for it. -/
namespace OS161

/-- `struct queue`; a slot that was never written holds nothing. -/
structure Queue (α : Type) where
  size : Nat
  nextwrite : Nat
  nextread : Nat
  data : Nat → Option α

section queue
variable {α : Type}

def qCreate (size : Nat) : Queue α := ⟨size, 0, 0, fun _ => none⟩

namespace Queue
variable (q : Queue α)

def qEmpty : Bool := q.nextwrite == q.nextread

/-- The test of `q_addtail`: the next slot is the one to be read from. -/
def full : Bool := (q.nextwrite + 1) % q.size == q.nextread

def put (x : Option α) : Queue α :=
  { q with
    data := Function.update q.data q.nextwrite x
    nextwrite := (q.nextwrite + 1) % q.size }

/-- The doubling loop of `q_grow`. -/
def growSize (targetsize : Nat) : Nat → Nat → Nat
  | 0, nsize => nsize
  | n + 1, nsize => if nsize < targetsize then growSize targetsize n (nsize * 2) else nsize

/-- The copying loop of `q_grow` from slot `i` of the old buffer on. A full new buffer would have
`q_grow` call itself; the new one has room for all. -/
def copyTo : Nat → Nat → Queue α → Except Crash (Queue α)
  | 0, i, new => if i = q.nextwrite then .ok new else .error .hang
  | n + 1, i, new =>
    if i = q.nextwrite then .ok new
    else if new.full then .error .assertion
    else copyTo n ((i + 1) % q.size) (new.put (q.data i))

def qGrow (targetsize : Nat) (mem : Bool) : Except Crash (Option (Queue α)) :=
  if mem then some <$> q.copyTo q.size q.nextread (qCreate (growSize targetsize targetsize q.size))
  else .ok none

def qPreallocate (size : Nat) (mem : Bool) : Except Crash (Option (Queue α)) :=
  if q.size = 0 then .error .assertion
  else if q.size < size then q.qGrow size mem
  else .ok (some q)

def qAddtail (x : α) (mem : Bool) : Except Crash (Option (Queue α)) :=
  if q.size = 0 then .error .assertion
  else if q.full then Option.map (fun q => q.put (some x)) <$> q.qGrow (q.size + 1) mem
  else .ok (some (q.put (some x)))

def qRemhead : Except Crash (α × Queue α) :=
  if q.size = 0 ∨ q.qEmpty then .error .assertion
  else
    match q.data q.nextread with
    | some x => .ok (x, { q with nextread := (q.nextread + 1) % q.size })
    | none => .error .badPointer

def qGetstart : Nat := q.nextread

def qGetguy (index : Nat) : Except Crash (Option α) :=
  if index < q.size then .ok (q.data index) else .error .assertion

/-- The queue has the members of the list, in order. -/
structure Holds (q : Queue α) (l : List α) : Prop where
  read_lt : q.nextread < q.size
  room : l.length < q.size
  write : q.nextwrite = (q.nextread + l.length) % q.size
  item : ∀ k, k < l.length → q.data ((q.nextread + k) % q.size) = l[k]?

variable {q} {q' : Queue α} {l : List α} {x : α} {m n size : Nat} {mem : Bool}

/-- Positions less than a round apart are different slots. -/
theorem slot_inj {r j k size : Nat} (hj : j < size) (hk : k < size)
    (h : (r + j) % size = (r + k) % size) : j = k := by
  have hmod : j ≡ k [MOD size] := Nat.ModEq.add_left_cancel' r h
  rwa [Nat.ModEq, Nat.mod_eq_of_lt hj, Nat.mod_eq_of_lt hk] at hmod

theorem holds_qCreate (h : 0 < size) : (qCreate size : Queue α).Holds [] :=
  ⟨h, h, (Nat.zero_mod size).symm, by simp⟩

section
variable (h : q.Holds l)
include h

theorem Holds.empty_iff : q.qEmpty = true ↔ l = [] := by
  rw [qEmpty, beq_iff_eq, h.write, ← List.length_eq_zero_iff]
  constructor
  · intro heq
    refine slot_inj (r := q.nextread) h.room (Nat.zero_lt_of_lt h.read_lt) ?_
    rw [heq, Nat.add_zero, Nat.mod_eq_of_lt h.read_lt]
  · intro h0
    rw [h0, Nat.add_zero, Nat.mod_eq_of_lt h.read_lt]

theorem Holds.next_write : (q.nextwrite + 1) % q.size = (q.nextread + (l.length + 1)) % q.size := by
  rw [h.write, Nat.mod_add_mod, Nat.add_assoc]

/-- One slot stays empty. -/
theorem Holds.full_iff : q.full = true ↔ l.length + 1 = q.size := by
  have hpos := Nat.zero_lt_of_lt h.read_lt
  rw [full, beq_iff_eq, h.next_write]
  constructor
  · intro heq
    by_contra hne
    have hlt : l.length + 1 < q.size := by
      have := h.room
      omega
    have := slot_inj (r := q.nextread) hlt hpos
      (by rw [heq, Nat.add_zero, Nat.mod_eq_of_lt h.read_lt])
    omega
  · intro heq
    rw [heq, Nat.add_mod_right, Nat.mod_eq_of_lt h.read_lt]

theorem Holds.put (hroom : l.length + 1 < q.size) : (q.put (some x)).Holds (l ++ [x]) := by
  refine ⟨h.read_lt, by simpa [Queue.put] using hroom, ?_, ?_⟩
  · rw [List.length_append]
    exact h.next_write
  intro k hk
  rw [List.length_append, List.length_singleton] at hk
  simp only [Queue.put]
  by_cases hkl : k = l.length
  · subst hkl
    rw [← h.write, Function.update_self, List.getElem?_concat_length]
  have hlt : k < l.length := by omega
  rw [Function.update_of_ne, h.item k hlt, List.getElem?_append_left hlt]
  intro heq
  rw [h.write] at heq
  exact hkl (slot_inj (by omega) (by omega) heq)

omit h in
theorem growSize_le (hn : 0 < n) (hm : size ≤ n + m) : size ≤ growSize size m n := by
  induction m generalizing n with
  | zero => simpa [growSize] using hm
  | succ m ih =>
    rw [growSize]
    split
    · exact ih (by omega) (by omega)
    · omega

theorem Holds.copyTo {k : Nat} {new : Queue α} (hk : k ≤ l.length)
    (hfuel : l.length ≤ k + n) (hnew : new.Holds (l.take k)) (hsize : l.length < new.size) :
    ∃ new', q.copyTo n ((q.nextread + k) % q.size) new = .ok new' ∧ new'.Holds l ∧
      new'.size = new.size := by
  have hroom := h.room
  induction n generalizing k new with
  | zero =>
    obtain rfl : k = l.length := by omega
    rw [List.take_length] at hnew
    exact ⟨new, by rw [Queue.copyTo, ← h.write, if_pos rfl], hnew, rfl⟩
  | succ n ih =>
    by_cases hkl : k = l.length
    · subst hkl
      rw [List.take_length] at hnew
      exact ⟨new, by rw [Queue.copyTo, ← h.write, if_pos rfl], hnew, rfl⟩
    have hlt : k < l.length := by omega
    have hlen : (l.take k).length = k := by
      rw [List.length_take]
      omega
    have hne : (q.nextread + k) % q.size ≠ q.nextwrite := by
      intro heq
      rw [h.write] at heq
      exact hkl (slot_inj (by omega) (by omega) heq)
    have hnotfull : ¬ new.full = true := by
      rw [hnew.full_iff, hlen]
      omega
    obtain ⟨y, hy⟩ : ∃ y, l[k]? = some y := ⟨l[k], List.getElem?_eq_getElem hlt⟩
    have hnew' : (new.put (some y)).Holds (l.take (k + 1)) := by
      rw [List.take_add_one, hy]
      exact hnew.put (by omega)
    have hstep : ((q.nextread + k) % q.size + 1) % q.size = (q.nextread + (k + 1)) % q.size := by
      rw [Nat.mod_add_mod, Nat.add_assoc]
    obtain ⟨new', hrun, hholds, hsz⟩ := ih (k := k + 1) (by omega) (by omega) hnew' hsize
    refine ⟨new', ?_, hholds, hsz⟩
    rw [Queue.copyTo, if_neg hne, if_neg hnotfull, hstep, h.item k hlt, hy]
    exact hrun

theorem Holds.qGrow (hn : q.size ≤ n) :
    ∃ q', q.qGrow n true = .ok (some q') ∧ q'.Holds l ∧ n ≤ q'.size := by
  have hpos := Nat.zero_lt_of_lt h.read_lt
  have hroom := h.room
  have hgrow : n ≤ growSize n n q.size := growSize_le hpos (by omega)
  have hnew : (qCreate (growSize n n q.size) : Queue α).Holds (l.take 0) :=
    holds_qCreate (by omega)
  obtain ⟨q', hrun, hholds, hsz⟩ := h.copyTo (n := q.size) (Nat.zero_le _) (by omega) hnew
    (show l.length < growSize n n q.size by omega)
  rw [Nat.add_zero, Nat.mod_eq_of_lt h.read_lt] at hrun
  refine ⟨q', ?_, hholds, by rw [hsz]; exact hgrow⟩
  rw [Queue.qGrow, if_pos rfl, hrun]
  rfl

theorem Holds.qAddtail_room (hroom : l.length + 1 < q.size) (x : α) (mem : Bool) :
    q.qAddtail x mem = .ok (some (q.put (some x))) ∧ (q.put (some x)).Holds (l ++ [x]) := by
  refine ⟨?_, h.put hroom⟩
  rw [qAddtail, if_neg (by omega), if_neg]
  rw [h.full_iff]
  omega

theorem Holds.qAddtail_full (hfull : l.length + 1 = q.size) (x : α) :
    q.qAddtail x false = .ok none := by
  rw [qAddtail, if_neg (by omega), if_pos (h.full_iff.mpr hfull)]
  rfl

theorem Holds.qAddtail (x : α) (mem : Bool) :
    (∃ q', q.qAddtail x mem = .ok (some q') ∧ q'.Holds (l ++ [x]) ∧ q.size ≤ q'.size ∧
        (l.length + 1 < q.size → q'.size = q.size)) ∨
      mem = false ∧ l.length + 1 = q.size ∧ q.qAddtail x mem = .ok none := by
  by_cases hroom : l.length + 1 < q.size
  · obtain ⟨hrun, hholds⟩ := h.qAddtail_room hroom x mem
    exact .inl ⟨_, hrun, hholds, Nat.le_refl q.size, fun _ => rfl⟩
  have hfull : l.length + 1 = q.size := by
    have := h.room
    omega
  cases mem with
  | false => exact .inr ⟨rfl, hfull, h.qAddtail_full hfull x⟩
  | true =>
    obtain ⟨q', hrun, hholds, hsz⟩ := h.qGrow (Nat.le_succ q.size)
    have hle : q.size ≤ q'.size := by omega
    refine .inl ⟨q'.put (some x), ?_, hholds.put (by omega), hle, fun h => absurd h hroom⟩
    rw [Queue.qAddtail, if_neg (by omega), if_pos (h.full_iff.mpr hfull), hrun]
    rfl

theorem Holds.qPreallocate (n : Nat) (mem : Bool) :
    (∃ q', q.qPreallocate n mem = .ok (some q') ∧ q'.Holds l ∧ n ≤ q'.size ∧ q.size ≤ q'.size) ∨
      mem = false ∧ q.qPreallocate n mem = .ok none := by
  have hpos := Nat.zero_lt_of_lt h.read_lt
  rw [Queue.qPreallocate, if_neg (by omega)]
  by_cases hn : q.size < n
  · rw [if_pos hn]
    cases mem with
    | false => exact .inr ⟨rfl, rfl⟩
    | true =>
      obtain ⟨q', hrun, hholds, hsz⟩ := h.qGrow (Nat.le_of_lt hn)
      exact .inl ⟨q', hrun, hholds, hsz, by omega⟩
  · exact .inl ⟨q, if_neg hn, h, by omega, Nat.le_refl _⟩

end

theorem Holds.qRemhead (h : q.Holds (x :: l)) :
    ∃ q', q.qRemhead = .ok (x, q') ∧ q'.Holds l ∧ q'.size = q.size := by
  have hpos := Nat.zero_lt_of_lt h.read_lt
  have hroom := h.room
  have hne : ¬ (q.size = 0 ∨ q.qEmpty = true) := by
    rw [h.empty_iff]
    simp
    omega
  have hhead : q.data q.nextread = some x := by
    have := h.item 0 (by simp)
    rwa [Nat.add_zero, Nat.mod_eq_of_lt h.read_lt] at this
  have hadd : ∀ k, ((q.nextread + 1) % q.size + k) % q.size = (q.nextread + (k + 1)) % q.size := by
    intro k
    rw [Nat.mod_add_mod, Nat.add_assoc, Nat.add_comm 1 k]
  refine ⟨{ q with nextread := (q.nextread + 1) % q.size }, ?_, ⟨Nat.mod_lt _ hpos, ?_, ?_, ?_⟩,
    rfl⟩
  · rw [Queue.qRemhead, if_neg hne, hhead]
  · simp only [List.length_cons] at hroom
    show l.length < q.size
    omega
  · rw [hadd, h.write, List.length_cons]
  · intro k hk
    rw [hadd, h.item (k + 1) (by simpa using hk), List.getElem?_cons_succ]

theorem Holds.qRemhead_empty (h : q.Holds []) : q.qRemhead = .error .assertion := by
  rw [Queue.qRemhead, if_pos (.inr (h.empty_iff.mpr rfl))]

end Queue
end queue

/-- `struct array`: its members and how many its block has room for. -/
structure Arr (α : Type) where
  items : List α
  max : Nat

section array
variable {α : Type}

def arrayCreate : Arr α := ⟨[], 0⟩

namespace Arr
variable (a : Arr α)

/-- The loop of `array_preallocate`. -/
def growMax (nguys : Nat) : Nat → Nat → Nat
  | 0, newmax => newmax
  | n + 1, newmax => if newmax < nguys then growMax nguys n ((newmax + 1) * 2) else newmax

/-- `array_preallocate`, which takes a new block in every case. -/
def arrayPreallocate (nguys : Nat) (mem : Bool) : Except Crash (Option (Arr α)) :=
  if a.items.length ≤ a.max then
    if mem then .ok (some { a with max := growMax nguys nguys a.max }) else .ok none
  else .error .assertion

/-- `array_setsize`; the members it adds are not there before `array_add` writes them. -/
def arraySetsize (nguys : Nat) (mem : Bool) : Except Crash (Option (Arr α)) :=
  if a.items.length ≤ a.max then
    if a.max < nguys then
      Option.map (fun a => { a with items := a.items.take nguys }) <$> a.arrayPreallocate nguys mem
    else if nguys = 0 ∧ 16 < a.max then .ok (some ⟨[], 0⟩)
    else .ok (some { a with items := a.items.take nguys })
  else .error .assertion

def arrayAdd (guy : α) (mem : Bool) : Except Crash (Option (Arr α)) :=
  Option.map (fun a => { a with items := a.items ++ [guy] }) <$>
    a.arraySetsize (a.items.length + 1) mem

def arrayRemove (index : Nat) : Except Crash (Arr α) :=
  if a.items.length ≤ a.max ∧ index < a.items.length then
    .ok { a with items := a.items.eraseIdx index }
  else .error .assertion

variable {a} {x : α} {k m n : Nat} {mem : Bool}

theorem growMax_le (hm : n ≤ m + k) : n ≤ growMax n k m ∧ m ≤ growMax n k m := by
  induction k generalizing m with
  | zero => simpa [growMax] using hm
  | succ k ih =>
    rw [growMax]
    split
    · have := ih (m := (m + 1) * 2) (by omega)
      omega
    · omega

theorem arrayPreallocate_cases (h : a.items.length ≤ a.max) (n : Nat) (mem : Bool) :
    a.arrayPreallocate n mem = .ok (some { a with max := growMax n n a.max }) ∨
      mem = false ∧ a.arrayPreallocate n mem = .ok none := by
  rw [arrayPreallocate, if_pos h]
  cases mem with
  | false => exact .inr ⟨rfl, rfl⟩
  | true => exact .inl rfl

/-- Where there is room nothing is allocated. -/
theorem arrayAdd_room (h : a.items.length < a.max) (x : α) (mem : Bool) :
    a.arrayAdd x mem = .ok (some { a with items := a.items ++ [x] }) := by
  rw [arrayAdd, arraySetsize, if_pos (Nat.le_of_lt h), if_neg (by omega), if_neg (by omega),
    List.take_of_length_le (Nat.le_succ _)]
  rfl

theorem arrayAdd_cases (h : a.items.length ≤ a.max) (x : α) (mem : Bool) :
    (∃ k, a.arrayAdd x mem = .ok (some ⟨a.items ++ [x], k⟩) ∧ a.items.length + 1 ≤ k ∧
        (a.items.length < a.max → k = a.max)) ∨
      mem = false ∧ a.items.length = a.max ∧ a.arrayAdd x mem = .ok none := by
  by_cases hroom : a.items.length < a.max
  · exact .inl ⟨a.max, arrayAdd_room hroom x mem, hroom, fun _ => rfl⟩
  have hfull : a.items.length = a.max := by omega
  rcases arrayPreallocate_cases h (a.items.length + 1) mem with hrun | ⟨hmem, hrun⟩
  · refine .inl ⟨_, ?_, (growMax_le (k := a.items.length + 1) (m := a.max) (by omega)).1,
      fun h => absurd h hroom⟩
    rw [arrayAdd, arraySetsize, if_pos h, if_pos (by omega), hrun]
    simp [List.take_of_length_le]
  · refine .inr ⟨hmem, hfull, ?_⟩
    rw [arrayAdd, arraySetsize, if_pos h, if_pos (by omega), hrun]
    rfl

theorem items_arrayAdd {a' : Arr α} (h : a.arrayAdd x mem = .ok (some a')) :
    a'.items = a.items ++ [x] := by
  by_cases hok : a.items.length ≤ a.max
  · rcases arrayAdd_cases hok x mem with ⟨k, hrun, -⟩ | ⟨-, -, hrun⟩
    · cases h.symm.trans hrun
      rfl
    · cases h.symm.trans hrun
  · rw [arrayAdd, arraySetsize, if_neg hok] at h
    cases h

/-- Emptying an array with more than 16 places gives its block back. -/
theorem arraySetsize_zero (h : a.items.length ≤ a.max) (mem : Bool) :
    a.arraySetsize 0 mem = .ok (some ⟨[], if 16 < a.max then 0 else a.max⟩) := by
  rw [arraySetsize, if_pos h, if_neg (Nat.not_lt_zero _)]
  by_cases hmax : 16 < a.max
  · rw [if_pos ⟨rfl, hmax⟩, if_pos hmax]
  · rw [if_neg (by omega), if_neg hmax]
    rfl

theorem items_arraySetsize_zero {a' : Arr α} (h : a.arraySetsize 0 mem = .ok (some a')) :
    a'.items = [] := by
  by_cases hok : a.items.length ≤ a.max
  · cases h.symm.trans (arraySetsize_zero hok mem)
    rfl
  · rw [arraySetsize, if_neg hok] at h
    cases h

end Arr
end array

end OS161
