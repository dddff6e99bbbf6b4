import OS161.Thread.Hashtable

/-! The slot `ht_add_element` takes: the loop looks at a slot before it looks at the offset. -/
namespace OS161

/-- What `ht_add_element` leaves in the slot it has found. -/
def AddMem.leaves {α : Type} (key : List Byte) (ptr : α) : AddMem α → Slot α
  | .noEntry => .null
  | .noKey found => .entry none found
  | .enough => .entry (some key) ptr

/-- What it returns then. -/
def AddMem.returns {α : Type} (i : Nat) : AddMem α → Option Nat
  | .enough => some i
  | _ => none

namespace Hashtable

variable {α : Type} {ht ht' : Hashtable α} {key : List Byte} {ptr : α} {mem : AddMem α}
  {index n offset i : Nat}

/-- Where the probing for a key begins. -/
def home (ht : Hashtable α) (key : List Byte) : Nat := (hashfunction key).toNat % ht.size

/-- The slot at some offset. -/
def slotAt (ht : Hashtable α) (index offset : Nat) : Slot α :=
  ht.table ((index + offset) % ht.size)

/-- The loop of `ht_add_element` as it is written, from an offset on; `none` if it takes more
turns. -/
def addLoop (ht : Hashtable α) (index : Nat) : Nat → Nat → Option Nat
  | 0, _ => none
  | fuel + 1, offset =>
    if (ht.slotAt index offset).isFree = false ∧ offset ≠ ht.size then
      addLoop ht index fuel (offset + 1)
    else some offset

/-- The offset at which the loop ends. -/
structure Ends (ht : Hashtable α) (index offset : Nat) : Prop where
  le : offset ≤ ht.size
  taken : ∀ j < offset, (ht.slotAt index j).isFree = false
  free : offset ≠ ht.size → (ht.slotAt index offset).isFree = true

/-- The loop ends, and the slot it ends at is the one that `probe` finds. -/
theorem addLoop_ends (ht : Hashtable α) (index offset n : Nat) (hn : offset + n = ht.size)
    (htaken : ∀ j < offset, (ht.slotAt index j).isFree = false) :
    ∃ o, ht.addLoop index (n + 1) offset = some o ∧ ht.Ends index o ∧
      ht.probe index n offset = if o = ht.size then none else some ((index + o) % ht.size) := by
  induction n generalizing offset with
  | zero =>
    obtain rfl : offset = ht.size := by omega
    refine ⟨ht.size, ?_, ⟨Nat.le_refl _, htaken, fun hne => absurd rfl hne⟩, ?_⟩
    · rw [addLoop, if_neg fun h => h.2 rfl]
    · rw [probe, if_pos rfl]
  | succ n ih =>
    have hne : offset ≠ ht.size := by omega
    by_cases hfree : (ht.slotAt index offset).isFree = true
    · refine ⟨offset, ?_, ⟨by omega, htaken, fun _ => hfree⟩, ?_⟩
      · rw [addLoop, if_neg]
        rintro ⟨hf, -⟩
        rw [hfree] at hf
        cases hf
      · rw [probe, ← slotAt, if_pos hfree, if_neg hne]
    · rw [Bool.not_eq_true] at hfree
      obtain ⟨o, hloop, hends, hprobe⟩ := @ih (offset + 1) (by omega) fun j hj => by
        rcases Nat.lt_succ_iff_lt_or_eq.mp hj with hlt | rfl
        · exact htaken j hlt
        · exact hfree
      refine ⟨o, ?_, hends, ?_⟩
      · rw [addLoop, if_pos ⟨hfree, hne⟩]
        exact hloop
      · rw [probe, ← slotAt, if_neg (by rw [hfree]; decide)]
        exact hprobe

/-- From any slot on, the offsets below the size reach every slot. -/
theorem exists_offset (hindex : index < ht.size) (hi : i < ht.size) :
    ∃ o < ht.size, (index + o) % ht.size = i := by
  by_cases hle : index ≤ i
  · refine ⟨i - index, by omega, ?_⟩
    rw [Nat.add_sub_cancel' hle, Nat.mod_eq_of_lt hi]
  · refine ⟨i + ht.size - index, by omega, ?_⟩
    rw [Nat.add_sub_cancel' (by omega), Nat.add_mod_right, Nat.mod_eq_of_lt hi]

/-- The loop ends after a whole turn exactly if no slot is free. -/
theorem Ends.eq_size_iff (h : ht.Ends index offset) (hindex : index < ht.size) :
    offset = ht.size ↔ ∀ i < ht.size, (ht.table i).isFree = false := by
  constructor
  · rintro rfl i hi
    obtain ⟨o, ho, rfl⟩ := exists_offset hindex hi
    exact h.taken o ho
  intro hfull
  by_contra hne
  have hfree := h.free hne
  rw [slotAt, hfull _ (Nat.mod_lt _ (by omega))] at hfree
  cases hfree

/-- What `ht_add_element` does, by the offset at which its loop ends. -/
theorem htAddElement_ends (ht : Hashtable α) (key : List Byte) (ptr : α) (mem : AddMem α) :
    ∃ o, (∃ fuel, ht.addLoop (ht.home key) fuel 0 = some o) ∧ ht.Ends (ht.home key) o ∧
      ht.htAddElement key ptr mem = if o = ht.size then (none, ht) else
        (mem.returns ((ht.home key + o) % ht.size),
          ht.set ((ht.home key + o) % ht.size) (mem.leaves key ptr)) := by
  obtain ⟨o, hloop, hends, hprobe⟩ := addLoop_ends ht (ht.home key) 0 ht.size (Nat.zero_add _)
    fun j hj => absurd hj (Nat.not_lt_zero j)
  refine ⟨o, ⟨_, hloop⟩, hends, ?_⟩
  rw [home] at hprobe
  rw [htAddElement, hprobe]
  split
  · rename_i hnone
    split at hnone
    · rename_i ho
      rw [if_pos ho]
    · cases hnone
  · rename_i index hsome
    split at hsome
    · cases hsome
    rename_i ho
    cases hsome
    rw [if_neg ho]
    cases mem <;> rfl

/-- The call is exact: it ends, takes a free slot and nothing else, changes nothing if it fails,
and with memory fails only if no slot is free. -/
structure ExactAdd (ht : Hashtable α) (key : List Byte) (ptr : α) (mem : AddMem α) : Prop where
  ends : ∃ fuel o, ht.addLoop (ht.home key) fuel 0 = some o
  found : ∀ i ht', ht.htAddElement key ptr mem = (some i, ht') →
    i < ht.size ∧ (ht.table i).isFree = true ∧ ht'.size = ht.size ∧
      ∀ j ≠ i, ht'.table j = ht.table j
  failed : ∀ ht', ht.htAddElement key ptr mem = (none, ht') → ht' = ht
  full : mem = .enough → ((ht.htAddElement key ptr mem).1 = none ↔
    ∀ i < ht.size, (ht.table i).isFree = false)

/-- The first slot in the order of probing that is NULL or deleted is NULL. -/
def FirstFreeNull (ht : Hashtable α) (key : List Byte) : Prop :=
  ∃ o < ht.size, (∀ j < o, (ht.slotAt (ht.home key) j).isFree = false) ∧
    ht.slotAt (ht.home key) o = .null

theorem Ends.firstFreeNull_iff (h : ht.Ends (ht.home key) offset) (hne : offset ≠ ht.size) :
    ht.FirstFreeNull key ↔ ht.slotAt (ht.home key) offset = .null := by
  constructor
  · rintro ⟨o, ho, htaken, hnull⟩
    rcases Nat.lt_trichotomy o offset with hlt | rfl | hgt
    · have := h.taken o hlt
      rw [hnull] at this
      cases this
    · exact hnull
    have := htaken offset hgt
    rw [h.free hne] at this
    cases this
  · intro hnull
    exact ⟨offset, Nat.lt_of_le_of_ne h.le hne, h.taken, hnull⟩

theorem set_eq_self_iff {x : Slot α} : ht.set i x = ht ↔ ht.table i = x := by
  constructor
  · intro heq
    rw [← heq]
    exact Function.update_self ..
  · rintro rfl
    rw [Hashtable.set, Function.update_eq_self]

/-- `ht_add_element` is exact unless an allocation fails after the slot was found: without memory
for the entry a deleted slot becomes NULL, without memory for the key the entry stays. -/
theorem ht_add_element_exact_iff (ht : Hashtable α) (key : List Byte) (ptr : α) (mem : AddMem α)
    (hsize : 0 < ht.size) :
    ht.ExactAdd key ptr mem ↔
      mem = .enough ∨ (∀ i < ht.size, (ht.table i).isFree = false) ∨
        mem = .noEntry ∧ ht.FirstFreeNull key := by
  obtain ⟨o, ⟨fuel, hloop⟩, hends, hadd⟩ := htAddElement_ends ht key ptr mem
  have hfull := hends.eq_size_iff (Nat.mod_lt _ hsize)
  by_cases ho : o = ht.size
  · -- no slot was found
    rw [if_pos ho] at hadd
    refine ⟨fun _ => .inr (.inl (hfull.mp ho)), fun _ => ⟨⟨fuel, o, hloop⟩, ?_, ?_, ?_⟩⟩
    · intro i ht' heq
      rw [hadd] at heq
      cases heq
    · intro ht' heq
      rw [hadd] at heq
      cases heq
      rfl
    · intro _
      rw [hadd]
      exact ⟨fun _ => hfull.mp ho, fun _ => rfl⟩
  · rw [if_neg ho] at hadd
    have hfree := hends.free ho
    have hnot : ¬ ∀ i < ht.size, (ht.table i).isFree = false := fun h => ho (hfull.mpr h)
    have hlt : (ht.home key + o) % ht.size < ht.size := Nat.mod_lt _ hsize
    cases mem with
    | enough =>
      refine ⟨fun _ => .inl rfl, fun _ => ⟨⟨fuel, o, hloop⟩, ?_, ?_, ?_⟩⟩
      · intro i ht' heq
        rw [hadd] at heq
        cases heq
        exact ⟨hlt, hfree, rfl, fun j hj => Function.update_of_ne hj _ _⟩
      · intro ht' heq
        rw [hadd] at heq
        cases heq
      · intro _
        rw [hadd]
        exact ⟨fun h => absurd h (by simp [AddMem.returns]), fun h => absurd h hnot⟩
    | noEntry =>
      have hunchanged : ht.ExactAdd key ptr .noEntry ↔
          ht.slotAt (ht.home key) o = .null := by
        constructor
        · intro h
          exact set_eq_self_iff.mp (h.failed _ hadd)
        intro hnull
        refine ⟨⟨fuel, o, hloop⟩, ?_, ?_, fun h => by cases h⟩
        · intro i ht' heq
          rw [hadd] at heq
          cases heq
        · intro ht' heq
          rw [hadd] at heq
          cases heq
          exact set_eq_self_iff.mpr hnull
      rw [hunchanged, ← hends.firstFreeNull_iff ho]
      constructor
      · intro h
        exact .inr (.inr ⟨rfl, h⟩)
      rintro (h | h | ⟨-, h⟩)
      · cases h
      · exact absurd h hnot
      · exact h
    | noKey found =>
      constructor
      · intro h
        have hslot := set_eq_self_iff.mp (h.failed _ hadd)
        rw [slotAt, hslot] at hfree
        cases hfree
      · rintro (h | h | ⟨h, -⟩)
        · cases h
        · exact absurd h hnot
        · cases h

/-- A table of one slot, which is deleted. -/
def oneDeleted : Hashtable Nat := ⟨1, fun _ => .deleted, none⟩

theorem ht_add_element_exact_deleted : 0 < oneDeleted.size ∧ oneDeleted.ExactAdd [97#8] 7 .enough :=
  ⟨by decide, (ht_add_element_exact_iff oneDeleted [97#8] 7 .enough (by decide)).mpr (.inl rfl)⟩

/-- Without memory for the entry the call fails, and the slot is NULL instead of deleted. -/
theorem ht_add_element_not_exact :
    oneDeleted.htAddElement [97#8] 7 .noEntry = (none, oneDeleted.set 0 .null) ∧
      oneDeleted.table 0 = .deleted ∧ ¬ oneDeleted.ExactAdd [97#8] 7 .noEntry := by
  have hadd : oneDeleted.htAddElement [97#8] 7 .noEntry = (none, oneDeleted.set 0 .null) := rfl
  refine ⟨hadd, rfl, fun h => ?_⟩
  have hslot := set_eq_self_iff.mp (h.failed _ hadd)
  cases hslot

end Hashtable

end OS161
