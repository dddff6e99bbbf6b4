import OS161.Lib.Run
import OS161.Thread.Probing

/-! The hash table as a map. The lookups take the hash as an `int` and do not reduce it. -/
namespace OS161

open Function (update update_self update_of_ne)

/-- What the fields of `ht->deleted` were left with, and the key of `ht->reserved`: nothing ever
sets them. A key that is `none` is a pointer that cannot be read. -/
structure Dummies (α : Type) where
  deletedKey : Option (List Byte)
  deletedEntry : Option α
  reservedKey : Option (List Byte)

variable {α : Type}

def Slot.isNull : Slot α → Bool
  | .null => true
  | _ => false

/-- `int` arithmetic wraps. -/
def intAdd (x : Int) (n : Nat) : Int := (x + n).bmod (2 ^ 32)

/-- `int index = hashfunction(key)`. -/
def intIndex (key : List Byte) : Int := (hashfunction key).toInt

namespace Hashtable
variable {α : Type} (ht : Hashtable α) (d : Dummies α) (key : List Byte)

/-- `ht->table[i]`. -/
def tableAt (i : Int) : Except Crash (Slot α) :=
  if 0 ≤ i ∧ i < ht.size then .ok (ht.table i.toNat) else .error .outOfBounds

/-- The string that `key` of a slot points to. -/
def keyOf : Slot α → Except Crash (List Byte)
  | .null => .error .nullDeref
  | .deleted => d.deletedKey.elim (.error .badPointer) .ok
  | .reserved => d.reservedKey.elim (.error .badPointer) .ok
  | .entry key _ => key.elim (.error .nullDeref) .ok

def entryOf : Slot α → Except Crash (Option α)
  | .null => .error .nullDeref
  | .deleted => .ok d.deletedEntry
  | .reserved => .ok ht.reservedEntry
  | .entry _ ptr => .ok (some ptr)

/-- The calls of `kfree` for a slot. The dummies are not on the heap. -/
def freeSlot : Slot α → Except Crash Unit
  | .entry _ _ => .ok ()
  | .null => .error .nullDeref
  | _ => .error .badPointer

/-- The first two tests of the loop: the slot is not NULL, and `strcmp` tells the keys apart. -/
def keepsLooking (offset : Nat) : Except Crash Bool := do
  let slot ← ht.tableAt ((intAdd (intIndex key) offset).tmod ht.size)
  if slot.isNull then return false
  let k ← keyOf d slot
  return k ≠ key

/-- The loop of the two functions by key, with `n` turns left before the offset is the size, which
is the last of its tests. -/
def findLoop : Nat → Nat → Except Crash Nat
  | 0, offset => do
    let _ ← ht.keepsLooking d key offset
    return offset
  | n + 1, offset => do
    if ← ht.keepsLooking d key offset then findLoop n (offset + 1) else return offset

/-- The index with which the two functions go on, and `none` if there is no such key. -/
def findKey : Except Crash (Option Int) := do
  let offset ← ht.findLoop d key ht.size 0
  if offset = ht.size then return none
  let slot ← ht.tableAt ((intAdd (intIndex key) offset).tmod ht.size)
  if slot.isNull then return none
  return some (intAdd (intIndex key) offset)

def htRetrieveElementByKey : Except Crash (Option α) := do
  match ← ht.findKey d key with
  | none => return none
  | some index => ht.entryOf d (← ht.tableAt index)

/-- `ht_delete_element_by_key`; `false` is -1. What `destroy` frees is not part of the table. -/
def htDeleteElementByKey : Except Crash (Bool × Hashtable α) := do
  match ← ht.findKey d key with
  | none => return (false, ht)
  | some index => do
    freeSlot (← ht.tableAt index)
    return (true, ht.set index.toNat .deleted)

def htDeleteElementByIndex (index : Int) : Except Crash (Bool × Hashtable α) :=
  if index < ht.size ∧ 0 < index then do
    let slot ← ht.tableAt index
    if slot.isFree then return (false, ht)
    freeSlot slot
    return (true, ht.set index.toNat .deleted)
  else .error .assertion

/-- A search for the key that meets nothing but entries with other keys before it ends, and that
finds the key, if it does, without having gone around the table. -/
structure Clear (o : Nat) : Prop where
  le : o ≤ ht.size
  small : (hashfunction key).toNat + o < 2 ^ 31
  before : ∀ j < o, ∃ k x, ht.slotAt (hashfunction key).toNat j = .entry (some k) x ∧ k ≠ key
  stop : o = ht.size ∨ ht.slotAt (hashfunction key).toNat o = .null ∨
    ∃ x, ht.slotAt (hashfunction key).toNat o = .entry (some key) x ∧
      (hashfunction key).toNat + o < ht.size

variable {ht d key} {o n offset : Nat}

theorem intAdd_index (h : (hashfunction key).toNat + o < 2 ^ 31) :
    intAdd (intIndex key) o = ((hashfunction key).toNat + o : Nat) := by
  have hint : (hashfunction key).toInt = (hashfunction key).toNat := by
    rw [BitVec.toInt_eq_toNat_of_lt]
    omega
  rw [intAdd, intIndex, hint]
  rw [Int.bmod_eq_of_le (by omega) (by omega)]
  rfl

theorem tableAt_ofNat {i : Nat} (hi : i < ht.size) : ht.tableAt i = .ok (ht.table i) := by
  rw [tableAt, if_pos ⟨by omega, by omega⟩]
  rfl

/-- Inside the search the index is the one of `ht_add_element`. -/
theorem tableAt_search (hsize : 0 < ht.size) (h : (hashfunction key).toNat + o < 2 ^ 31) :
    ht.tableAt ((intAdd (intIndex key) o).tmod ht.size) =
      .ok (ht.slotAt (hashfunction key).toNat o) := by
  rw [intAdd_index h, ← Int.ofNat_tmod, tableAt_ofNat (Nat.mod_lt _ hsize)]
  rfl

section search
variable (hsize : 0 < ht.size)
include hsize

theorem keepsLooking_entry {k : List Byte} {x : α} (h : (hashfunction key).toNat + o < 2 ^ 31)
    (hs : ht.slotAt (hashfunction key).toNat o = .entry (some k) x) :
    ht.keepsLooking d key o = .ok (decide (k ≠ key)) := by
  rw [keepsLooking, tableAt_search hsize h, hs]
  rfl

theorem keepsLooking_null (h : (hashfunction key).toNat + o < 2 ^ 31)
    (hs : ht.slotAt (hashfunction key).toNat o = .null) : ht.keepsLooking d key o = .ok false := by
  rw [keepsLooking, tableAt_search hsize h, hs]
  rfl

theorem Clear.findLoop_eq (h : ht.Clear key o) (hn : offset + n = ht.size) (ho : offset ≤ o) :
    ht.findLoop d key n offset = .ok o := by
  have hsmall := h.small
  induction n generalizing offset with
  | zero =>
    have hle := h.le
    obtain rfl : o = ht.size := by omega
    obtain rfl : offset = ht.size := by omega
    -- the slot that is looked at once more is the first one
    obtain ⟨k, x, hs, hk⟩ := h.before 0 hsize
    have hturn : ht.slotAt (hashfunction key).toNat ht.size = .entry (some k) x := by
      rw [← hs, slotAt, slotAt, Nat.add_mod_right, Nat.add_zero]
    rw [findLoop, keepsLooking_entry hsize hsmall hturn]
    rfl
  | succ n ih =>
    rcases Nat.lt_or_eq_of_le ho with hlt | rfl
    · obtain ⟨k, x, hs, hk⟩ := h.before offset hlt
      rw [findLoop, keepsLooking_entry hsize (by omega) hs, decide_eq_true hk]
      exact ih (by omega) hlt
    rcases h.stop with hfull | hnull | ⟨x, hs, -⟩
    · omega
    · rw [findLoop, keepsLooking_null hsize hsmall hnull]
      rfl
    · rw [findLoop, keepsLooking_entry hsize hsmall hs, decide_eq_false (not_not.mpr rfl)]
      rfl

theorem Clear.findKey_cases (h : ht.Clear key o) :
    ((o = ht.size ∨ ht.slotAt (hashfunction key).toNat o = .null) ∧
      ht.findKey d key = .ok none) ∨
    ∃ x, ht.table ((hashfunction key).toNat + o) = .entry (some key) x ∧
      (hashfunction key).toNat + o < ht.size ∧
      ht.findKey d key = .ok (some ((hashfunction key).toNat + o : Nat)) := by
  have hloop := h.findLoop_eq (d := d) hsize (Nat.zero_add _) (Nat.zero_le _)
  by_cases hfull : o = ht.size
  · refine .inl ⟨.inl hfull, ?_⟩
    simp only [findKey, hloop, bind, Except.bind, if_pos hfull]
    rfl
  rcases h.stop with ho | hnull | ⟨x, hs, hlt⟩
  · exact absurd ho hfull
  · refine .inl ⟨.inr hnull, ?_⟩
    simp only [findKey, hloop, bind, Except.bind, if_neg hfull, tableAt_search hsize h.small,
      hnull]
    rfl
  refine .inr ⟨x, ?_, hlt, ?_⟩
  · rw [← hs, slotAt, Nat.mod_eq_of_lt hlt]
  simp only [findKey, hloop, bind, Except.bind, if_neg hfull, tableAt_search hsize h.small,
    hs]
  rw [intAdd_index h.small]
  rfl

end search

end Hashtable

/-- The calls that change the table, with what they return. -/
inductive HtEvent (α : Type) where
  | added (key : List Byte) (ptr : α) (index : Option Nat)
  | deletedKey (key : List Byte) (found : Bool)
  | deletedIndex (index : Int) (found : Bool)

/-- The calls on a table, with allocations that succeed. -/
inductive HtStep {α : Type} (d : Dummies α) : Hashtable α → HtEvent α → Hashtable α → Prop where
  | add {ht ht' : Hashtable α} {key : List Byte} {ptr : α} {index : Option Nat}
      (h : ht.htAddElement key ptr .enough = (index, ht')) : HtStep d ht (.added key ptr index) ht'
  | deleteKey {ht ht' : Hashtable α} {key : List Byte} {found : Bool}
      (h : ht.htDeleteElementByKey d key = .ok (found, ht')) :
    HtStep d ht (.deletedKey key found) ht'
  | deleteIndex {ht ht' : Hashtable α} {index : Int} {found : Bool}
      (h : ht.htDeleteElementByIndex index = .ok (found, ht')) :
    HtStep d ht (.deletedIndex index found) ht'

/-- A pair that was added, with the index that was returned. -/
structure Pair (α : Type) where
  key : List Byte
  ptr : α
  index : Nat

/-- The pairs that have not been deleted since. -/
def liveAfter (l : List (Pair α)) : HtEvent α → List (Pair α)
  | .added key ptr (some i) => ⟨key, ptr, i⟩ :: l
  | .added _ _ none => l
  | .deletedKey key _ => l.filter fun p => p.key ≠ key
  | .deletedIndex i _ => l.filter fun p => (p.index : Int) ≠ i

def live (es : List (HtEvent α)) : List (Pair α) := es.foldl liveAfter []

/-- What was stored for the key. -/
def stored (l : List (Pair α)) (key : List Byte) : Option α :=
  (l.find? fun p => p.key = key).map Pair.ptr

namespace Hashtable
variable {α : Type} {ht ht' : Hashtable α} {d : Dummies α} {key k : List Byte} {ptr x : α}
  {l : List (Pair α)} {o i : Nat}

/-- The key is in none of the slots. -/
def Absent (ht : Hashtable α) (key : List Byte) : Prop :=
  ∀ i < ht.size, ∀ x, ht.table i ≠ .entry (some key) x

/-- The calls that do not run into the faults of the search or the assertion on the index. -/
def Meets (ht : Hashtable α) : HtEvent α → Prop
  | .added key _ _ => ht.Absent key
  | .deletedKey key _ => ∃ o, ht.Clear key o
  | .deletedIndex i _ => 0 < i ∧ i < ht.size

/-- The table holds exactly these pairs, each with no NULL between its home and its slot. -/
structure Holds (ht : Hashtable α) (l : List (Pair α)) : Prop where
  size : 0 < ht.size
  slots : ∀ i < ht.size, ht.table i = .null ∨ ht.table i = .deleted ∨
    ∃ p ∈ l, p.index = i ∧ ht.table i = .entry (some p.key) p.ptr
  pairs : ∀ p ∈ l, p.index < ht.size ∧ ht.table p.index = .entry (some p.key) p.ptr ∧
    ∃ o < ht.size, (ht.home p.key + o) % ht.size = p.index ∧
      ∀ j < o, ht.slotAt (ht.home p.key) j ≠ .null
  keys : ∀ p ∈ l, ∀ q ∈ l, p.key = q.key → p.index = q.index

variable {size : Nat} {found : Option α}

theorem Holds.create (hsize : 0 < size) : (htCreate size found).Holds [] :=
  ⟨hsize, fun _ _ => .inl rfl, fun _ hp => absurd hp List.not_mem_nil,
    fun _ hp => absurd hp List.not_mem_nil⟩

section
variable (h : ht.Holds l)
include h

variable {l' : List (Pair α)} {p q : Pair α}

theorem Holds.eq_of_key (hp : p ∈ l) (hq : q ∈ l) (hk : p.key = q.key) : p = q := by
  have hi := h.keys p hp q hq hk
  have htp := (h.pairs p hp).2.1
  rw [hi, (h.pairs q hq).2.1] at htp
  obtain ⟨pk, px, pi⟩ := p
  obtain ⟨qk, qx, qi⟩ := q
  simp only [Slot.entry.injEq] at htp
  simp only [Pair.mk.injEq]
  exact ⟨hk, htp.2.symm, hi⟩

theorem Holds.stored_eq (hp : p ∈ l) : stored l p.key = some p.ptr := by
  rw [stored]
  cases hf : l.find? fun q => decide (q.key = p.key) with
  | none =>
    have := List.find?_eq_none.mp hf p hp
    simp at this
  | some q =>
    have hq : q.key = p.key := by simpa using List.find?_some hf
    rw [h.eq_of_key (List.mem_of_find?_eq_some hf) hp hq]
    rfl

omit h in
theorem stored_none (h : ∀ p ∈ l, p.key ≠ key) : stored l key = none := by
  rw [stored, List.find?_eq_none.mpr]
  · rfl
  · intro p hp
    simpa using h p hp

theorem Holds.of_entry (hi : i < ht.size)
    (hs : ht.table i = .entry (some key) x) : ∃ p ∈ l, p.key = key ∧ p.ptr = x ∧ p.index = i := by
  rcases h.slots i hi with hn | hd | ⟨p, hp, hpi, hpe⟩
  · rw [hs] at hn
    cases hn
  · rw [hs] at hd
    cases hd
  · rw [hs] at hpe
    cases hpe
    exact ⟨p, hp, rfl, rfl, hpi⟩

omit h in
theorem slotAt_home : ht.slotAt (ht.home key) o = ht.slotAt (hashfunction key).toNat o := by
  rw [slotAt, slotAt, home, Nat.mod_add_mod]

theorem Holds.not_found (hclear : ht.Clear key o)
    (hstop : o = ht.size ∨ ht.slotAt (hashfunction key).toNat o = .null) :
    ∀ p ∈ l, p.key ≠ key := by
  rintro p hp rfl
  obtain ⟨hlt, hs, j, hj, hij, hpath⟩ := h.pairs p hp
  have hsj : ht.slotAt (hashfunction p.key).toNat j = .entry (some p.key) p.ptr := by
    rw [← slotAt_home, slotAt, hij, hs]
  by_cases hjo : j < o
  · obtain ⟨k, x, hk, hne⟩ := hclear.before j hjo
    rw [hsj] at hk
    cases hk
    exact hne rfl
  rcases hstop with rfl | hnull
  · exact hjo hj
  rcases Nat.lt_or_eq_of_le (Nat.not_lt.mp hjo) with hlt' | rfl
  · exact hpath o hlt' (by rw [slotAt_home, hnull])
  · rw [hsj] at hnull
    cases hnull

/-- What the two functions by key do after a clear search. -/
theorem Holds.search (hclear : ht.Clear key o) :
    ht.htRetrieveElementByKey d key = .ok (stored l key) ∧
      ((stored l key = none ∧ ht.htDeleteElementByKey d key = .ok (false, ht)) ∨
        ∃ p ∈ l, p.key = key ∧
          ht.htDeleteElementByKey d key = .ok (true, ht.set p.index .deleted)) := by
  rcases hclear.findKey_cases (d := d) h.size with ⟨hstop, hfind⟩ | ⟨x, hs, hlt, hfind⟩
  · have hnone := stored_none (h.not_found hclear hstop)
    refine ⟨?_, .inl ⟨hnone, ?_⟩⟩
    · rw [htRetrieveElementByKey, hfind, hnone]
      rfl
    · rw [htDeleteElementByKey, hfind]
      rfl
  · obtain ⟨p, hp, rfl, rfl, hpi⟩ := h.of_entry hlt hs
    refine ⟨?_, .inr ⟨p, hp, rfl, ?_⟩⟩
    · simp only [htRetrieveElementByKey, hfind, bind, Except.bind, tableAt_ofNat hlt, hs,
        h.stored_eq hp]
      rfl
    · simp only [htDeleteElementByKey, hfind, bind, Except.bind, tableAt_ofNat hlt, hs, hpi]
      rfl

omit h in
theorem slotAt_set_ne_null {y : Slot α} {index j : Nat} (hy : y ≠ .null)
    (h : ht.slotAt index j ≠ .null) : (ht.set i y).slotAt index j ≠ .null := by
  show update ht.table i y ((index + j) % ht.size) ≠ .null
  rw [Function.update_apply]
  split
  · exact hy
  · exact h

theorem Holds.removed (hl : ∀ p, p ∈ l' ↔ p ∈ l ∧ p.index ≠ i) : (ht.set i .deleted).Holds l' where
  size := h.size
  slots := by
    intro j hj
    by_cases hji : j = i
    · rw [hji]
      exact .inr (.inl (update_self ..))
    have hold : (ht.set i .deleted).table j = ht.table j := update_of_ne hji _ _
    rw [hold]
    rcases h.slots j hj with hn | hd | ⟨p, hp, hpi, hpe⟩
    · exact .inl hn
    · exact .inr (.inl hd)
    · exact .inr (.inr ⟨p, (hl p).mpr ⟨hp, hpi ▸ hji⟩, hpi, hpe⟩)
  pairs := by
    intro p hp
    obtain ⟨hpl, hne⟩ := (hl p).mp hp
    obtain ⟨hlt, hs, o, ho, hio, hpath⟩ := h.pairs p hpl
    exact ⟨hlt, (update_of_ne hne _ _).trans hs, o, ho, hio,
      fun j hj => slotAt_set_ne_null (by simp) (hpath j hj)⟩
  keys p hp q hq := h.keys p ((hl p).mp hp).1 q ((hl q).mp hq).1

theorem Holds.congr (hl : ∀ p, p ∈ l' ↔ p ∈ l) : ht.Holds l' where
  size := h.size
  slots := by
    intro i hi
    rcases h.slots i hi with hn | hd | ⟨p, hp, hrest⟩
    · exact .inl hn
    · exact .inr (.inl hd)
    · exact .inr (.inr ⟨p, (hl p).mpr hp, hrest⟩)
  pairs p hp := h.pairs p ((hl p).mp hp)
  keys p hp q hq := h.keys p ((hl p).mp hp) q ((hl q).mp hq)

theorem Holds.index_inj (hp : p ∈ l) (hq : q ∈ l) (hi : p.index = q.index) : p = q := by
  have hs := (h.pairs p hp).2.1
  rw [hi, (h.pairs q hq).2.1] at hs
  simp only [Slot.entry.injEq, Option.some.injEq] at hs
  exact h.eq_of_key hp hq hs.1.symm

theorem Holds.inserted (habsent : ht.Absent key)
    (hends : ht.Ends (ht.home key) o) (ho : o ≠ ht.size) (hi : (ht.home key + o) % ht.size = i) :
    (ht.set i (.entry (some key) ptr)).Holds (⟨key, ptr, i⟩ :: l) := by
  have hlt : i < ht.size := hi ▸ Nat.mod_lt _ h.size
  have hfree : (ht.table i).isFree = true := by
    have := hends.free ho
    rwa [slotAt, hi] at this
  have hother : ∀ p ∈ l, p.index ≠ i := by
    rintro p hp rfl
    rw [(h.pairs p hp).2.1] at hfree
    cases hfree
  refine ⟨h.size, ?_, ?_, ?_⟩
  · intro j hj
    by_cases hji : j = i
    · rw [hji]
      exact .inr (.inr ⟨_, List.mem_cons_self, rfl, update_self ..⟩)
    have hold : (ht.set i (.entry (some key) ptr)).table j = ht.table j :=
      update_of_ne hji _ _
    rw [hold]
    rcases h.slots j hj with hn | hd | ⟨p, hp, hrest⟩
    · exact .inl hn
    · exact .inr (.inl hd)
    · exact .inr (.inr ⟨p, List.mem_cons_of_mem _ hp, hrest⟩)
  · intro p hp
    rcases List.mem_cons.mp hp with rfl | hp
    · refine ⟨hlt, update_self .., o, Nat.lt_of_le_of_ne hends.le ho, hi, fun j hj => ?_⟩
      refine slotAt_set_ne_null (by simp) fun heq => ?_
      have htaken := hends.taken j hj
      rw [show ht.slotAt (ht.home key) j = .null from heq] at htaken
      cases htaken
    · obtain ⟨hpi, hs, o', ho', hio, hpath⟩ := h.pairs p hp
      exact ⟨hpi, (update_of_ne (hother p hp) _ _).trans hs, o', ho', hio,
        fun j hj => slotAt_set_ne_null (by simp) (hpath j hj)⟩
  · have hnew : ∀ p ∈ l, p.key ≠ key := by
      rintro p hp rfl
      exact habsent p.index (h.pairs p hp).1 p.ptr (h.pairs p hp).2.1
    intro p hp q hq hk
    rcases List.mem_cons.mp hp with rfl | hp
    · rcases List.mem_cons.mp hq with rfl | hq
      · rfl
      · exact absurd hk.symm (hnew q hq)
    · rcases List.mem_cons.mp hq with rfl | hq
      · exact absurd hk (hnew p hp)
      · exact h.keys p hp q hq hk

theorem Holds.deleteIndex {index : Int} (h0 : 0 < index) (hlt : index < ht.size) :
    (ht.htDeleteElementByIndex index = .ok (false, ht) ∧ ∀ p ∈ l, (p.index : Int) ≠ index) ∨
      ht.htDeleteElementByIndex index = .ok (true, ht.set index.toNat .deleted) := by
  obtain ⟨i, rfl⟩ := Int.eq_ofNat_of_zero_le (Int.le_of_lt h0)
  have hi : i < ht.size := by omega
  simp only [htDeleteElementByIndex, if_pos (And.intro hlt h0), bind, Except.bind, tableAt_ofNat hi]
  rcases h.slots i hi with hn | hd | ⟨p, hp, hpi, hpe⟩
  · refine .inl ⟨by rw [hn]; rfl, fun p hp heq => ?_⟩
    have hs := (h.pairs p hp).2.1
    rw [Int.ofNat_inj.mp heq, hn] at hs
    cases hs
  · refine .inl ⟨by rw [hd]; rfl, fun p hp heq => ?_⟩
    have hs := (h.pairs p hp).2.1
    rw [Int.ofNat_inj.mp heq, hd] at hs
    cases hs
  · right
    rw [hpe]
    rfl

theorem Holds.step {a : HtEvent α} (hs : HtStep d ht a ht') (hm : ht.Meets a) :
    ht'.Holds (liveAfter l a) := by
  cases hs with
  | @add _ key ptr index hadd =>
    obtain ⟨o, -, hends, heq⟩ := htAddElement_ends ht key ptr .enough
    rw [hadd] at heq
    by_cases ho : o = ht.size
    · rw [if_pos ho] at heq
      cases heq
      exact h
    · rw [if_neg ho] at heq
      cases heq
      exact h.inserted hm hends ho rfl
  | @deleteKey _ key found hdel =>
    obtain ⟨o, hclear⟩ := hm
    rcases (h.search (d := d) hclear).2 with ⟨hnone, heq⟩ | ⟨p, hp, rfl, heq⟩
    · rw [hdel] at heq
      cases heq
      refine h.congr fun p => ?_
      simp only [liveAfter, List.mem_filter, decide_eq_true_eq, and_iff_left_iff_imp]
      rintro hp rfl
      rw [h.stored_eq hp] at hnone
      cases hnone
    · rw [hdel] at heq
      cases heq
      refine h.removed fun q => ?_
      simp only [liveAfter, List.mem_filter, decide_eq_true_eq]
      constructor
      · rintro ⟨hq, hne⟩
        exact ⟨hq, fun hi => hne (congrArg Pair.key (h.index_inj hq hp hi))⟩
      · rintro ⟨hq, hne⟩
        exact ⟨hq, fun hk => hne (h.keys q hq p hp hk)⟩
  | @deleteIndex _ index found hdel =>
    rcases h.deleteIndex hm.1 hm.2 with ⟨heq, hnone⟩ | heq
    · rw [hdel] at heq
      cases heq
      refine h.congr fun p => ?_
      simp only [liveAfter, List.mem_filter, decide_eq_true_eq, and_iff_left_iff_imp]
      exact hnone p
    · rw [hdel] at heq
      cases heq
      have h0 := hm.1
      refine h.removed fun p => ?_
      simp only [liveAfter, List.mem_filter, decide_eq_true_eq]
      have hiff : (p.index : Int) ≠ index ↔ p.index ≠ index.toNat := by omega
      rw [hiff]

end

/-- In a run from a new table in which every search by key is clear and every index passes the
assertion: a clear search returns what was stored and not deleted since, a deletion by key succeeds
exactly if there is such a pair, and no call leaves the table. -/
theorem hashtable_is_map {es : List (HtEvent α)} (hsize : 0 < size)
    (hrun : Lts.Run (Lts.Restrict (HtStep d) Meets) (htCreate size found) es ht) :
    (∀ key o, ht.Clear key o → ht.htRetrieveElementByKey d key = .ok (stored (live es) key) ∧
      ∃ ht', ht.htDeleteElementByKey d key = .ok ((stored (live es) key).isSome, ht')) ∧
    (∀ key, (∃ p ∈ live es, p.key = key) ↔ ¬ ht.Absent key) ∧
    ∀ index : Int, 0 < index → index < ht.size →
      ∃ b ht', ht.htDeleteElementByIndex index = .ok (b, ht') := by
  have h : ht.Holds (live es) := by
    refine hrun.history (fun es ht => ht.Holds (live es)) (.create hsize) ?_
    intro es t a u hold hs
    rw [live, List.foldl_append]
    exact hold.step hs.1 hs.2
  refine ⟨fun key o hclear => ?_, fun key => ⟨?_, fun hpresent => ?_⟩, fun index h0 hlt => ?_⟩
  · obtain ⟨hretrieve, hdelete⟩ := h.search (d := d) hclear
    refine ⟨hretrieve, ?_⟩
    rcases hdelete with ⟨hnone, heq⟩ | ⟨p, hp, rfl, heq⟩
    · exact ⟨ht, by rw [heq, hnone]; rfl⟩
    · exact ⟨_, by rw [heq, h.stored_eq hp]; rfl⟩
  · rintro ⟨p, hp, rfl⟩ habsent
    exact habsent p.index (h.pairs p hp).1 p.ptr (h.pairs p hp).2.1
  · simp only [Absent, not_forall, not_not] at hpresent
    obtain ⟨i, hi, x, hs⟩ := hpresent
    obtain ⟨p, hp, hk, -⟩ := h.of_entry hi hs
    exact ⟨p, hp, hk⟩
  · rcases h.deleteIndex h0 hlt with ⟨heq, -⟩ | heq
    · exact ⟨_, _, heq⟩
    · exact ⟨_, _, heq⟩

/-- A table with the empty string, whose hash is 101. -/
def withEmpty (size : Nat) : Hashtable Nat := ((htCreate size none).htAddElement [] 7 .enough).2

/-- Dummies whose keys cannot be read. -/
def unreadable : Dummies Nat := ⟨none, none, none⟩

/-- In a table of 200 slots the string is found. -/
theorem hashtable_is_map_empty :
    Lts.Run (Lts.Restrict (HtStep unreadable) Meets) (htCreate 200 none)
      [.added [] 7 (some 101)] (withEmpty 200) ∧
    (withEmpty 200).htRetrieveElementByKey unreadable [] = .ok (some 7) := by
  have hrun : Lts.Run (Lts.Restrict (HtStep unreadable) Meets) (htCreate 200 none)
      [.added [] 7 (some 101)] (withEmpty 200) :=
    .single ⟨.add rfl, fun _ _ _ h => by cases h⟩
  have hclear : (withEmpty 200).Clear [] 0 :=
    ⟨Nat.zero_le _, by decide, fun j hj => absurd hj (Nat.not_lt_zero j),
      .inr (.inr ⟨7, rfl, by decide⟩)⟩
  exact ⟨hrun, ((hashtable_is_map (by decide) hrun).1 [] 0 hclear).1⟩

/-- In a table of one slot it is found at offset 0, and read at index 101. -/
theorem retrieve_leaves_table :
    Lts.Run (HtStep unreadable) (htCreate 1 none) [.added [] 7 (some 0)] (withEmpty 1) ∧
    stored (live [.added [] 7 (some 0)]) [] = some 7 ∧
    (withEmpty 1).htRetrieveElementByKey unreadable [] = .error .outOfBounds := by
  refine ⟨.single (.add rfl), rfl, ?_⟩
  decide +kernel

end Hashtable

end OS161
