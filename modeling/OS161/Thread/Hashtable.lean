import OS161.Base

/-! The hash table of `lib/hashtable.c`, with linear probing. -/
namespace OS161

/-- What a slot of the table points to; `deleted` and `reserved` are dummies inside the table. -/
inductive Slot (α : Type) where
  | null
  | deleted
  | reserved
  | entry (key : Option (List Byte)) (ptr : α)
  deriving DecidableEq

/-- The slots in which `ht_add_element` may put an entry. -/
def Slot.isFree {α : Type} : Slot α → Bool
  | .null => true
  | .deleted => true
  | _ => false

/-- `struct hashtable`. Nothing ever sets `reserved.entry`. -/
structure Hashtable (α : Type) where
  size : Nat
  table : Nat → Slot α
  reservedEntry : Option α

/-- How far `kmalloc` gets in `ht_add_element`; without memory for the key, the new entry's pointer
is what was found there. -/
inductive AddMem (α : Type) where
  | noEntry
  | noKey (found : α)
  | enough

def hashfunction (key : List Byte) : Word :=
  key.foldl (fun hash c => hash * 101#32 + c.signExtend 32) 101#32

namespace Hashtable
variable {α : Type} (ht : Hashtable α)

def htCreate (size : Nat) (found : Option α) : Hashtable α := ⟨size, fun _ => .null, found⟩

def set (i : Nat) (x : Slot α) : Hashtable α := { ht with table := Function.update ht.table i x }

/-- The probing loop from an offset on, with `n` turns left before the offset is the size. -/
def probe (index : Nat) : Nat → Nat → Option Nat
  | 0, _ => none
  | n + 1, offset =>
    if (ht.table ((index + offset) % ht.size)).isFree then some ((index + offset) % ht.size)
    else probe index n (offset + 1)

/-- `ht_add_element`; `none` is -1. -/
def htAddElement (key : List Byte) (ptr : α) (mem : AddMem α) : Option Nat × Hashtable α :=
  match ht.probe ((hashfunction key).toNat % ht.size) ht.size 0 with
  | none => (none, ht)
  | some index =>
    match mem with
    | .noEntry => (none, ht.set index .null)
    | .noKey found => (none, ht.set index (.entry none found))
    | .enough => (some index, ht.set index (.entry (some key) ptr))

/-- `ht_retrieve_element_by_index`; `none` is NULL. -/
def htRetrieveElementByIndex (index : Nat) : Option α :=
  match ht.table index with
  | .null => none
  | .deleted => none
  | .reserved => ht.reservedEntry
  | .entry _ ptr => some ptr

variable {ht} {i index n offset : Nat}

theorem probe_some (h : ht.probe index n offset = some i) : (ht.table i).isFree = true := by
  induction n generalizing offset with
  | zero => cases h
  | succ n ih =>
    unfold probe at h
    split at h
    · rename_i hfree
      cases h
      exact hfree
    · exact ih h

/-- What a call of `ht_add_element` comes to: it finds no slot, or it has put something into one
that was free. -/
theorem htAddElement_cases (ht : Hashtable α) (key : List Byte) (ptr : α) (mem : AddMem α) :
    ht.htAddElement key ptr mem = (none, ht) ∨
    ∃ i, (ht.table i).isFree = true ∧
      ((mem = .noEntry ∧ ht.htAddElement key ptr mem = (none, ht.set i .null)) ∨
      (∃ found, mem = .noKey found ∧
        ht.htAddElement key ptr mem = (none, ht.set i (.entry none found))) ∨
      (mem = .enough ∧
        ht.htAddElement key ptr mem = (some i, ht.set i (.entry (some key) ptr)))) := by
  unfold htAddElement
  split
  · exact .inl rfl
  rename_i index hp
  refine .inr ⟨index, probe_some hp, ?_⟩
  cases mem with
  | noEntry => exact .inl ⟨rfl, rfl⟩
  | noKey found => exact .inr (.inl ⟨found, rfl, rfl⟩)
  | enough => exact .inr (.inr ⟨rfl, rfl⟩)

end Hashtable

end OS161
