import Mathlib.Data.List.FinRange
import OS161.Vm.PageTable

/-! The 64-entry TLB of the MIPS-1 and the routines of `vm.c` that fill and flush it. -/
namespace OS161

structure TlbEntry where
  hi : Word
  lo : Word
  deriving DecidableEq

abbrev Tlb := Fin 64 → TlbEntry

/-- `TLBHI_INVALID`: one address of the unmapped range for each slot. -/
def tlbhiInvalid (i : Fin 64) : Word := BitVec.ofNat 32 ((0x80000 + i.val) * 4096)

/-- `as_activate`: every slot gets its own invalid entry. -/
def asActivate : Tlb := fun i => ⟨tlbhiInvalid i, 0#32⟩

namespace Tlb
variable (t : Tlb)

/-- `TLB_Write`. -/
def write (hi lo : Word) (i : Fin 64) : Tlb := Function.update t i ⟨hi, lo⟩

/-- `TLB_Probe`, which matches an entry whether or not its valid bit is set. -/
def probe (hi : Word) : Option (Fin 64) := (List.finRange 64).find? fun i => (t i).hi == hi

/-- The slot `TLB_Write` selects for the result of `TLB_Probe`: the six index bits of -1 are
those of 63. -/
def probeSlot (hi : Word) : Fin 64 := (t.probe hi).getD 63

/-- `as_make_readonly`. -/
def makeReadonly : Tlb := fun i =>
  if isValid (t i).lo then ⟨(t i).hi, (t i).lo &&& ~~~tlbloDirty⟩ else t i

/-- The slot a miss is entered in: the first that is not valid, else the one `random()` names. -/
def refillSlot (rand : Nat) : Fin 64 :=
  ((List.finRange 64).find? fun i => !isValid (t i).lo).getD (Fin.ofNat 64 rand)

def refill (va : Vaddr) (entrylo : Word) (rand : Nat) : Tlb :=
  t.write (pageOf va) entrylo (t.refillSlot rand)

/-- What the processor makes of an access: the entry used, or the exception taken. -/
def translate (va : Vaddr) (store : Bool) : Except FaultType Word :=
  match t.probe (pageOf va) with
  | none => .error (if store then .write else .read)
  | some i =>
    if isValid (t i).lo then
      if store && !isDirty (t i).lo then .error .readonly else .ok (t i).lo
    else .error (if store then .write else .read)

variable {t} {hi : Word} {i j : Fin 64} {va : Vaddr} {e : Word}

theorem probe_some (h : t.probe hi = some i) : (t i).hi = hi := by
  have := List.find?_some h
  simpa using this

theorem probe_none (h : t.probe hi = none) (i : Fin 64) : (t i).hi ≠ hi := by
  have := List.find?_eq_none.mp h i (List.mem_finRange i)
  simpa using this

theorem probe_of_hi (h : (t i).hi = hi) : ∃ j, t.probe hi = some j ∧ (t j).hi = hi := by
  cases hp : t.probe hi with
  | none => exact (probe_none hp i h).elim
  | some j => exact ⟨j, rfl, probe_some hp⟩

variable {store : Bool} {ft : FaultType}

/-- A completed access used a valid entry for the page, a writable one if it was a store. -/
theorem translate_ok (h : t.translate va store = .ok e) :
    ∃ i, (t i).hi = pageOf va ∧ (t i).lo = e ∧ isValid e = true ∧
      (store = true → isDirty e = true) := by
  unfold translate at h
  split at h
  · simp at h
  rename_i i hp
  split at h
  · rename_i hv
    split at h
    · simp at h
    rename_i hd
    cases h
    refine ⟨i, probe_some hp, rfl, hv, ?_⟩
    simpa using hd
  · simp at h

theorem translate_of_hi (hinj : Function.Injective fun i => (t i).hi) (hhi : (t i).hi = pageOf va)
    (hv : isValid (t i).lo = true) : t.translate va false = .ok (t i).lo := by
  obtain ⟨j, hp, hj⟩ := probe_of_hi hhi
  obtain rfl : j = i := hinj (hj.trans hhi.symm)
  simp [translate, hp, hv]

theorem translate_load_error (h : t.translate va false = .error ft) : ft = .read := by
  unfold translate at h
  split at h
  · cases h
    rfl
  split at h
  · simp at h
  · cases h
    rfl

theorem translate_miss (h : t.translate va store = .error ft)
    (hft : ft ≠ .readonly) (i : Fin 64) (hinj : Function.Injective fun i => (t i).hi) :
    (t i).hi = pageOf va → isValid (t i).lo = false := by
  intro hi
  unfold translate at h
  split at h
  · rename_i hp
    exact (probe_none hp i hi).elim
  rename_i j hp
  have hij : i = j := hinj (hi.trans (probe_some hp).symm)
  subst hij
  split at h
  · split at h
    · cases h
      exact (hft rfl).elim
    · cases h
  · rename_i hv
    simpa using hv

theorem translate_modify (h : t.translate va store = .error .readonly) :
    ∃ i, (t i).hi = pageOf va ∧ isValid (t i).lo = true := by
  unfold translate at h
  split at h
  · cases store <;> simp at h
  rename_i i hp
  split at h
  · rename_i hv
    exact ⟨i, probe_some hp, hv⟩
  · cases store <;> simp at h

theorem toNat_tlbhiInvalid (i : Fin 64) : (tlbhiInvalid i).toNat = (0x80000 + i.val) * 4096 := by
  simp only [tlbhiInvalid, BitVec.toNat_ofNat]
  omega

theorem pageOf_tlbhiInvalid (i : Fin 64) : pageOf (tlbhiInvalid i) = tlbhiInvalid i := by
  have hi := toNat_tlbhiInvalid i
  apply BitVec.eq_of_toNat_eq
  rw [toNat_pageOf, hi]
  omega

theorem tlbhiInvalid_injective : Function.Injective tlbhiInvalid := by
  intro i j h
  have hi := toNat_tlbhiInvalid i
  have hj := toNat_tlbhiInvalid j
  rw [h] at hi
  omega

/-- The address of an invalid entry is no user address. -/
theorem tlbhiInvalid_ne_pageOf (hva : va.toNat < 2147483648) : tlbhiInvalid i ≠ pageOf va := by
  intro h
  have hi := toNat_tlbhiInvalid i
  rw [h, toNat_pageOf] at hi
  omega

end Tlb

end OS161
