import OS161.Kern.BlockQueue

/-! `array.c` on its memory, in 32-bit arithmetic, and the list it stands for. -/
namespace OS161

open Function (update update_self update_of_ne)

/-- The block of an array; a slot that was never written holds nothing. -/
structure PointerBlock (α : Type) where
  room : Nat
  slot : Nat → Option α

/-- `struct array`. -/
structure BlockArray (α : Type) where
  num : Int
  max : Int
  v : Option (PointerBlock α)

inductive ArrayOp (α : Type) where
  | add (guy : α) (mem : Bool)
  | remove (index : Int)
  | setguy (index : Int) (ptr : α)
  | setsize (nguys : Int) (mem : Bool)
  | preallocate (nguys : Int) (mem : Bool)

namespace PointerBlock
variable {α : Type} (b : PointerBlock α)

def load (i : Nat) : Except Crash (Option α) :=
  if i < b.room then .ok (b.slot i) else .error .outOfBounds

def store (i : Nat) (x : Option α) : Except Crash (PointerBlock α) :=
  if i < b.room then .ok { b with slot := update b.slot i x } else .error .outOfBounds

/-- `memmove` of `n` pointers from slot `i + 1` to slot `i`: the destination is below the source,
and `memcpy` copies forwards. -/
def memmoveDown (i n : Nat) : Except Crash (PointerBlock α) :=
  Loop.exceptUpTo (fun k b => do b.store (i + k) (← b.load (i + 1 + k))) n b

/-- The copying loop of `array_preallocate`. -/
def copyFrom (old : Option (PointerBlock α)) (n : Nat) : Except Crash (PointerBlock α) :=
  Loop.exceptUpTo (fun k b => do
    match old with
    | none => .error .nullDeref
    | some old => b.store k (← old.load k)) n b

end PointerBlock

namespace BlockArray
variable {α : Type}

def arrayCreate : BlockArray α := ⟨0, 0, none⟩

/-- The loop of `array_preallocate`. Thirty-two turns take every `int` to -2, where it stays. -/
def growMax (nguys : Int) : Nat → Int → Except Crash Int
  | 0, _ => .error .hang
  | n + 1, newmax =>
    if newmax < nguys then growMax nguys n (int32 ((newmax + 1) * 2)) else .ok newmax

variable (a : BlockArray α) {b : PointerBlock α}

/-- The block that the array must have. -/
def block : Except Crash (PointerBlock α) :=
  match a.v with
  | none => .error .nullDeref
  | some b => .ok b

def arrayGetguy (index : Int) : Except Crash (Option α) := do
  if a.num ≤ a.max ∧ 0 ≤ index ∧ index < a.num then (← a.block).load index.toNat
  else .error .assertion

def arrayPreallocate (nguys : Int) (mem : Bool) : Except Crash (Option Errno × BlockArray α) := do
  if 0 ≤ a.num ∧ a.num ≤ a.max then
    let newmax ← growMax nguys 33 a.max
    if mem then
      let newv : PointerBlock α := ⟨blockSlots newmax.toNat, fun _ => none⟩
      let newv ← newv.copyFrom a.v a.num.toNat
      .ok (none, ⟨a.num, newmax, some newv⟩)
    else .ok (some .enomem, a)
  else .error .assertion

def arraySetsize (nguys : Int) (mem : Bool) : Except Crash (Option Errno × BlockArray α) := do
  if 0 ≤ a.num ∧ a.num ≤ a.max then
    if a.max < nguys then
      let (result, a) ← a.arrayPreallocate nguys mem
      if result = none then .ok (none, { a with num := nguys }) else .ok (result, a)
    else if nguys = 0 ∧ 16 < a.max then
      if a.v.isSome then .ok (none, ⟨nguys, 0, none⟩) else .error .assertion
    else .ok (none, { a with num := nguys })
  else .error .assertion

def arraySetguy (index : Int) (ptr : α) : Except Crash (BlockArray α) := do
  if a.num ≤ a.max ∧ 0 ≤ index ∧ index < a.num then
    let b ← (← a.block).store index.toNat (some ptr)
    .ok { a with v := some b }
  else .error .assertion

def arrayAdd (guy : α) (mem : Bool) : Except Crash (Option Errno × BlockArray α) := do
  let ix := a.num
  let (result, a) ← a.arraySetsize (int32 (ix + 1)) mem
  if result = none then
    let b ← (← a.block).store ix.toNat (some guy)
    .ok (none, { a with v := some b })
  else .ok (result, a)

def arrayRemove (index : Int) : Except Crash (BlockArray α) := do
  if a.num ≤ a.max ∧ 0 ≤ index ∧ index < a.num then
    let nmove := a.num - (index + 1)
    let b ← (← a.block).memmoveDown index.toNat nmove.toNat
    .ok { a with v := some b, num := a.num - 1 }
  else .error .assertion

def op : ArrayOp α → Except Crash (Option Errno × BlockArray α)
  | .add guy mem => a.arrayAdd guy mem
  | .remove index => do .ok (none, ← a.arrayRemove index)
  | .setguy index ptr => do .ok (none, ← a.arraySetguy index ptr)
  | .setsize nguys mem => a.arraySetsize nguys mem
  | .preallocate nguys mem => a.arrayPreallocate nguys mem

/-- What callers keep to. -/
def Allowed : ArrayOp α → Prop
  | .add _ _ => True
  | .remove index | .setguy index _ => 0 ≤ index ∧ index < a.num
  | .setsize nguys _ | .preallocate nguys _ => 0 ≤ nguys

/-- The number of members the call makes room for. -/
def asks : ArrayOp α → Int
  | .add _ _ => a.num + 1
  | .remove _ | .setguy _ _ => 0
  | .setsize nguys _ | .preallocate nguys _ => nguys

/-- The largest number of members for which the block does not wrap. -/
def maxGuys : Int := 2 ^ 29 - 2

/-- A call with what it returned. -/
def Step (a : BlockArray α) (x : ArrayOp α × Option Errno) (a' : BlockArray α) : Prop :=
  a.op x.1 = .ok (x.2, a') ∧ a.Allowed x.1 ∧ a.asks x.1 ≤ maxGuys

end BlockArray

/-- The list cut or extended to `n` members. -/
def resized {α : Type} (n : Nat) (l : List (Option α)) : List (Option α) :=
  l.take n ++ List.replicate (n - l.length) none

/-- The list a call makes of one. -/
def ArrayOp.onList {α : Type} (l : List (Option α)) : ArrayOp α → List (Option α)
  | .add guy _ => l ++ [some guy]
  | .remove index => l.eraseIdx index.toNat
  | .setguy index ptr => l.set index.toNat (some ptr)
  | .setsize nguys _ => resized nguys.toNat l
  | .preallocate _ _ => l

/-- The list after the calls that did not fail. -/
def contents {α : Type} (as : List (ArrayOp α × Option Errno)) : List (Option α) :=
  as.foldl (fun l x => if x.2 = none then x.1.onList l else l) []

namespace PointerBlock
variable {α : Type} {b old : PointerBlock α} {i n : Nat}

theorem load_eq (hi : i < b.room) : b.load i = .ok (b.slot i) := if_pos hi

theorem store_eq (hi : i < b.room) (x : Option α) :
    b.store i x = .ok { b with slot := update b.slot i x } := if_pos hi

theorem memmoveDown_eq (hn : i + n < b.room) : ∃ b', b.memmoveDown i n = .ok b' ∧
    b'.room = b.room ∧ ∀ j, b'.slot j = b.slot (if i ≤ j ∧ j < i + n then j + 1 else j) := by
  refine Loop.exceptUpTo_inv (P := fun k (b' : PointerBlock α) => b'.room = b.room ∧
    ∀ j, b'.slot j = b.slot (if i ≤ j ∧ j < i + k then j + 1 else j)) ⟨rfl, fun j => ?_⟩ ?_
  · rw [if_neg (by omega)]
  rintro k b' hk ⟨hroom, hslot⟩
  rw [load_eq (by omega), hslot, if_neg (by omega)]
  refine ⟨_, store_eq (by omega) _, hroom, fun j => ?_⟩
  simp only
  by_cases hj : j = i + k
  · rw [hj, update_self, if_pos (by omega)]
    congr 1
    omega
  · rw [update_of_ne hj, hslot]
    congr 1
    split <;> split <;> omega

theorem copyFrom_eq (hold : n ≤ old.room) (hn : n ≤ b.room) :
    ∃ b', b.copyFrom (some old) n = .ok b' ∧ b'.room = b.room ∧
      ∀ j < n, b'.slot j = old.slot j := by
  refine Loop.exceptUpTo_inv (P := fun k (b' : PointerBlock α) =>
    b'.room = b.room ∧ ∀ j < k, b'.slot j = old.slot j)
    ⟨rfl, fun j hj => absurd hj (Nat.not_lt_zero j)⟩ ?_
  rintro k b' hk ⟨hroom, hslot⟩
  simp only
  rw [load_eq (by omega)]
  refine ⟨_, store_eq (by omega) _, hroom, fun j hj => ?_⟩
  simp only
  by_cases hjk : j = k
  · rw [hjk, update_self]
  · rw [update_of_ne hjk]
    exact hslot j (by omega)

theorem copyFrom_room {b' : PointerBlock α} {old : Option (PointerBlock α)}
    (hb : b.copyFrom old n = .ok b') : b'.room = b.room := by
  induction n generalizing b' with
  | zero =>
    cases hb
    rfl
  | succ n ih =>
    obtain ⟨b₁, h₁, hb⟩ := bind_eq_ok.mp hb
    rw [← ih h₁]
    cases old with
    | none => cases hb
    | some old =>
      obtain ⟨x, -, hstore⟩ := bind_eq_ok.mp hb
      unfold store at hstore
      split at hstore
      · cases hstore
        rfl
      · cases hstore

end PointerBlock

namespace BlockArray
variable {α : Type} {a a' : BlockArray α} {l : List (Option α)} {nguys index : Int} {mem : Bool}
  {as : List (ArrayOp α × Option Errno)} {k : Nat}

/-- The sizes are two less than the powers of two. -/
theorem next_eq (hk : k < 31) : int32 (((2 ^ k - 2 : Int) + 1) * 2) = 2 ^ (k + 1) - 2 := by
  have hpow : (2 : Int) ^ k ≤ 2 ^ 30 := pow_le_pow_right₀ (by decide) (by omega)
  have hpos : (0 : Int) < 2 ^ k := pow_pos (by decide) k
  rw [pow_succ, int32_eq (by omega) (by omega)]
  omega

theorem growMax_eq {n : Nat} (hk : k ≤ 29) (hn : 29 < n + k) (hsmall : nguys ≤ maxGuys) :
    ∃ k', k ≤ k' ∧ k' ≤ 29 ∧ growMax nguys n (2 ^ k - 2) = .ok (2 ^ k' - 2) ∧
      nguys ≤ 2 ^ k' - 2 := by
  induction n generalizing k with
  | zero => omega
  | succ n ih =>
    rw [growMax]
    by_cases hlt : (2 : Int) ^ k - 2 < nguys
    · have hne : k ≠ 29 := by
        rintro rfl
        unfold maxGuys at hsmall
        omega
      rw [if_pos hlt, next_eq (by omega)]
      obtain ⟨k', hle, hrest⟩ := ih (k := k + 1) (by omega) (by omega)
      exact ⟨k', by omega, hrest⟩
    · exact ⟨k, Nat.le_refl k, hk, if_neg hlt, by omega⟩

/-- Past the largest `int` the loop does not end. -/
theorem growMax_hangs (hpos : 0 ≤ nguys) (n : Nat) : growMax nguys n (-2) = .error .hang := by
  induction n with
  | zero => rfl
  | succ n ih =>
    rw [growMax, if_pos (by omega)]
    exact ih

/-- Whatever it is asked for, the loop ends with a size of the same form. -/
theorem growMax_cases (hk : k ≤ 31) (hpos : 0 ≤ nguys) (n : Nat) :
    growMax nguys n (2 ^ k - 2) = .error .hang ∨
      ∃ k' ≤ 31, growMax nguys n (2 ^ k - 2) = .ok (2 ^ k' - 2) ∧ nguys ≤ 2 ^ k' - 2 := by
  induction n generalizing k with
  | zero => exact .inl rfl
  | succ n ih =>
    rw [growMax]
    by_cases hlt : (2 : Int) ^ k - 2 < nguys
    · rw [if_pos hlt]
      by_cases hlast : k = 31
      · rw [hlast]
        exact .inl (growMax_hangs hpos n)
      · rw [next_eq (by omega)]
        exact ih (by omega)
    · exact .inr ⟨k, hk, if_neg hlt, by omega⟩

/-- The members that the list knows are in the block. -/
def Stores (b : PointerBlock α) (l : List (Option α)) : Prop :=
  ∀ k x, l[k]? = some (some x) → b.slot k = some x

theorem length_resized (n : Nat) (l : List (Option α)) : (resized n l).length = n := by
  rw [resized, List.length_append, List.length_take, List.length_replicate]
  omega

theorem Stores.resized (hb : Stores b l) (n : Nat) : Stores b (resized n l) := by
  intro k x hk
  rw [OS161.resized, List.getElem?_append] at hk
  split at hk
  · rw [List.getElem?_take] at hk
    split at hk
    · exact hb k x hk
    · cases hk
  · rw [List.getElem?_replicate] at hk
    split at hk
    · cases Option.some.inj hk
    · cases hk

structure Sound (a : BlockArray α) (l : List (Option α)) : Prop where
  num : a.num = l.length
  le_max : a.num ≤ a.max
  power : ∃ k : Nat, 1 ≤ k ∧ k ≤ 29 ∧ a.max = 2 ^ k - 2
  block : a.max = 0 ∧ a.v = none ∨ ∃ b, a.v = some b ∧ a.max ≤ b.room ∧ Stores b l

theorem sound_arrayCreate : (arrayCreate : BlockArray α).Sound [] :=
  ⟨rfl, Int.le_refl 0, ⟨1, Nat.le_refl 1, by decide, rfl⟩, .inl ⟨rfl, rfl⟩⟩

theorem max_le (hk : k ≤ 29) : (2 : Int) ^ k - 2 ≤ maxGuys := by
  have hpow : (2 : Int) ^ k ≤ 2 ^ 29 := pow_le_pow_right₀ (by decide) hk
  unfold maxGuys
  omega

namespace Sound
variable (ha : a.Sound l)
include ha

theorem num_ok : 0 ≤ a.num ∧ a.num ≤ a.max := by
  have hnum := ha.num
  have hle := ha.le_max
  omega

theorem block_of_pos (hpos : 0 < a.max) : ∃ b, a.v = some b ∧ a.max ≤ b.room ∧ Stores b l := by
  rcases ha.block with ⟨hzero, -⟩ | hb
  · omega
  · exact hb

theorem copyFrom {newmax : Int} (hle : a.max ≤ newmax) (hsmall : newmax ≤ maxGuys) :
    ∃ b : PointerBlock α, PointerBlock.copyFrom ⟨blockSlots newmax.toNat, fun _ => none⟩ a.v
        a.num.toNat = .ok b ∧ newmax ≤ b.room ∧ Stores b l := by
  unfold maxGuys at hsmall
  have hnum := ha.num_ok
  have hlen : a.num.toNat = l.length := by rw [ha.num, Int.toNat_natCast]
  have hslots : newmax.toNat ≤ blockSlots newmax.toNat :=
    (le_blockSlots_iff (by omega)).mpr (by unfold maxSlots; omega)
  by_cases hpos : 0 < a.max
  · obtain ⟨b, hv, hroom, hstores⟩ := ha.block_of_pos hpos
    obtain ⟨b', hrun, hroom', hslot⟩ := PointerBlock.copyFrom_eq
      (b := ⟨blockSlots newmax.toNat, fun _ => none⟩) (show a.num.toNat ≤ b.room by omega)
      (by simp only; omega)
    simp only at hroom'
    refine ⟨b', hv ▸ hrun, by omega, fun k x hk => ?_⟩
    have hlt : k < l.length := (List.getElem?_eq_some_iff.mp hk).1
    rw [hslot k (by omega)]
    exact hstores k x hk
  · have hzero : a.num.toNat = 0 := by omega
    rw [hzero] at hlen ⊢
    refine ⟨_, rfl, by simp only; omega, fun k x hk => ?_⟩
    rw [List.eq_nil_of_length_eq_zero hlen.symm] at hk
    cases hk

theorem arrayPreallocate (hsmall : nguys ≤ maxGuys) (mem : Bool) :
    (∃ a', a.arrayPreallocate nguys mem = .ok (none, a') ∧ a'.Sound l ∧ nguys ≤ a'.max) ∨
      a.arrayPreallocate nguys mem = .ok (some .enomem, a) := by
  obtain ⟨k, hpos, hk, hmax⟩ := ha.power
  obtain ⟨k', hle, hk', hgrow, hnguys⟩ := growMax_eq (n := 33) hk (by omega) hsmall
  rw [BlockArray.arrayPreallocate, if_pos ha.num_ok, hmax, hgrow]
  cases mem with
  | false => exact .inr rfl
  | true =>
    have hpow : (2 : Int) ^ k ≤ 2 ^ k' := pow_le_pow_right₀ (by decide) hle
    obtain ⟨b, hcopy, hroom, hstores⟩ :=
      ha.copyFrom (show a.max ≤ 2 ^ k' - 2 by omega) (max_le hk')
    refine .inl ⟨⟨a.num, 2 ^ k' - 2, some b⟩, ?_, ⟨ha.num, ?_, ⟨k', by omega, hk', rfl⟩,
      .inr ⟨b, rfl, hroom, hstores⟩⟩, hnguys⟩
    · change (PointerBlock.copyFrom _ a.v a.num.toNat >>= fun newv =>
        Except.ok (none, (⟨a.num, 2 ^ k' - 2, some newv⟩ : BlockArray α))) = _
      rw [hcopy]
      rfl
    · have hnum := ha.num_ok
      simp only
      omega

theorem setNum (hpos : 0 ≤ nguys) (hle : nguys ≤ a.max) :
    Sound { a with num := nguys } (resized nguys.toNat l) := by
  refine ⟨?_, hle, ha.power, ?_⟩
  · rw [length_resized]
    exact (Int.toNat_of_nonneg hpos).symm
  · rcases ha.block with hb | ⟨b, hv, hroom, hstores⟩
    · exact .inl hb
    · exact .inr ⟨b, hv, hroom, hstores.resized _⟩

theorem arraySetsize (hpos : 0 ≤ nguys) (hsmall : nguys ≤ maxGuys) (mem : Bool) :
    (∃ a', a.arraySetsize nguys mem = .ok (none, a') ∧ a'.Sound (resized nguys.toNat l)) ∨
      a.arraySetsize nguys mem = .ok (some .enomem, a) := by
  rw [BlockArray.arraySetsize, if_pos ha.num_ok]
  by_cases hgrow : a.max < nguys
  · rw [if_pos hgrow]
    rcases ha.arrayPreallocate hsmall mem with ⟨a', hrun, ha', hle⟩ | hrun
    · refine .inl ⟨{ a' with num := nguys }, ?_, ha'.setNum hpos hle⟩
      rw [hrun]
      rfl
    · refine .inr ?_
      rw [hrun]
      rfl
  · rw [if_neg hgrow]
    by_cases hzero : nguys = 0 ∧ 16 < a.max
    · obtain ⟨b, hv, -, -⟩ := ha.block_of_pos (by omega)
      rw [if_pos hzero, hv, if_pos Option.isSome_some, hzero.1]
      refine .inl ⟨_, rfl, ?_, Int.le_refl 0, ⟨1, Nat.le_refl 1, by decide, rfl⟩,
        .inl ⟨rfl, rfl⟩⟩
      rw [length_resized]
      rfl
    · rw [if_neg hzero]
      exact .inl ⟨_, rfl, ha.setNum hpos (by omega)⟩

theorem store {i : Nat} (hv : a.v = some b) (hi : i < l.length) (x : α) :
    ∃ b', b.store i (some x) = .ok b' ∧
      Sound { a with v := some b' } (l.set i (some x)) := by
  have hnum := ha.num
  have hle := ha.le_max
  obtain ⟨b₀, hv₀, hroom, hstores⟩ := ha.block_of_pos (by omega)
  cases hv.symm.trans hv₀
  refine ⟨_, PointerBlock.store_eq (by omega) _, ?_, hle, ha.power, .inr ⟨_, rfl, hroom, ?_⟩⟩
  · rw [List.length_set]
    exact hnum
  intro k y hk
  simp only
  by_cases hik : k = i
  · rw [hik, List.getElem?_set_self hi] at hk
    rw [hik, update_self]
    exact Option.some.inj hk
  · rw [List.getElem?_set_ne (Ne.symm hik)] at hk
    rw [update_of_ne hik]
    exact hstores k y hk

theorem block_eq {i : Nat} (hi : i < l.length) : ∃ b, a.v = some b ∧ a.block = .ok b := by
  have hnum := ha.num
  have hle := ha.le_max
  obtain ⟨b, hv, -⟩ := ha.block_of_pos (by omega)
  exact ⟨b, hv, by rw [BlockArray.block, hv]⟩

theorem arraySetguy (hpos : 0 ≤ index) (hlt : index < a.num) (ptr : α) :
    ∃ a', a.arraySetguy index ptr = .ok a' ∧ a'.Sound (l.set index.toNat (some ptr)) := by
  have hi : index.toNat < l.length := by
    have hnum := ha.num
    omega
  obtain ⟨b, hv, hblock⟩ := ha.block_eq hi
  obtain ⟨b', hstore, ha'⟩ := ha.store hv hi ptr
  refine ⟨_, ?_, ha'⟩
  rw [BlockArray.arraySetguy, if_pos ⟨ha.le_max, hpos, hlt⟩, hblock]
  change (b.store index.toNat (some ptr) >>= fun b => Except.ok { a with v := some b }) = _
  rw [hstore]
  rfl

theorem arrayAdd (hsmall : a.num + 1 ≤ maxGuys) (guy : α) (mem : Bool) :
    (∃ a', a.arrayAdd guy mem = .ok (none, a') ∧ a'.Sound (l ++ [some guy])) ∨
      a.arrayAdd guy mem = .ok (some .enomem, a) := by
  have hnum := ha.num
  have hint : int32 (a.num + 1) = a.num + 1 := by
    unfold maxGuys at hsmall
    exact int32_eq (by omega) (by omega)
  have hlen : (a.num + 1).toNat = l.length + 1 := by omega
  have hix : a.num.toNat = l.length := by omega
  rw [BlockArray.arrayAdd, hint]
  rcases ha.arraySetsize (by omega) hsmall mem with ⟨a₁, hrun, ha₁⟩ | hrun
  · have hlast : l.length < (resized (l.length + 1) l).length := by
      rw [length_resized]
      exact Nat.lt_succ_self _
    rw [hlen] at ha₁
    obtain ⟨b, hv, hblock⟩ := ha₁.block_eq hlast
    obtain ⟨b', hstore, ha'⟩ := ha₁.store hv hlast guy
    have hlist : (resized (l.length + 1) l).set l.length (some guy) = l ++ [some guy] := by
      rw [resized, List.take_of_length_le (Nat.le_succ _), Nat.add_sub_cancel_left]
      simp
    rw [hlist] at ha'
    refine .inl ⟨_, ?_, ha'⟩
    rw [hrun]
    simp only [bind, Except.bind, if_pos, hblock, hix, hstore]
  · refine .inr ?_
    rw [hrun]
    rfl

theorem arrayRemove (hpos : 0 ≤ index) (hlt : index < a.num) :
    ∃ a', a.arrayRemove index = .ok a' ∧ a'.Sound (l.eraseIdx index.toNat) := by
  have hnum := ha.num
  have hi : index.toNat < l.length := by omega
  have hmove : (a.num - (index + 1)).toNat = l.length - (index.toNat + 1) := by omega
  obtain ⟨b, hv, hroom, hstores⟩ := ha.block_of_pos (by have := ha.le_max; omega)
  have hle := ha.le_max
  obtain ⟨b', hrun, hroom', hslot⟩ := PointerBlock.memmoveDown_eq (b := b) (i := index.toNat)
    (n := l.length - (index.toNat + 1)) (by omega)
  refine ⟨{ a with v := some b', num := a.num - 1 }, ?_, ?_, ?_, ha.power, .inr ⟨b', rfl, ?_, ?_⟩⟩
  · rw [BlockArray.arrayRemove, if_pos ⟨hle, hpos, hlt⟩, BlockArray.block, hv]
    change (b.memmoveDown index.toNat (a.num - (index + 1)).toNat >>= fun b =>
      Except.ok { a with v := some b, num := a.num - 1 }) = _
    rw [hmove, hrun]
    rfl
  · rw [List.length_eraseIdx_of_lt hi]
    simp only
    omega
  · simp only
    omega
  · simp only
    omega
  intro k x hk
  rw [hslot]
  rw [List.getElem?_eraseIdx] at hk
  have hbound : k < (l.eraseIdx index.toNat).length := by
    rw [← List.getElem?_eraseIdx] at hk
    exact (List.getElem?_eq_some_iff.mp hk).1
  rw [List.length_eraseIdx_of_lt hi] at hbound
  split at hk
  · rw [if_neg (by omega)]
    exact hstores k x hk
  · rw [if_pos (by omega)]
    exact hstores (k + 1) x hk

/-- `array_getguy` is for the members. -/
theorem arrayGetguy_iff : (∃ x, a.arrayGetguy index = .ok x) ↔ 0 ≤ index ∧ index < a.num := by
  have hle := ha.le_max
  unfold arrayGetguy
  constructor
  · rintro ⟨x, hx⟩
    split at hx
    · rename_i hok
      exact hok.2
    · cases hx
  · rintro ⟨hpos, hlt⟩
    obtain ⟨b, hv, hroom, -⟩ := ha.block_of_pos (by omega)
    rw [if_pos ⟨hle, hpos, hlt⟩, BlockArray.block, hv]
    exact ⟨_, PointerBlock.load_eq (by omega)⟩

theorem arrayGetguy_eq {k : Nat} {x : α} (hk : l[k]? = some (some x)) :
    a.arrayGetguy k = .ok (some x) := by
  have hnum := ha.num
  have hle := ha.le_max
  have hlt : k < l.length := (List.getElem?_eq_some_iff.mp hk).1
  obtain ⟨b, hv, hroom, hstores⟩ := ha.block_of_pos (by omega)
  rw [arrayGetguy, if_pos ⟨hle, by omega, by omega⟩, BlockArray.block, hv]
  change b.load k = _
  rw [PointerBlock.load_eq (by omega), hstores k x hk]

theorem op {x : ArrayOp α} (hallowed : a.Allowed x) (hsmall : a.asks x ≤ maxGuys) :
    (∃ a', a.op x = .ok (none, a') ∧ a'.Sound (x.onList l)) ∨ a.op x = .ok (some .enomem, a) := by
  cases x with
  | add guy mem => exact ha.arrayAdd hsmall guy mem
  | remove index =>
    obtain ⟨a', hrun, ha'⟩ := ha.arrayRemove hallowed.1 hallowed.2
    refine .inl ⟨a', ?_, ha'⟩
    rw [BlockArray.op, hrun]
    rfl
  | setguy index ptr =>
    obtain ⟨a', hrun, ha'⟩ := ha.arraySetguy hallowed.1 hallowed.2 ptr
    refine .inl ⟨a', ?_, ha'⟩
    rw [BlockArray.op, hrun]
    rfl
  | setsize nguys mem => exact ha.arraySetsize hallowed hsmall mem
  | preallocate nguys mem =>
    rcases ha.arrayPreallocate hsmall mem with ⟨a', hrun, ha', -⟩ | hrun
    · exact .inl ⟨a', hrun, ha'⟩
    · exact .inr hrun

/-- A longer block than `maxGuys` is not all there, if the call returns at all. -/
theorem arrayPreallocate_short (hlarge : maxGuys < nguys) {a' : BlockArray α}
    (hrun : a.arrayPreallocate nguys true = .ok (none, a'))
    (hv : a'.v = some b) : ¬ a'.max ≤ b.room := by
  obtain ⟨k, -, hk, hmax⟩ := ha.power
  have hpos : 0 ≤ nguys := by
    unfold maxGuys at hlarge
    omega
  rw [BlockArray.arrayPreallocate, if_pos ha.num_ok, hmax] at hrun
  rcases growMax_cases (k := k) (by omega) hpos 33 with hgrow | ⟨k', hk', hgrow, hle⟩
  · rw [hgrow] at hrun
    cases hrun
  rw [hgrow] at hrun
  obtain ⟨newmax, hnew, hrun⟩ := bind_eq_ok.mp hrun
  cases hnew
  obtain ⟨b', hcopy, hend⟩ := bind_eq_ok.mp hrun
  cases hend
  cases hv
  have hroom := PointerBlock.copyFrom_room hcopy
  have hpow : (2 : Int) ^ k' ≤ 2 ^ 31 := pow_le_pow_right₀ (by decide) hk'
  have hthirty : (2 : Int) ^ 30 ≤ 2 ^ k' := by
    refine pow_le_pow_right₀ (by decide) ?_
    by_contra hlt
    have hsmall := max_le (k := k') (by omega)
    omega
  have hslots := le_blockSlots_iff (n := ((2 : Int) ^ k' - 2).toNat) (by omega)
  simp only at hroom ⊢
  unfold maxSlots at hslots
  omega

end Sound

theorem sound_run (hrun : Lts.Run Step arrayCreate as a) : a.Sound (contents as) := by
  refine hrun.history (fun as a => a.Sound (contents as)) sound_arrayCreate ?_
  rintro as a ⟨x, result⟩ a' ha ⟨hop, hallowed, hsmall⟩
  rw [contents, List.foldl_append, ← contents]
  rcases ha.op hallowed hsmall with ⟨a₁, hop', ha'⟩ | hop'
  · cases hop.symm.trans hop'
    exact ha'
  · cases hop.symm.trans hop'
    exact ha

/-- An array for no more than `maxGuys` members is a list; asked for more, it gets a block that is
too short or does not return. -/
theorem array_is_list
    (hrun : Lts.Run Step arrayCreate as a) :
    a.num = (contents as).length ∧ 0 ≤ a.num ∧ a.num ≤ a.max ∧
      (a.max = 0 ∨ ∃ b, a.v = some b ∧ a.max ≤ b.room) ∧
      (∀ (k : Nat) x, (contents as)[k]? = some (some x) → a.arrayGetguy k = .ok (some x)) ∧
      (∀ index, (∃ x, a.arrayGetguy index = .ok x) ↔ 0 ≤ index ∧ index < a.num) ∧
      (∀ x, a.Allowed x → a.asks x ≤ maxGuys → ∃ result a', a.op x = .ok (result, a') ∧
        (result ≠ none → result = some .enomem ∧ a' = a)) ∧
      ∀ nguys, maxGuys < nguys → ∀ a' b, a.arrayPreallocate nguys true = .ok (none, a') →
        a'.v = some b → ¬ a'.max ≤ b.room := by
  have ha := sound_run hrun
  refine ⟨ha.num, ha.num_ok.1, ha.num_ok.2, ?_, fun k x => ha.arrayGetguy_eq,
    fun index => ha.arrayGetguy_iff, fun x hallowed hsmall => ?_,
    fun nguys hlarge a' b => ha.arrayPreallocate_short hlarge⟩
  · rcases ha.block with ⟨hzero, -⟩ | ⟨b, hv, hroom, -⟩
    · exact .inl hzero
    · exact .inr ⟨b, hv, hroom⟩
  · rcases ha.op hallowed hsmall with ⟨a', hop, -⟩ | hop
    · exact ⟨none, a', hop, fun h => absurd rfl h⟩
    · exact ⟨some .enomem, a, hop, fun _ => ⟨rfl, rfl⟩⟩

theorem array_is_list_two :
    ∃ a : BlockArray Nat, Lts.Run Step arrayCreate
      [(.add 5 true, none), (.add 6 false, none), (.add 7 false, some .enomem), (.remove 0, none),
        (.setsize 3 true, none), (.setguy 2 8, none)] a ∧
      a.num = 3 ∧ a.arrayGetguy 0 = .ok (some 6) ∧ a.arrayGetguy 2 = .ok (some 8) := by
  refine Lts.exists_run_and ⟨_, .head ⟨rfl, trivial, by decide⟩ (.head ⟨rfl, trivial, by decide⟩
    (.head ⟨rfl, trivial, by decide⟩ (.head ⟨rfl, ⟨by decide, by decide⟩, by decide⟩
    (.head ⟨rfl, (by decide : (0 : Int) ≤ 3), by decide⟩
    (.head ⟨rfl, ⟨by decide, by decide⟩, by decide⟩ .refl))))), rfl⟩ fun a hrun _ => ?_
  obtain ⟨-, -, -, -, hget, -⟩ := array_is_list hrun
  exact ⟨hget 0 6 rfl, hget 2 8 rfl⟩

/-- For the largest `int` the loop of `array_preallocate` goes on for good; for `2 ^ 30 - 1` members
the array gets a block without a page and takes it for one of `2 ^ 31 - 2` slots. -/
theorem long_array_fails :
    (∀ n, growMax (2 ^ 31 - 1) n 0 = .error .hang) ∧
      (arrayCreate : BlockArray Nat).arraySetsize (2 ^ 31 - 1) true = .error .hang ∧
      (arrayCreate : BlockArray Nat).arrayPreallocate (2 ^ 30 - 1) true =
        .ok (none, ⟨0, 2 ^ 31 - 2, some ⟨0, fun _ => none⟩⟩) := by
  have hhang : ∀ n, growMax (2 ^ 31 - 1) n 0 = .error .hang := by
    intro n
    rcases growMax_cases (k := 1) (by decide) (by decide : (0 : Int) ≤ 2 ^ 31 - 1) n with
      hgrow | ⟨k', hk', -, hle⟩
    · exact hgrow
    · have hpow : (2 : Int) ^ k' ≤ 2 ^ 31 := pow_le_pow_right₀ (by decide) hk'
      omega
  have hgrow : growMax (2 ^ 30 - 1) 33 0 = .ok (2 ^ 31 - 2) := by decide +kernel
  refine ⟨hhang, ?_, ?_⟩
  · rw [arraySetsize, if_pos (by decide), if_pos (by decide), arrayPreallocate,
      if_pos (by decide), arrayCreate, hhang]
    rfl
  · rw [arrayPreallocate, if_pos (by decide), arrayCreate, hgrow]
    rfl

end BlockArray

end OS161
