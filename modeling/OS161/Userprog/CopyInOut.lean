import OS161.Userprog.Execv

/-! `copyinout.c`: bytes are moved one by one, behind `copycheck` in wrapping arithmetic. -/
namespace OS161

open BitVec (ofNat lt_def le_def)

/-- User memory, with no byte where an access faults, and the kernel's buffer. -/
structure UserMem where
  user : Vaddr → Option Byte
  buf : Nat → Byte

namespace UserMem

/-- The `i`th byte comes from user memory at `p`: the byte, and the memory after it; none on a
fault. -/
def moveIn (p : Vaddr) (m : UserMem) (i : Nat) : Option (Byte × UserMem) :=
  (m.user (p + ofNat 32 i)).map fun b => (b, { m with buf := Function.update m.buf i b })

/-- The `i`th byte goes to user memory at `p`. -/
def moveOut (p : Vaddr) (m : UserMem) (i : Nat) : Option (Byte × UserMem) :=
  let a := p + ofNat 32 i
  (m.user a).map fun _ =>
    (m.buf i, { m with user := Function.update m.user a (some (m.buf i)) })

end UserMem

section model
variable (move : UserMem → Nat → Option (Byte × UserMem))

/-- `memcpy` of `n` bytes from the `i`th on; false where a fault has ended it. -/
def memcpyFrom : Nat → Nat → UserMem → Bool × UserMem
  | 0, _, m => (true, m)
  | n + 1, i, m =>
    match move m i with
    | none => (false, m)
    | some (_, m) => memcpyFrom n (i + 1) m

/-- `copyin` and `copyout`, which differ in the direction only. -/
def copyBlock (userptr : Vaddr) (len : Word) (m : UserMem) : Except Errno Unit × UserMem :=
  match copycheck userptr len.toNat with
  | .error e => (.error e, m)
  | .ok stoplen =>
    if stoplen ≠ len.toNat then (.error .efault, m)
    else
      let (done, m) := memcpyFrom move len.toNat 0 m
      (if done then .ok () else .error .efault, m)

/-- The loop of `copystr` over at most `n` bytes from the `i`th on; `e` is what it returns at the
limit. -/
def copystrFrom (e : Errno) : Nat → Nat → UserMem → Except Errno Nat × UserMem
  | 0, _, m => (.error e, m)
  | n + 1, i, m =>
    match move m i with
    | none => (.error .efault, m)
    | some (b, m) => if b = 0#8 then (.ok (i + 1), m) else copystrFrom e n (i + 1) m

/-- `copyinstr` and `copyoutstr`; the length found is what they return in `actual`. -/
def copyString (userptr : Vaddr) (len : Word) (m : UserMem) : Except Errno Nat × UserMem :=
  match copycheck userptr len.toNat with
  | .error e => (.error e, m)
  | .ok stoplen =>
    copystrFrom move (if stoplen < len.toNat then .efault else .enametoolong)
      (min len.toNat stoplen) 0 m

end model

def copyin (usersrc : Vaddr) : Word → UserMem → Except Errno Unit × UserMem :=
  copyBlock (UserMem.moveIn usersrc) usersrc

def copyout (userdest : Vaddr) : Word → UserMem → Except Errno Unit × UserMem :=
  copyBlock (UserMem.moveOut userdest) userdest

def copyinstr (usersrc : Vaddr) : Word → UserMem → Except Errno Nat × UserMem :=
  copyString (UserMem.moveIn usersrc) usersrc

def copyoutstr (userdest : Vaddr) : Word → UserMem → Except Errno Nat × UserMem :=
  copyString (UserMem.moveOut userdest) userdest

variable {p : Vaddr} {len : Word}

/-- The inclusive top of an empty block is below its bottom, except at 0, where it wraps. -/
theorem copycheck_zero : copycheck p 0 = if p = 0#32 then .ok 2147483648 else .error .efault := by
  unfold copycheck
  by_cases hp : p = 0#32
  · subst hp
    rfl
  · have hlt : p + ofNat 32 0 - 1#32 < p := by bv_omega
    rw [if_pos hlt, if_neg hp]

theorem copycheck_pos (hlen : 0 < len.toNat) :
    copycheck p len.toNat =
      if p.toNat < 2147483648 ∧ p.toNat + len.toNat ≤ 2 ^ 32 then
        .ok (min len.toNat (2147483648 - p.toNat)) else .error .efault := by
  have htop : (p + ofNat 32 len.toNat - 1#32).toNat =
      (p.toNat + len.toNat - 1) % 2 ^ 32 := by
    bv_omega
  simp only [copycheck, lt_def, le_def, htop, toNat_userstack]
  by_cases huser : p.toNat < 2147483648
  · have hsub : (userstack - p).toNat = 2147483648 - p.toNat := by
      have := toNat_userstack
      bv_omega
    by_cases hfit : p.toNat + len.toNat ≤ 2 ^ 32
    · have hmod : (p.toNat + len.toNat - 1) % 2 ^ 32 = p.toNat + len.toNat - 1 :=
        Nat.mod_eq_of_lt (by omega)
      rw [hmod, hsub, if_neg (by omega), if_neg (by omega),
        if_pos (show p.toNat < 2147483648 ∧ _ from ⟨huser, hfit⟩)]
      split
      · rw [Nat.min_eq_right (by omega)]
      · rw [Nat.min_eq_left (by omega)]
    · rw [if_pos (by omega), if_neg (by omega)]
  · rw [if_neg (show ¬(p.toNat < 2147483648 ∧ _) by omega)]
    split
    · rfl
    · rw [if_pos (by omega)]

/-- Up to `n`, a call of `move` for the `i`th byte finds `bytes i`, and takes the memory in which
`i` bytes have been copied to that with one more. -/
def Moves (move : UserMem → Nat → Option (Byte × UserMem)) (bytes : Nat → Byte)
    (copied : Nat → UserMem) (n : Nat) : Prop :=
  ∀ i < n, move (copied i) i = some (bytes i, copied (i + 1))

section loops
variable {move : UserMem → Nat → Option (Byte × UserMem)} {bytes : Nat → Byte}
  {copied : Nat → UserMem} {n k i : Nat} {e : Errno}

theorem memcpyFrom_moves (hm : Moves move bytes copied n) (hk : i + k ≤ n) :
    memcpyFrom move k i (copied i) = (true, copied (i + k)) := by
  induction k generalizing i with
  | zero => rfl
  | succ k ih =>
    rw [memcpyFrom, hm i (by omega)]
    simp only
    rw [ih (by omega), Nat.add_assoc, Nat.add_comm 1 k]

/-- The loop stops at the first NUL, -/
theorem copystrFrom_found (hm : Moves move bytes copied n) (hi : i ≤ k) (hk : k < n) {limit : Nat}
    (hlimit : k < i + limit) (hnul : bytes k = 0#8) (hfirst : ∀ j, i ≤ j → j < k → bytes j ≠ 0#8) :
    copystrFrom move e limit i (copied i) = (.ok (k + 1), copied (k + 1)) := by
  induction limit generalizing i with
  | zero => omega
  | succ limit ih =>
    rw [copystrFrom, hm i (by omega)]
    simp only
    by_cases heq : i = k
    · subst heq
      rw [if_pos hnul]
    · rw [if_neg (hfirst i (Nat.le_refl i) (by omega))]
      exact ih (by omega) (by omega) fun j hj => hfirst j (by omega)

/-- and runs to the limit if there is none. -/
theorem copystrFrom_none (hm : Moves move bytes copied n) (hk : i + k ≤ n)
    (hnone : ∀ j, i ≤ j → j < i + k → bytes j ≠ 0#8) :
    copystrFrom move e k i (copied i) = (.error e, copied (i + k)) := by
  induction k generalizing i with
  | zero => rfl
  | succ k ih =>
    rw [copystrFrom, hm i (by omega)]
    simp only
    rw [if_neg (hnone i (Nat.le_refl i) (by omega)),
      ih (by omega) fun j hj hlt => hnone j (by omega) (by omega), Nat.add_assoc, Nat.add_comm 1 k]

end loops

namespace UserMem

/-- After `n` bytes have come in from `p`. -/
def copiedIn (m : UserMem) (p : Vaddr) (n : Nat) : UserMem :=
  { m with buf := fun i => if i < n then (m.user (p + ofNat 32 i)).getD 0#8 else m.buf i }

/-- After `n` bytes have gone out to `p`. -/
def copiedOut (m : UserMem) (p : Vaddr) (n : Nat) : UserMem :=
  { m with user := fun a => if (a - p).toNat < n then some (m.buf (a - p).toNat) else m.user a }

/-- All of user memory can be reached. -/
def Accessible (m : UserMem) : Prop := ∀ a : Vaddr, a < userstack → m.user a ≠ none

variable {m : UserMem} {i : Nat}

/-- The byte at `p + i`. -/
def byteAt (m : UserMem) (p : Vaddr) (i : Nat) : Byte := (m.user (p + ofNat 32 i)).getD 0#8

theorem lt_userstack (h : p.toNat + i < 2147483648) : p + ofNat 32 i < userstack := by
  have := toNat_userstack
  bv_omega

theorem Accessible.user_eq (hm : m.Accessible) (h : p.toNat + i < 2147483648) :
    m.user (p + ofNat 32 i) = some (m.byteAt p i) := by
  obtain ⟨b, hb⟩ := Option.ne_none_iff_exists'.1 (hm _ (lt_userstack h))
  rw [byteAt, hb]
  rfl

theorem moves_in (hm : m.Accessible) :
    Moves (moveIn p) (m.byteAt p) (m.copiedIn p) (2147483648 - p.toNat) := by
  intro i hi
  have hb := hm.user_eq (p := p) (i := i) (by omega)
  have hbuf : Function.update (m.copiedIn p i).buf i (m.byteAt p i) =
      (m.copiedIn p (i + 1)).buf := by
    funext j
    by_cases hj : j = i
    · subst hj
      simp [copiedIn, byteAt]
    · rw [Function.update_of_ne hj]
      have : j < i ↔ j < i + 1 := by omega
      simp only [copiedIn, this]
  change (m.user _).map _ = _
  rw [hb, Option.map_some, hbuf]
  rfl

theorem moves_out (hm : m.Accessible) :
    Moves (moveOut p) m.buf (m.copiedOut p) (2147483648 - p.toNat) := by
  intro i hi
  have hoff : (p + ofNat 32 i - p).toNat = i := by bv_omega
  have hold : (m.copiedOut p i).user (p + ofNat 32 i) = some (m.byteAt p i) := by
    simp only [copiedOut, hoff, Nat.lt_irrefl, if_false]
    exact hm.user_eq (by omega)
  have huser : Function.update (m.copiedOut p i).user (p + ofNat 32 i) (some (m.buf i)) =
      (m.copiedOut p (i + 1)).user := by
    funext a
    by_cases ha : a = p + ofNat 32 i
    · subst ha
      rw [Function.update_self]
      simp only [copiedOut, hoff, Nat.lt_succ_self, if_true]
    · rw [Function.update_of_ne ha]
      have hne : (a - p).toNat ≠ i := fun h => ha (by bv_omega)
      have : (a - p).toNat < i ↔ (a - p).toNat < i + 1 := by omega
      simp only [copiedOut, this]
  unfold moveOut
  simp only [hold, Option.map_some]
  rw [show (m.copiedOut p i).buf = m.buf from rfl, huser]
  rfl

end UserMem

/-- `[p, p + len)` lies within `[0, USERTOP)`. -/
def InUser (p : Vaddr) (len : Word) : Prop :=
  ∀ a, p.toNat ≤ a → a < p.toNat + len.toNat → a < userstack.toNat

theorem inUser_iff (hlen : 0 < len.toNat) : InUser p len ↔ p.toNat + len.toNat ≤ 2147483648 := by
  rw [InUser, toNat_userstack]
  constructor
  · intro h
    have := h (p.toNat + len.toNat - 1) (by omega) (by omega)
    omega
  · omega

theorem inUser_zero : InUser p 0#32 := fun a h ha => by
  rw [BitVec.toNat_ofNat] at ha
  omega

/-- A block within user memory is copied and another one is refused. -/
def BlockExact (p : Vaddr) (len : Word) (copied : Nat → UserMem)
    (r : Except Errno Unit × UserMem) : Prop :=
  (InUser p len → r = (.ok (), copied len.toNat)) ∧ (¬InUser p len → r = (.error .efault, copied 0))

section spec
variable {move : UserMem → Nat → Option (Byte × UserMem)} {bytes : Nat → Byte}
  {copied : Nat → UserMem} {m : UserMem}

theorem copyBlock_zero : copyBlock move p 0#32 m = (.error .efault, m) := by
  have hzero : (0#32).toNat = 0 := rfl
  unfold copyBlock
  rw [hzero, copycheck_zero]
  by_cases hp : p = 0#32
  · rw [if_pos hp]
    rfl
  · rw [if_neg hp]

theorem copyBlock_exact_iff (hm : Moves move bytes copied (2147483648 - p.toNat)) :
    BlockExact p len copied (copyBlock move p len (copied 0)) ↔ len ≠ 0#32 := by
  constructor
  · rintro ⟨hin, -⟩ rfl
    have := hin inUser_zero
    rw [copyBlock_zero] at this
    cases this
  intro hne
  have hpos : 0 < len.toNat := by bv_omega
  rw [BlockExact, inUser_iff hpos]
  unfold copyBlock
  rw [copycheck_pos hpos]
  refine ⟨fun hin => ?_, fun hout => ?_⟩
  · rw [if_pos (by omega)]
    simp only
    rw [if_neg (by omega), memcpyFrom_moves hm (by omega), Nat.zero_add]
    rfl
  · by_cases hcheck : p.toNat < 2147483648 ∧ p.toNat + len.toNat ≤ 2 ^ 32
    · rw [if_pos hcheck]
      simp only
      rw [if_pos (by omega)]
    · rw [if_neg hcheck]

end spec

/-- No NUL at `p` below USERTOP. -/
def Unterminated (p : Vaddr) (bytes : Nat → Byte) : Prop :=
  ∀ k, p.toNat + k < userstack.toNat → bytes k ≠ 0#8

/-- What copying a string of at most `len` bytes at `p` is to return. -/
structure StringExact (p : Vaddr) (len : Word) (bytes : Nat → Byte) (copied : Nat → UserMem)
    (r : Except Errno Nat × UserMem) : Prop where
  ok_iff : ∀ n, r.1 = .ok n ↔ ∃ k, n = k + 1 ∧ k < len.toNat ∧ p.toNat + k < userstack.toNat ∧
    bytes k = 0#8 ∧ ∀ j < k, bytes j ≠ 0#8
  copied_ok : ∀ n, r.1 = .ok n → r.2 = copied n
  enametoolong_iff : r.1 = .error .enametoolong ↔ p < userstack ∧
    p.toNat + len.toNat ≤ userstack.toNat ∧ ∀ k < len.toNat, bytes k ≠ 0#8
  efault_iff : r.1 = .error .efault ↔ userstack ≤ p ∨
    userstack.toNat < p.toNat + len.toNat ∧ Unterminated p bytes

/-- The length is not 0 (but for the pointer 0), and `p + len` does not wrap unless there is no
string anyway; or `p` is no user address. -/
def StringSafe (p : Vaddr) (len : Word) (bytes : Nat → Byte) : Prop :=
  userstack ≤ p ∨ len = 0#32 ∧ p = 0#32 ∨
    len ≠ 0#32 ∧ (p.toNat + len.toNat ≤ 2 ^ 32 ∨ Unterminated p bytes)

section strings
variable {move : UserMem → Nat → Option (Byte × UserMem)} {bytes : Nat → Byte}
  {copied : Nat → UserMem} {m : UserMem} {k n : Nat}

theorem exists_first_nul (h : ¬∀ k < n, bytes k ≠ 0#8) :
    ∃ k < n, bytes k = 0#8 ∧ ∀ j < k, bytes j ≠ 0#8 := by
  have hex : ∃ k, k < n ∧ bytes k = 0#8 := by
    simpa using h
  refine ⟨Nat.find hex, (Nat.find_spec hex).1, (Nat.find_spec hex).2, fun j hj hz => ?_⟩
  exact Nat.find_min hex hj ⟨Nat.lt_trans hj (Nat.find_spec hex).1, hz⟩

theorem first_nul_unique {k k' : Nat} (hk : bytes k = 0#8) (hmin : ∀ j < k, bytes j ≠ 0#8)
    (hk' : bytes k' = 0#8) (hmin' : ∀ j < k', bytes j ≠ 0#8) : k = k' := by
  obtain hlt | heq | hgt := Nat.lt_trichotomy k k'
  · exact absurd hk (hmin' k hlt)
  · exact heq
  · exact absurd hk' (hmin k' hgt)

theorem StringExact.found (hlen : k < len.toNat) (huser : p.toNat + k < userstack.toNat)
    (hk : bytes k = 0#8) (hmin : ∀ j < k, bytes j ≠ 0#8) :
    StringExact p len bytes copied (.ok (k + 1), copied (k + 1)) where
  ok_iff n := by
    constructor
    · intro h
      cases h
      exact ⟨k, rfl, hlen, huser, hk, hmin⟩
    · rintro ⟨k', rfl, -, -, hk', hmin'⟩
      rw [first_nul_unique hk hmin hk' hmin']
  copied_ok n h := by
    cases h
    rfl
  enametoolong_iff := by
    refine ⟨fun h => (by cases h), fun h => absurd hk (h.2.2 k hlen)⟩
  efault_iff := by
    refine ⟨fun h => (by cases h), ?_⟩
    rintro (hle | ⟨-, hun⟩)
    · rw [le_def] at hle
      omega
    · exact absurd hk (hun k huser)

theorem StringExact.tooLong (huser : p < userstack) (hfit : p.toNat + len.toNat ≤ userstack.toNat)
    (hnone : ∀ k < len.toNat, bytes k ≠ 0#8) :
    StringExact p len bytes copied (.error .enametoolong, m) where
  ok_iff n := by
    refine ⟨fun h => (by cases h), ?_⟩
    rintro ⟨k, -, hk, -, hz, -⟩
    exact absurd hz (hnone k hk)
  copied_ok n h := by cases h
  enametoolong_iff := ⟨fun _ => ⟨huser, hfit, hnone⟩, fun _ => rfl⟩
  efault_iff := by
    refine ⟨fun h => (by cases h), ?_⟩
    rintro (hle | ⟨hlt, -⟩)
    · rw [le_def] at hle
      rw [lt_def] at huser
      omega
    · omega

theorem StringExact.fault (h : userstack ≤ p ∨
    userstack.toNat < p.toNat + len.toNat ∧ Unterminated p bytes) :
    StringExact p len bytes copied (.error .efault, m) where
  ok_iff n := by
    refine ⟨fun h => (by cases h), ?_⟩
    rintro ⟨k, -, -, huser, hz, -⟩
    obtain hle | ⟨-, hun⟩ := h
    · rw [le_def] at hle
      omega
    · exact absurd hz (hun k huser)
  copied_ok n h := by cases h
  enametoolong_iff := by
    refine ⟨fun h => (by cases h), ?_⟩
    rintro ⟨hlt, hfit, -⟩
    obtain hle | ⟨hover, -⟩ := h
    · rw [le_def] at hle
      rw [lt_def] at hlt
      omega
    · omega
  efault_iff := ⟨fun _ => h, fun _ => rfl⟩

theorem copyString_zero : copyString move p 0#32 m =
    if p = 0#32 then (.error .enametoolong, m) else (.error .efault, m) := by
  have hzero : (0#32).toNat = 0 := rfl
  unfold copyString
  rw [hzero, copycheck_zero]
  by_cases hp : p = 0#32
  · rw [if_pos hp, if_pos hp]
    rfl
  · rw [if_neg hp, if_neg hp]

theorem copyString_refused (hlen : 0 < len.toNat)
    (h : ¬(p.toNat < 2147483648 ∧ p.toNat + len.toNat ≤ 2 ^ 32)) :
    copyString move p len m = (.error .efault, m) := by
  unfold copyString
  rw [copycheck_pos hlen, if_neg h]

/-- Past the check, the loop tells the three cases apart. -/
theorem copyString_exact (hm : Moves move bytes copied (2147483648 - p.toNat))
    (hlen : 0 < len.toNat) (huser : p.toNat < 2147483648) (hfit : p.toNat + len.toNat ≤ 2 ^ 32) :
    StringExact p len bytes copied (copyString move p len (copied 0)) := by
  have htop := toNat_userstack
  unfold copyString
  rw [copycheck_pos hlen, if_pos ⟨huser, hfit⟩]
  simp only
  by_cases hnone : ∀ k < min len.toNat (2147483648 - p.toNat), bytes k ≠ 0#8
  · rw [copystrFrom_none hm (by omega) fun j _ hj => hnone j (by omega)]
    split
    · exact .fault (.inr ⟨by omega, fun k hk => hnone k (by omega)⟩)
    · exact .tooLong (by rw [lt_def]; omega) (by omega) fun k hk => hnone k (by omega)
  · obtain ⟨k, hk, hz, hmin⟩ := exists_first_nul hnone
    rw [copystrFrom_found hm (Nat.zero_le k) (by omega) (by omega) hz fun j _ => hmin j]
    exact .found (by omega) (by omega) hz hmin

theorem copyString_exact_iff (hm : Moves move bytes copied (2147483648 - p.toNat)) :
    StringExact p len bytes copied (copyString move p len (copied 0)) ↔ StringSafe p len bytes := by
  have htop := toNat_userstack
  have hkernel : userstack ≤ p ↔ 2147483648 ≤ p.toNat := by rw [le_def, htop]
  by_cases hzero : len = 0#32
  · subst hzero
    rw [copyString_zero, StringSafe]
    have hnat : (0#32).toNat = 0 := rfl
    by_cases hp : p = 0#32
    · subst hp
      refine ⟨fun _ => .inr (.inl ⟨rfl, rfl⟩), fun _ => ?_⟩
      exact .tooLong (by decide) (by decide) fun k hk => absurd hk (Nat.not_lt_zero k)
    rw [if_neg hp]
    constructor
    · intro h
      obtain hle | ⟨hover, -⟩ := h.efault_iff.1 rfl
      · exact .inl hle
      · exact .inl (hkernel.2 (by omega))
    · rintro (hle | ⟨-, h⟩ | ⟨h, -⟩)
      · exact .fault (.inl hle)
      · exact absurd h hp
      · exact absurd rfl h
  · have hpos : 0 < len.toNat := by bv_omega
    by_cases hcheck : p.toNat < 2147483648 ∧ p.toNat + len.toNat ≤ 2 ^ 32
    · have hexact := copyString_exact hm hpos hcheck.1 hcheck.2
      exact ⟨fun _ => .inr (.inr ⟨hzero, .inl hcheck.2⟩), fun _ => hexact⟩
    rw [copyString_refused hpos hcheck]
    constructor
    · intro h
      obtain hle | ⟨-, hun⟩ := h.efault_iff.1 rfl
      · exact .inl hle
      · exact .inr (.inr ⟨hzero, .inr hun⟩)
    rintro (hle | ⟨h, -⟩ | ⟨-, hfit | hun⟩)
    · exact .fault (.inl hle)
    · exact absurd h hzero
    · exact .fault (.inl (hkernel.2 (by omega)))
    by_cases hk : 2147483648 ≤ p.toNat
    · exact .fault (.inl (hkernel.2 hk))
    · exact .fault (.inr ⟨by omega, hun⟩)

end strings

section main
variable {m : UserMem}

/-- With all of user memory accessible, a block is copied whole where it lies in user memory and
refused elsewhere, except that empty blocks are refused everywhere; and a string is found, too long
or running into the kernel as its bytes say, except where the length is 0 or wraps. -/
theorem copies_exact_iff (hm : m.Accessible) (p : Vaddr) (len : Word) :
    (BlockExact p len (m.copiedIn p) (copyin p len m) ↔ len ≠ 0#32) ∧
    (BlockExact p len (m.copiedOut p) (copyout p len m) ↔ len ≠ 0#32) ∧
    (StringExact p len (m.byteAt p) (m.copiedIn p) (copyinstr p len m) ↔
      StringSafe p len (m.byteAt p)) :=
  ⟨copyBlock_exact_iff (UserMem.moves_in hm), copyBlock_exact_iff (UserMem.moves_out hm),
    copyString_exact_iff (UserMem.moves_in hm)⟩

/-- The same for strings that go out. -/
theorem copyoutstr_exact_iff (hm : m.Accessible) (p : Vaddr) (len : Word) :
    StringExact p len m.buf (m.copiedOut p) (copyoutstr p len m) ↔ StringSafe p len m.buf :=
  copyString_exact_iff (UserMem.moves_out hm)

end main

/-- The string "hi" at 8192 in user memory and in the buffer, and NULs elsewhere. -/
def hiMem : UserMem :=
  ⟨fun p => some ([104#8, 105#8].getD (p - 8192#32).toNat 0#8), ([104#8, 105#8].getD · 0#8)⟩

theorem hiMem_accessible : hiMem.Accessible := fun _ _ h => by cases h

theorem copyoutstr_exact_hi : (copyoutstr 64#32 8#32 hiMem).1 = .ok 3 ∧
    StringExact 64#32 8#32 hiMem.buf (hiMem.copiedOut 64#32) (copyoutstr 64#32 8#32 hiMem) :=
  ⟨by decide, (copyoutstr_exact_iff hiMem_accessible _ _).mpr
    (.inr (.inr ⟨by decide, .inl (by decide)⟩))⟩

theorem copies_exact_iff_hi :
    BlockExact 8192#32 16#32 (hiMem.copiedIn 8192#32) (copyin 8192#32 16#32 hiMem) ∧
    BlockExact 8192#32 16#32 (hiMem.copiedOut 8192#32) (copyout 8192#32 16#32 hiMem) ∧
    (copyinstr 8192#32 16#32 hiMem).1 = .ok 3 ∧
    StringExact 8192#32 16#32 (hiMem.byteAt 8192#32) (hiMem.copiedIn 8192#32)
      (copyinstr 8192#32 16#32 hiMem) :=
  have h := copies_exact_iff hiMem_accessible 8192#32 16#32
  ⟨h.1.2 (by decide), h.2.1.2 (by decide), by decide,
    h.2.2.2 (.inr (.inr ⟨by decide, .inl (by decide)⟩))⟩

/-- An empty block in the middle of user memory is refused; so is an empty string there when
the length given for it is the largest, although it ends at once. -/
theorem empty_copy_faults :
    InUser 4096#32 0#32 ∧ copyin 4096#32 0#32 hiMem = (.error .efault, hiMem) ∧
    copyout 4096#32 0#32 hiMem = (.error .efault, hiMem) ∧
    hiMem.byteAt 4096#32 0 = 0#8 ∧
    copyinstr 4096#32 0xffffffff#32 hiMem = (.error .efault, hiMem) :=
  ⟨inUser_zero, copyBlock_zero, copyBlock_zero, rfl, copyString_refused (by decide) (by decide)⟩

end OS161
