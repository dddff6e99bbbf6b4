import OS161.Fs.Uio

/-! A turn of `uiomove` is bounded by the buffer and by `n`, and not by the amount that is left. -/
namespace OS161

open Buffer

/-- The uio after `m` bytes, with no number wrapped. -/
def Uio.after (u : Uio) (m : Nat) : Uio :=
  { u with
    base := u.base + m
    len := u.len - m
    offset := u.offset + m
    resid := u.resid - m }

/-- The first `m` bytes of one buffer are in the other. -/
def Xfer.transferred (x : Xfer) (ptr : Buf) (m : Nat) : Buf × Xfer :=
  match x.uio.rw with
  | .read => (ptr, ⟨blit x.mem x.uio.base ptr 0 m, x.uio.after m⟩)
  | .write => (blit ptr 0 x.mem x.uio.base m, ⟨x.mem, x.uio.after m⟩)

/-- A call asks for no more than is left, or the buffer ends with what is left. -/
def Uio.Bounded (u : Uio) (n : Nat) : Prop :=
  (n ≤ u.resid ∨ u.resid = 0 ∨ u.resid = u.len) ∧ u.offset + min n u.resid < 2 ^ 31

section spec
variable {ptr : Buf} {n m n₁ n₂ : Nat} {x : Xfer} {u : Uio}

theorem Uio.Ok.offset_ge (h : u.Ok) : -2 ^ 31 ≤ u.offset := by
  have hge := Int.le_bmod (x := u.offset) (m := 2 ^ 32) (by decide)
  have hoff : u.offset.bmod (2 ^ 32) = u.offset := h.offset_ok
  omega

theorem offT_eq_iff {a : Int} (ha : -2 ^ 31 ≤ a) : offT a = a ↔ a < 2 ^ 31 := by
  refine ⟨fun h => ?_, offT_eq ha⟩
  have hlt := Int.bmod_lt (x := a) (m := 2 ^ 32) (by decide)
  have hoff : a.bmod (2 ^ 32) = a := h
  omega

theorem moved_uio : (x.moved ptr m).2.uio = x.uio.advance m := by
  unfold Xfer.moved
  split <;> rfl

theorem transferred_uio : (x.transferred ptr m).2.uio = x.uio.after m := by
  unfold Xfer.transferred
  split <;> rfl

theorem advance_eq_after (hoff : offT (u.offset + m) = u.offset + m) : u.advance m = u.after m := by
  rw [Uio.advance, Uio.after, hoff]

/-- The offset is the number that may wrap. -/
theorem moved_eq_transferred_iff (h : x.uio.Ok) :
    x.moved ptr m = x.transferred ptr m ↔ x.uio.offset + m < 2 ^ 31 := by
  have hge := h.offset_ge
  rw [← offT_eq_iff (by omega)]
  constructor
  · intro heq
    have huio := congrArg (fun r : Buf × Xfer => r.2.uio.offset) heq
    simp only [moved_uio, transferred_uio] at huio
    exact huio
  · intro hoff
    unfold Xfer.moved Xfer.transferred
    cases x.uio.rw <;> simp only [advance_eq_after hoff]

theorem uiomove_nothing (h : x.uio.Ok) (hres : x.uio.resid = 0) :
    uiomove ptr n x = .ok (x.moved ptr 0) := by
  have hmoved : x.moved ptr 0 = (ptr, x) := by
    rw [Xfer.moved, advance_zero h]
    cases x.uio.rw <;> simp
  rw [hmoved]
  cases n with
  | zero => rfl
  | succ n =>
    rw [uiomove, uiomoveLoop, if_neg]
    rw [hres]
    exact fun h => absurd h.2 (Nat.lt_irrefl 0)

theorem uiomove_turn (hn : 0 < n) (hres : 0 < x.uio.resid) (hlen : 0 < x.uio.len) :
    uiomove ptr n x = uiomoveLoop (n - 1) (x.move ptr 0 (min x.uio.len n)).1 (min x.uio.len n)
      (n - min x.uio.len n) (x.move ptr 0 (min x.uio.len n)).2 := by
  cases n with
  | zero => omega
  | succ n =>
    rw [uiomove, uiomoveLoop, if_pos ⟨hn, hres⟩]
    simp only [Nat.zero_add, Nat.add_sub_cancel]
    rw [if_neg (by omega)]

variable {done m₁ m₂ : Nat}

theorem move_uio : (x.move ptr done m).2.uio =
    { x.uio with
      base := x.uio.base + m
      len := sizeSub x.uio.len m
      offset := offT (x.uio.offset + m)
      resid := sizeSub x.uio.resid m } := by
  unfold Xfer.move
  split <;> rfl

theorem move_eq_moved (h : x.uio.Ok) (hm : m ≤ x.uio.resid) : x.move ptr 0 m = x.moved ptr m := by
  have hle := h.resid_le
  have hlt := h.len_lt
  rw [Xfer.move, sizeSub_of_le (by omega) hlt, sizeSub_of_le hm (by omega)]
  rfl

theorem uiomoveLoop_stop {fuel : Nat} (hstop : ¬ (0 < n ∧ 0 < x.uio.resid)) :
    uiomoveLoop fuel ptr done n x = .ok (ptr, x) := by
  cases fuel with
  | zero => rfl
  | succ fuel => rw [uiomoveLoop, if_neg hstop]

/-- A call for more than is left, where the buffer ends there too. -/
theorem uiomove_all (h : x.uio.Ok) (hres : 0 < x.uio.resid) (hlen : x.uio.resid = x.uio.len)
    (hn : x.uio.resid < n) : uiomove ptr n x = .ok (x.moved ptr x.uio.resid) := by
  rw [uiomove_turn (by omega) hres (by omega), Nat.min_eq_left (by omega), ← hlen,
    move_eq_moved h (Nat.le_refl _), uiomoveLoop_stop]
  rw [moved_uio]
  simp only [Uio.advance]
  omega

/-- A call for more than is left, where the buffer goes on: it ends in a panic, or what is left is a
number below zero. -/
theorem uiomove_past (h : x.uio.Ok) (hn : n < 2 ^ 32) (hres : 0 < x.uio.resid)
    (hlen : x.uio.resid < x.uio.len) (hpast : x.uio.resid < n) :
    uiomove ptr n x = .error .panic ∨ ∃ r, uiomove ptr n x = .ok r ∧ r.2.uio.resid ≠ 0 := by
  have hlt := h.len_lt
  have hwrap : sizeSub x.uio.resid (min x.uio.len n) ≠ 0 := by
    unfold sizeSub
    omega
  rw [uiomove_turn (by omega) hres (by omega)]
  by_cases hfits : n ≤ x.uio.len
  · refine .inr ⟨_, uiomoveLoop_stop (by omega), ?_⟩
    rw [move_uio]
    exact hwrap
  rw [Nat.min_eq_left (by omega)] at hwrap ⊢
  obtain ⟨k, hk⟩ : ∃ k, n - 1 = k + 1 := ⟨n - 2, by omega⟩
  rw [hk, uiomoveLoop, if_pos]
  · refine .inl (if_pos ?_)
    rw [move_uio]
    simp only [sizeSub_of_le (Nat.le_refl _) hlt, Nat.sub_self, Nat.zero_min]
  · rw [move_uio]
    exact ⟨by omega, Nat.pos_of_ne_zero hwrap⟩

/-- What a call does when its turn does not go past what is left. -/
theorem uiomove_moved (h : x.uio.Ok)
    (hn : n ≤ x.uio.resid ∨ x.uio.resid = 0 ∨ x.uio.resid = x.uio.len) :
    uiomove ptr n x = .ok (x.moved ptr (min n x.uio.resid)) := by
  by_cases hle : n ≤ x.uio.resid
  · rw [Nat.min_eq_left hle]
    exact uiomove_eq h hle
  rw [Nat.min_eq_right (by omega)]
  by_cases hzero : x.uio.resid = 0
  · rw [hzero]
    exact uiomove_nothing h hzero
  · exact uiomove_all h (by omega) (by omega) (by omega)

theorem uiomove_transfers_iff (h : x.uio.Ok) (hn : n < 2 ^ 32) :
    uiomove ptr n x = .ok (x.transferred ptr (min n x.uio.resid)) ↔ x.uio.Bounded n := by
  have hle := h.resid_le
  by_cases hcase : n ≤ x.uio.resid ∨ x.uio.resid = 0 ∨ x.uio.resid = x.uio.len
  · rw [uiomove_moved h hcase, Except.ok.injEq, moved_eq_transferred_iff h]
    exact (and_iff_right hcase).symm
  refine ⟨fun heq => ?_, fun hb => absurd hb.1 hcase⟩
  obtain hrun | ⟨r, hrun, hne⟩ : uiomove ptr n x = .error .panic ∨
      ∃ r, uiomove ptr n x = .ok r ∧ r.2.uio.resid ≠ 0 :=
    uiomove_past h hn (by omega) (by omega) (by omega)
  · cases hrun.symm.trans heq
  cases hrun.symm.trans heq
  rw [transferred_uio] at hne
  simp only [Uio.after] at hne
  omega

theorem Uio.Bounded.mono (hb : u.Bounded n) (hm : m ≤ n) : u.Bounded m := by
  obtain ⟨hn, hoff⟩ := hb
  exact ⟨by omega, by omega⟩

/-- The second of two calls is bounded as well. -/
theorem Uio.Bounded.rest (hb : u.Bounded (n₁ + n₂)) : (u.after (min n₁ u.resid)).Bounded n₂ := by
  obtain ⟨hn, hoff⟩ := hb
  refine ⟨?_, ?_⟩
  · simp only [Uio.after]
    omega
  · simp only [Uio.after]
    omega

theorem Uio.Ok.after (h : u.Ok) (hoff : u.offset + m < 2 ^ 31) : (u.after m).Ok := by
  have hge := h.offset_ge
  rw [← advance_eq_after (offT_eq (by omega) hoff)]
  exact h.advance

theorem after_after : (u.after m₁).after m₂ = u.after (m₁ + m₂) := by
  simp only [Uio.after, Uio.mk.injEq, and_true]
  omega

/-- The kernel's buffer after the calls `uiomove(ptr, n, uio)` and `uiomove(ptr + n, k, uio)`. -/
def joined (n : Nat) (first second : Buf) : Buf := fun i =>
  if i < n then first i else second (i - n)

theorem transferred_transferred (hm : m₁ = n₁ ∨ m₂ = 0) (hle : m₁ ≤ n₁) :
    x.transferred ptr (m₁ + m₂) =
      (joined n₁ (x.transferred ptr m₁).1
        ((x.transferred ptr m₁).2.transferred (fun i => (x.transferred ptr m₁).1 (n₁ + i)) m₂).1,
        ((x.transferred ptr m₁).2.transferred (fun i => (x.transferred ptr m₁).1 (n₁ + i))
          m₂).2) := by
  have hrw : (x.uio.after m₁).rw = x.uio.rw := rfl
  unfold Xfer.transferred
  cases hcase : x.uio.rw with
  | read =>
    simp only [hrw, hcase, after_after, Prod.mk.injEq, Xfer.mk.injEq, and_true]
    constructor
    · funext i
      rw [joined]
      split
      · rfl
      · rw [Nat.add_sub_cancel' (by omega)]
    · rw [← blit_append]
      refine blit_congr fun k hk => ?_
      congr 1
      omega
  | write =>
    simp only [hrw, hcase, after_after, Prod.mk.injEq, and_true]
    funext i
    simp only [joined, blit, Uio.after]
    split_ifs <;> first | rfl | omega | (congr 1; omega)

/-- `uiomove` moves as many bytes as are asked for and left, and counts them, exactly if it is
bounded by what is left; then two calls do what one does. -/
theorem uiomove_exact_iff (h : x.uio.Ok) (hn : n < 2 ^ 32) :
    (uiomove ptr n x = .ok (x.transferred ptr (min n x.uio.resid)) ↔ x.uio.Bounded n) ∧
      (x.uio.Bounded n → ∀ n₁ n₂, n = n₁ + n₂ → ∃ ptr₁ x₁ ptr₂ x₂,
        uiomove ptr n₁ x = .ok (ptr₁, x₁) ∧
        uiomove (fun i => ptr₁ (n₁ + i)) n₂ x₁ = .ok (ptr₂, x₂) ∧
        uiomove ptr n x = .ok (joined n₁ ptr₁ ptr₂, x₂)) := by
  refine ⟨uiomove_transfers_iff h hn, ?_⟩
  rintro hb n₁ n₂ rfl
  have hb₁ : x.uio.Bounded n₁ := hb.mono (by omega)
  have huio : (x.transferred ptr (min n₁ x.uio.resid)).2.uio =
      x.uio.after (min n₁ x.uio.resid) := transferred_uio
  have hb₂ := hb.rest
  rw [← huio] at hb₂
  have h₂ : (x.transferred ptr (min n₁ x.uio.resid)).2.uio.Ok := by
    rw [huio]
    exact h.after (by simpa using hb₁.2)
  refine ⟨_, _, _, _, (uiomove_transfers_iff h (by omega)).mpr hb₁,
    (uiomove_transfers_iff h₂ (by omega)).mpr hb₂, ?_⟩
  have hsum : min (n₁ + n₂) x.uio.resid = min n₁ x.uio.resid +
      min n₂ (x.transferred ptr (min n₁ x.uio.resid)).2.uio.resid := by
    rw [huio]
    simp only [Uio.after]
    omega
  have hsplit : min n₁ x.uio.resid = n₁ ∨
      min n₂ (x.transferred ptr (min n₁ x.uio.resid)).2.uio.resid = 0 := by
    rw [huio]
    simp only [Uio.after]
    omega
  rw [(uiomove_transfers_iff h hn).mpr hb, hsum,
    transferred_transferred hsplit (Nat.min_le_left _ _)]
  rfl

/-- A buffer of two bytes of which one is to be filled. -/
def shortXfer : Xfer := ⟨fun _ => 0#8, ⟨0, 2, 0, 1, .read⟩⟩

theorem uiomove_exact_iff_one :
    uiomove (fun _ => 7#8) 1 shortXfer = .ok (shortXfer.transferred (fun _ => 7#8) 1) := by
  refine ((uiomove_exact_iff (n := 1) ⟨by decide, by decide, by decide⟩ (by decide)).1).mpr ?_
  exact ⟨.inl (by decide), by decide⟩

/-- Asked for two bytes, `uiomove` fills both; `2 ^ 32 - 1` are then left. -/
theorem uiomove_goes_past :
    ∃ r, uiomove (fun _ => 7#8) 2 shortXfer = .ok r ∧ r.2.mem 1 = 7#8 ∧
      r.2.uio.resid = 2 ^ 32 - 1 ∧ r.2.uio.offset = 2 :=
  ⟨_, rfl, rfl, rfl, rfl⟩

end spec

end OS161
