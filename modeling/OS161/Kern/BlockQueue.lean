import OS161.Kern.Containers
import OS161.Kheap.Blocks

/-! `queue.c` on its memory: the size asked for may wrap, and then the block is too short. -/
namespace OS161

/-- The slots of the block that `kmalloc` returns for `n` pointers. -/
def blockSlots (n : Nat) : Nat := Kheap.Block.len ⟨0, n * 4 % 2 ^ 32⟩ / 4

/-- The longest array of pointers whose bytes `kmalloc` rounds up to whole pages. -/
def maxSlots : Nat := 2 ^ 30 - 1024

/-- A block is less than a page longer than what was asked for. -/
theorem len_le {b : Kheap.Block} (hb : b.sz ≤ Kheap.maxRequest) : b.len ≤ b.sz + 4096 := by
  by_cases hsz : b.sz < Kheap.largestSubpageSize
  · have hlt := (Kheap.classOf_spec hsz).2.1
    obtain ⟨-, -, hpage, htwo⟩ := Kheap.sizes_spec hlt
    rw [Kheap.Block.len_small hsz]
    calc Kheap.sizes (Kheap.classOf b.sz)
        ≤ pageSize / Kheap.sizes (Kheap.classOf b.sz) * Kheap.sizes (Kheap.classOf b.sz) :=
          Nat.le_mul_of_pos_left _ (by omega)
      _ = 4096 := hpage
      _ ≤ b.sz + 4096 := Nat.le_add_left _ _
  · rw [Kheap.Block.len_large (Nat.le_of_not_lt hsz), Kheap.npagesFor_eq hb]
    unfold pageSize
    omega

/-- From the wrap on, no page is left of the request. -/
theorem len_eq_zero {b : Kheap.Block} (hb : Kheap.maxRequest < b.sz) (hlt : b.sz < 2 ^ 32) :
    b.len = 0 := by
  unfold Kheap.maxRequest at hb
  have hlarge : Kheap.largestSubpageSize ≤ b.sz := by
    unfold Kheap.largestSubpageSize
    omega
  have hpages : Kheap.Heap.npagesFor b.sz = 0 := by
    unfold Kheap.Heap.npagesFor pageSize
    omega
  rw [Kheap.Block.len_large hlarge, hpages, Nat.zero_mul]

/-- The block is as long as its array exactly if no sum wraps. -/
theorem le_blockSlots_iff {n : Nat} (hn : n < 2 ^ 31) : n ≤ blockSlots n ↔ n ≤ maxSlots := by
  unfold blockSlots maxSlots
  generalize hb : (⟨0, n * 4 % 2 ^ 32⟩ : Kheap.Block) = b
  have hsz : b.sz = n * 4 % 2 ^ 32 := by rw [← hb]
  have hmax : Kheap.maxRequest = 2 ^ 32 - 4096 := rfl
  constructor
  · by_cases hsmall : b.sz ≤ Kheap.maxRequest
    · have hlen := len_le hsmall
      omega
    · have hlen := len_eq_zero (Nat.lt_of_not_le hsmall) (by omega)
      omega
  · intro hle
    have hlen := (Kheap.Block.le_len (b := b) (by omega)).1
    omega

/-- `struct queue` and the number of slots its block has. -/
structure BlockQueue (α : Type) extends Queue α where
  room : Nat

inductive QueueOp (α : Type) where
  | addtail (ptr : α) (mem : Bool)
  | remhead
  | preallocate (size : Int) (mem : Bool)

/-- What a call came to. -/
inductive QueueEvent (α : Type) where
  | addtail (ptr : α)
  | remhead (ptr : α)
  | preallocated
  | refused

namespace BlockQueue
variable {α : Type}

def qCreate (size : Nat) (mem : Bool) : Option (BlockQueue α) :=
  if mem then some ⟨OS161.qCreate size, blockSlots size⟩ else none

variable (q : BlockQueue α)

def load (i : Nat) : Except Crash (Option α) :=
  if i < q.room then .ok (q.data i) else .error .outOfBounds

def put (x : Option α) : Except Crash (BlockQueue α) :=
  if q.nextwrite < q.room then .ok ⟨q.toQueue.put x, q.room⟩ else .error .outOfBounds

/-- The doubling loop of `q_grow`. A positive `int` from 2^30 on doubles to a negative one. -/
def growSize (targetsize : Int) : Nat → Nat → Except Crash Nat
  | 0, _ => .error .hang
  | n + 1, nsize =>
    if nsize < targetsize then
      if nsize * 2 < 2 ^ 31 then growSize targetsize n (nsize * 2) else .error .assertion
    else .ok nsize

/-- The copying loop of `q_grow`. -/
def copyTo : Nat → Nat → BlockQueue α → Except Crash (BlockQueue α)
  | 0, i, new => if i = q.nextwrite then .ok new else .error .hang
  | n + 1, i, new =>
    if i = q.nextwrite then .ok new
    else if new.full then .error .assertion
    else do
      let ptr ← q.load i
      let new ← new.put ptr
      copyTo n ((i + 1) % q.size) new

/-- `q_grow`; a positive `int` is doubled 31 times at most. -/
def qGrow (targetsize : Int) (mem : Bool) : Except Crash (Option Errno × BlockQueue α) := do
  let nsize ← growSize targetsize 32 q.size
  if mem then
    let new ← q.copyTo q.size q.nextread ⟨OS161.qCreate nsize, blockSlots nsize⟩
    .ok (none, new)
  else .ok (some .enomem, q)

def qPreallocate (size : Int) (mem : Bool) : Except Crash (Option Errno × BlockQueue α) :=
  if q.size = 0 then .error .assertion
  else if q.size < size then q.qGrow size mem
  else .ok (none, q)

def qAddtail (ptr : α) (mem : Bool) : Except Crash (Option Errno × BlockQueue α) :=
  if q.size = 0 then .error .assertion
  else if q.full then do
    let (result, q) ← q.qGrow ((q.size + 1 : Int).bmod (2 ^ 32)) mem
    if result = none then
      let q ← q.put (some ptr)
      .ok (none, q)
    else .ok (result, q)
  else do
    let q ← q.put (some ptr)
    .ok (none, q)

def qRemhead : Except Crash (α × BlockQueue α) :=
  if q.size = 0 ∨ q.qEmpty then .error .assertion
  else do
    match ← q.load q.nextread with
    | some ptr => .ok (ptr, { q with nextread := (q.nextread + 1) % q.size })
    | none => .error .badPointer

def op : QueueOp α → Except Crash (QueueEvent α × BlockQueue α)
  | .addtail ptr mem => do
    let (result, q) ← q.qAddtail ptr mem
    .ok (if result = none then .addtail ptr else .refused, q)
  | .remhead => do
    let (ptr, q) ← q.qRemhead
    .ok (.remhead ptr, q)
  | .preallocate size mem => do
    let (result, q) ← q.qPreallocate size mem
    .ok (if result = none then .preallocated else .refused, q)

/-- What callers keep to. -/
def Allowed : QueueOp α → Prop
  | .remhead => q.qEmpty = false
  | _ => True

/-- The slots the ring will have if the call has memory. -/
def asks : QueueOp α → Nat
  | .addtail _ _ => if q.full then q.size * 2 else q.size
  | .remhead => q.size
  | .preallocate size _ => Queue.growSize size.toNat size.toNat q.size

/-- A call in a ring that does not get longer than its block. -/
def Step (q : BlockQueue α) (a : QueueOp α × QueueEvent α) (q' : BlockQueue α) : Prop :=
  q.op a.1 = .ok (a.2, q') ∧ q.Allowed a.1 ∧ q.asks a.1 ≤ maxSlots

end BlockQueue

namespace QueueEvent
variable {α : Type}

def added : QueueEvent α → List α
  | .addtail ptr => [ptr]
  | _ => []

def removed : QueueEvent α → List α
  | .remhead ptr => [ptr]
  | _ => []

end QueueEvent

namespace BlockQueue
variable {α : Type} {q q' : BlockQueue α} {l : List α} {x : α} {m n size : Nat} {mem : Bool}

/-- The ring has the members of the list, and its block has a slot for each of its positions. -/
structure Sound (q : BlockQueue α) (l : List α) : Prop where
  holds : q.toQueue.Holds l
  fits : q.size ≤ q.room
  small : q.size ≤ maxSlots

theorem sound_qCreate (hpos : 0 < size) (hsmall : size ≤ maxSlots)
    (hq : qCreate size mem = some q) : q.Sound [] := by
  unfold qCreate at hq
  split at hq
  · cases hq
    have hlt : size < 2 ^ 31 := hsmall.trans_lt (by decide)
    exact ⟨Queue.holds_qCreate hpos, (le_blockSlots_iff hlt).mpr hsmall, hsmall⟩
  · cases hq

theorem put_eq (hwrite : q.nextwrite < q.size) (hfits : q.size ≤ q.room) (x : Option α) :
    q.put x = .ok ⟨q.toQueue.put x, q.room⟩ := by
  rw [put, if_pos (hwrite.trans_le hfits)]

theorem le_growSize : n ≤ Queue.growSize size m n := by
  induction m generalizing n with
  | zero => exact Nat.le_refl n
  | succ m ih =>
    rw [Queue.growSize]
    split
    · exact (Nat.le_mul_of_pos_right n two_pos).trans ih
    · exact Nat.le_refl n

/-- The loop ends at the size it would have without a largest `int`. -/
theorem growSize_eq {k : Nat} (hn : 0 < n) (hm : size ≤ n + m) (hk : 2 ^ 31 ≤ n * 2 ^ k)
    (hsmall : Queue.growSize size m n < 2 ^ 31) :
    growSize size k n = .ok (Queue.growSize size m n) := by
  induction k generalizing m n with
  | zero =>
    have hle : n ≤ Queue.growSize size m n := le_growSize
    omega
  | succ k ih =>
    rw [growSize]
    by_cases hlt : n < size
    · cases m with
      | zero => omega
      | succ m =>
        rw [Queue.growSize, if_pos hlt] at hsmall ⊢
        have hle : n * 2 ≤ Queue.growSize size m (n * 2) := le_growSize
        rw [if_pos (Int.ofNat_lt.mpr hlt), if_pos (by omega)]
        refine ih (by omega) (by omega) ?_ hsmall
        rw [Nat.mul_assoc, ← Nat.pow_succ']
        exact hk
    · rw [if_neg (by omega)]
      cases m with
      | zero => rfl
      | succ m => rw [Queue.growSize, if_neg hlt]

theorem copyTo_eq (hfits : q.size ≤ q.room) {i : Nat} {new : BlockQueue α} (hi : i < q.size)
    (hwrite : new.nextwrite < new.size) (hnew : new.size ≤ new.room) :
    q.copyTo n i new = (⟨·, new.room⟩) <$> q.toQueue.copyTo n i new.toQueue := by
  induction n generalizing i new with
  | zero =>
    rw [copyTo, Queue.copyTo]
    split <;> rfl
  | succ n ih =>
    rw [copyTo, Queue.copyTo]
    split
    · rfl
    split
    · rfl
    have hnext : (new.nextwrite + 1) % new.size < new.size := Nat.mod_lt _ (by omega)
    rw [load, if_pos (hi.trans_le hfits)]
    change (new.put (q.data i) >>= fun new => q.copyTo n ((i + 1) % q.size) new) = _
    rw [put_eq hwrite hnew]
    exact ih (Nat.mod_lt _ (by omega)) hnext hnew

namespace Sound
variable (hq : q.Sound l)
include hq

theorem size_pos : 0 < q.size := Nat.zero_lt_of_lt hq.holds.read_lt

theorem write_lt : q.nextwrite < q.size := by
  rw [hq.holds.write]
  exact Nat.mod_lt _ hq.size_pos

theorem put (hroom : l.length + 1 < q.size) (x : α) :
    ∃ q', q.put (some x) = .ok q' ∧ q'.Sound (l ++ [x]) :=
  ⟨_, put_eq hq.write_lt hq.fits _, hq.holds.put hroom, hq.fits, hq.small⟩

theorem qGrow (hle : q.size ≤ n) (hsmall : Queue.growSize n n q.size ≤ maxSlots) (mem : Bool) :
    (∃ q', q.qGrow n mem = .ok (none, q') ∧ q'.Sound l ∧ n ≤ q'.size) ∨
      q.qGrow n mem = .ok (some .enomem, q) := by
  have hlt : Queue.growSize n n q.size < 2 ^ 31 := hsmall.trans_lt (by decide)
  have hpos := hq.size_pos
  have hgrow := growSize_eq (k := 32) hpos (Nat.le_add_left n q.size) (by omega) hlt
  cases mem with
  | false =>
    refine .inr ?_
    rw [BlockQueue.qGrow, hgrow]
    rfl
  | true =>
    have hle' : n ≤ Queue.growSize n n q.size := Queue.growSize_le hpos (Nat.le_add_left n q.size)
    have hroom := hq.holds.room
    have hnew : (OS161.qCreate (Queue.growSize n n q.size) : Queue α).Holds (l.take 0) :=
      Queue.holds_qCreate (by omega)
    obtain ⟨q', hrun, hholds, hsize⟩ := hq.holds.copyTo (n := q.size) (Nat.zero_le _) (by omega)
      hnew (show l.length < Queue.growSize n n q.size by omega)
    rw [Nat.add_zero, Nat.mod_eq_of_lt hq.holds.read_lt] at hrun
    have hfits := (le_blockSlots_iff hlt).mpr hsmall
    refine .inl ⟨⟨q', blockSlots (Queue.growSize n n q.size)⟩, ?_, ⟨hholds, ?_, ?_⟩, ?_⟩
    · rw [BlockQueue.qGrow, hgrow]
      change (q.copyTo q.size q.nextread ⟨OS161.qCreate (Queue.growSize n n q.size),
        blockSlots (Queue.growSize n n q.size)⟩ >>= fun new => .ok (none, new)) = _
      rw [copyTo_eq hq.fits hq.holds.read_lt (hpos.trans_le le_growSize) hfits, hrun]
      rfl
    · exact hsize.trans_le hfits
    · exact hsize.trans_le hsmall
    · exact hle'.trans_eq hsize.symm

theorem qPreallocate (size : Int) (hsmall : q.asks (.preallocate size mem) ≤ maxSlots) :
    (∃ q', q.qPreallocate size mem = .ok (none, q') ∧ q'.Sound l) ∨
      q.qPreallocate size mem = .ok (some .enomem, q) := by
  rw [BlockQueue.qPreallocate, if_neg hq.size_pos.ne']
  by_cases hlt : q.size < size
  · rw [if_pos hlt]
    have hsize : size = size.toNat := by omega
    rw [hsize]
    rcases hq.qGrow (n := size.toNat) (by omega) hsmall mem with ⟨q', hrun, hq', -⟩ | hrun
    · exact .inl ⟨q', hrun, hq'⟩
    · exact .inr hrun
  · rw [if_neg hlt]
    exact .inl ⟨q, rfl, hq⟩

theorem growSize_full : Queue.growSize (q.size + 1) (q.size + 1) q.size = q.size * 2 := by
  have hpos := hq.size_pos
  rw [Queue.growSize, if_pos (Nat.lt_succ_self _)]
  cases hsize : q.size with
  | zero => omega
  | succ k => rw [Queue.growSize, if_neg (by omega)]

theorem qAddtail (x : α) (hsmall : q.asks (.addtail x mem) ≤ maxSlots) :
    (∃ q', q.qAddtail x mem = .ok (none, q') ∧ q'.Sound (l ++ [x])) ∨
      q.qAddtail x mem = .ok (some .enomem, q) := by
  have hroom := hq.holds.room
  rw [BlockQueue.qAddtail, if_neg hq.size_pos.ne']
  unfold asks at hsmall
  by_cases hfull : q.full = true
  · rw [if_pos hfull] at hsmall ⊢
    rw [← hq.growSize_full] at hsmall
    have hint : ((q.size + 1 : Int)).bmod (2 ^ 32) = ((q.size + 1 : Nat) : Int) := by
      have hmax : maxSlots = 2 ^ 30 - 1024 := rfl
      have hle := hq.small
      rw [Int.bmod_eq_of_le (by omega) (by omega)]
      rfl
    rw [hint]
    rcases hq.qGrow (Nat.le_succ q.size) hsmall mem with ⟨q', hrun, hq', hle⟩ | hrun
    · obtain ⟨q'', hput, hq''⟩ := hq'.put (x := x) (by omega)
      refine .inl ⟨q'', ?_, hq''⟩
      rw [hrun]
      change (q'.put (some x) >>= fun q => Except.ok (none, q)) = _
      rw [hput]
      rfl
    · refine .inr ?_
      rw [hrun]
      rfl
  · rw [if_neg hfull]
    have hlt : l.length + 1 < q.size := by
      have hne : l.length + 1 ≠ q.size := fun heq => hfull (hq.holds.full_iff.mpr heq)
      omega
    obtain ⟨q', hput, hq'⟩ := hq.put hlt x
    refine .inl ⟨q', ?_, hq'⟩
    rw [hput]
    rfl

end Sound

theorem Sound.qRemhead (hq : q.Sound (x :: l)) : ∃ q', q.qRemhead = .ok (x, q') ∧ q'.Sound l := by
  obtain ⟨q', hrun, hholds, -⟩ := hq.holds.qRemhead
  have hread : q.nextread < q.room := hq.holds.read_lt.trans_le hq.fits
  unfold Queue.qRemhead at hrun
  split at hrun
  · cases hrun
  rename_i hne
  split at hrun
  · rename_i y hdata
    cases hrun
    refine ⟨{ q with nextread := (q.nextread + 1) % q.size }, ?_, hholds, hq.fits, hq.small⟩
    rw [BlockQueue.qRemhead, if_neg hne, load, if_pos hread, hdata]
    rfl
  · cases hrun

/-- A call returns; what it adds and removes is added at one end of the list and removed at the
other, and a call that is refused changes nothing. -/
theorem Sound.op (hq : q.Sound l) {a : QueueOp α} (hallowed : q.Allowed a)
    (hsmall : q.asks a ≤ maxSlots) :
    ∃ e q' l', q.op a = .ok (e, q') ∧ q'.Sound l' ∧ l ++ e.added = e.removed ++ l' ∧
      (e = .refused → q' = q) := by
  cases a with
  | addtail x mem =>
    rcases hq.qAddtail x hsmall with ⟨q', hrun, hq'⟩ | hrun
    · refine ⟨.addtail x, q', l ++ [x], ?_, hq', rfl, fun h => (by cases h)⟩
      rw [BlockQueue.op, hrun]
      rfl
    · refine ⟨.refused, q, l, ?_, hq, List.append_nil l, fun _ => rfl⟩
      rw [BlockQueue.op, hrun]
      rfl
  | remhead =>
    cases l with
    | nil =>
      have hempty : q.qEmpty = true := hq.holds.empty_iff.mpr rfl
      have hne : q.qEmpty = false := hallowed
      rw [hempty] at hne
      cases hne
    | cons x l =>
      obtain ⟨q', hrun, hq'⟩ := hq.qRemhead
      refine ⟨.remhead x, q', l, ?_, hq', List.append_nil _, fun h => (by cases h)⟩
      rw [BlockQueue.op, hrun]
      rfl
  | preallocate size mem =>
    rcases hq.qPreallocate size hsmall with ⟨q', hrun, hq'⟩ | hrun
    · refine ⟨.preallocated, q', l, ?_, hq', List.append_nil l, fun h => (by cases h)⟩
      rw [BlockQueue.op, hrun]
      rfl
    · refine ⟨.refused, q, l, ?_, hq, List.append_nil l, fun _ => rfl⟩
      rw [BlockQueue.op, hrun]
      rfl

variable {q₀ : BlockQueue α} {as : List (QueueOp α × QueueEvent α)}

/-- What the calls added and did not remove is in the ring. -/
theorem sound_run (h0 : q₀.Sound []) (hrun : Lts.Run Step q₀ as q) :
    ∃ l, q.Sound l ∧ as.flatMap (·.2.added) = as.flatMap (·.2.removed) ++ l := by
  refine hrun.history (fun as q => ∃ l, q.Sound l ∧ as.flatMap (·.2.added) =
    as.flatMap (·.2.removed) ++ l) ⟨[], h0, rfl⟩ ?_
  rintro as q ⟨a, e⟩ q' ⟨l, hq, heq⟩ ⟨hop, hallowed, hsmall⟩
  obtain ⟨e', q'', l', hop', hq'', hmove, -⟩ := hq.op hallowed hsmall
  cases hop.symm.trans hop'
  refine ⟨l', hq'', ?_⟩
  rw [List.flatMap_append, List.flatMap_append, heq, List.append_assoc, List.append_assoc]
  simp only [List.flatMap_cons, List.flatMap_nil, List.append_nil]
  rw [hmove]

/-- A ring that asks for no block longer than `maxSlots` pointers is a FIFO. -/
theorem queue_is_fifo (hpos : 0 < size)
    (hsmall : size ≤ maxSlots) (hcreate : qCreate size mem = some q₀)
    (hrun : Lts.Run Step q₀ as q) :
    ∃ l, as.flatMap (·.2.added) = as.flatMap (·.2.removed) ++ l ∧
      q.toQueue.Holds l ∧ (q.qEmpty = true ↔ l = []) ∧ q.size ≤ q.room ∧
      ∀ a, q.Allowed a → q.asks a ≤ maxSlots →
        ∃ e q', q.op a = .ok (e, q') ∧ (e = .refused → q' = q) := by
  obtain ⟨l, hq, heq⟩ := sound_run (sound_qCreate hpos hsmall hcreate) hrun
  refine ⟨l, heq, hq.holds, hq.holds.empty_iff, hq.fits, fun a hallowed hasks => ?_⟩
  obtain ⟨e, q', -, hop, -, -, hrefused⟩ := hq.op hallowed hasks
  exact ⟨e, q', hop, hrefused⟩

/-- A ring of one slot grows at its first member and again at its second. -/
theorem queue_is_fifo_one :
    ∃ q₀ q : BlockQueue Nat, qCreate 1 true = some q₀ ∧ Lts.Run Step q₀
      [(.addtail 7 true, .addtail 7), (.addtail 8 false, .refused), (.addtail 8 true, .addtail 8),
        (.remhead, .remhead 7), (.preallocate (-1) false, .preallocated)] q ∧
      q.toQueue.Holds [8] := by
  obtain ⟨q, hrun⟩ : ∃ q : BlockQueue Nat, Lts.Run Step ⟨OS161.qCreate 1, blockSlots 1⟩
      [(.addtail 7 true, .addtail 7), (.addtail 8 false, .refused), (.addtail 8 true, .addtail 8),
        (.remhead, .remhead 7), (.preallocate (-1) false, .preallocated)] q :=
    ⟨_, .head ⟨rfl, trivial, by decide⟩ (.head ⟨rfl, trivial, by decide⟩ (.head
      ⟨rfl, trivial, by decide⟩ (.head ⟨rfl, rfl, by decide⟩ (.head ⟨rfl, trivial, by decide⟩
      .refl))))⟩
  obtain ⟨l, hl, hholds, -⟩ :=
    queue_is_fifo (by decide) (by decide) (show qCreate 1 true = some _ from rfl) hrun
  obtain rfl : [8] = l := (List.append_right_inj [7]).mp hl
  exact ⟨_, q, rfl, hrun, hholds⟩

/-- For a ring of `2 ^ 30` slots `kmalloc` is asked for no bytes: the fifth member does not fit in
the smallest block. -/
theorem long_queue_overruns :
    ∃ q₀ q : BlockQueue Nat, qCreate (2 ^ 30) true = some q₀ ∧
      (List.range 4).foldlM (fun q i => Prod.snd <$> q.op (.addtail i true)) q₀ = .ok q ∧
      q.op (.addtail 4 true) = .error .outOfBounds :=
  ⟨_, _, rfl, rfl, rfl⟩

end BlockQueue

end OS161
