import OS161.Libc.MallocInv

/-! A program that calls `malloc` and `free`, and stores into what it has been given. -/
namespace OS161.Malloc

open Tiling

/-- The program with its heap: the pointers it holds, each with the size it asked for. -/
structure User where
  heap : Heap
  live : List (Nat × Nat)

inductive UserEvent where
  | malloc (grant : Nat → Bool) (size : Nat)
  | free (x n : Nat)
  | store (m : Mem)

/-- What the program holds after `malloc` returned. -/
def given (live : List (Nat × Nat)) (size : Nat) : Except Unit Nat → List (Nat × Nat)
  | .ok p => (p, size) :: live
  | .error _ => live

/-- A call that returns, or a store to words of live areas. -/
inductive UserStep : User → UserEvent → User → Prop where
  | malloc {u : User} {grant : Nat → Bool} {size : Nat} {r : Except Unit Nat} {h : Heap} :
      Fits size → OS161.Malloc.malloc grant size u.heap = .ok (r, h) →
      UserStep u (.malloc grant size) ⟨h, given u.live size r⟩
  | free {u : User} {x n : Nat} {r : Except Unit Unit} {h : Heap} : (x, n) ∈ u.live →
      OS161.Malloc.free x u.heap = .ok (r, h) →
      UserStep u (.free x n) ⟨h, u.live.erase (x, n)⟩
  | store {u : User} {m : Mem} :
      (∀ w, (∀ y ∈ u.live, w < y.1 ∨ y.1 + y.2 ≤ w) → m w = u.heap.mem w) →
      UserStep u (.store m) ⟨{ u.heap with mem := m }, u.live⟩

/-- The heap is fresh or consists of blocks. -/
def User.Inv (u : User) : Prop := Fresh u.heap u.live ∨ ∃ bs, Ok u.heap bs u.live

section
variable {u v : User} {e : UserEvent}

theorem User.Inv.step (h : UserStep u e v) (hinv : u.Inv) : v.Inv := by
  cases h with
  | malloc hfit hcall =>
    rcases (malloc_spec hinv hfit).of_eq hcall with ⟨p, bs, rfl, hok⟩ | ⟨rfl, bs, hok⟩
    · exact .inr ⟨bs, hok⟩
    · exact .inr ⟨bs, hok⟩
  | free hx hcall =>
    rcases hinv with hfresh | ⟨bs, hok⟩
    · rw [hfresh.live] at hx
      cases hx
    · exact .inr ((free_spec hok hx).of_eq hcall).2
  | store hm =>
    rcases hinv with hfresh | ⟨bs, hok⟩
    · exact .inl ⟨hfresh.heapbase, hfresh.heaptop, hfresh.pos, hfresh.lt, hfresh.live⟩
    refine .inr ⟨bs, ⟨hok.base, hok.aligned, tiled_data hok.tiled fun w hw => hm w ?_, hok.top,
      hok.brk, hok.lt, hok.live⟩, hok.apart⟩
    rintro ⟨x, n⟩ hx
    obtain ⟨pre, b, post, rfl, hb, rfl⟩ := areas_split (hok.live.mem_iff.mp hx)
    have hH := (tiles_append.mp hok.tiled).2.1
    have hroom := hH.room n hb
    rcases hw _ (mem_placed (b := b)) with hlow | hhigh
    · exact .inl hlow
    · simp only [mData] at hhigh ⊢
      omega

theorem span_aligned (bs : List Block) : span Block.len bs % mblocksize = 0 := by
  induction bs with
  | nil => rfl
  | cons b bs ih =>
    rw [span_cons, Nat.add_mod, ih, Block.len, Nat.mul_mod_left]
    rfl

variable {h : Heap} {live : List (Nat × Nat)} {bs : List Block}

/-- A live area is aligned and large enough. -/
theorem Ok.area (hok : Ok h bs live)
    {x n : Nat} (hx : (x, n) ∈ live) : x % mblocksize = 0 ∧ n ≤ mSize h.mem (x - mblocksize) := by
  obtain ⟨pre, b, post, rfl, hb, rfl⟩ := areas_split (hok.live.mem_iff.mp hx)
  have hH := (tiles_append.mp hok.tiled).2.1
  have hroom := hH.room n hb
  have hsize := hH.mSize
  have hal := hok.aligned
  have hspan := span_aligned pre
  simp only [mData, mblocksize, Nat.add_sub_cancel] at *
  omega

theorem Ok.areas_apart (hok : Ok h bs live) :
    live.Pairwise fun x y => x.1 + mSize h.mem (x.1 - mblocksize) ≤ y.1 ∨
      y.1 + mSize h.mem (y.1 - mblocksize) ≤ x.1 := by
  refine (hok.live.pairwise_iff fun hxy => hxy.symm).mpr ?_
  refine List.pairwise_filterMap.mpr (placed_pairwise.imp_of_mem fun {x y} hx hy hxy => ?_)
  intro p hp q hq
  obtain ⟨n, -, rfl⟩ := Option.map_eq_some_iff.mp hp
  obtain ⟨k, -, rfl⟩ := Option.map_eq_some_iff.mp hq
  obtain ⟨prev, hH⟩ := hok.tiled.placed hx
  have hsize := hH.mSize
  simp only [mData, Nat.add_sub_cancel]
  omega

end

/-- The program before its first call. -/
def User.start (brk : Nat) (mem : Mem) : User := ⟨⟨0, 0, brk, mem⟩, []⟩

/-- In every state that a program reaches, whatever `sbrk` grants: the heap is tiled by blocks with
right headers, no two free blocks are neighbours, the live areas are aligned, large enough and
disjoint; and the next call does not find the heap corrupt. Its only exits are a failed `sbrk` when
the heap is set up, and `free` of an empty block at the top of the heap. -/
theorem heap_invariant {brk : Nat} {mem : Mem} {es : List UserEvent} {u : User} (hpos : 0 < brk)
    (hlt : brk < 2 ^ 32 - 1) (h : Lts.Run UserStep (.start brk mem) es u) :
    (∃ bs, Tiled u.heap.mem u.heap.heapbase 0 bs ∧
      u.heap.heapbase + span Block.len bs = u.heap.heaptop ∧ bs.IsChain Touch) ∧
    (∀ x ∈ u.live, x.1 % mblocksize = 0 ∧ x.2 ≤ mSize u.heap.mem (x.1 - mblocksize)) ∧
    (u.live.Pairwise fun x y => x.1 + mSize u.heap.mem (x.1 - mblocksize) ≤ y.1 ∨
      y.1 + mSize u.heap.mem (y.1 - mblocksize) ≤ x.1) ∧
    (∀ grant size c, Fits size → malloc grant size u.heap = .error c →
      c = .sbrkFailed ∧ u.heap.heapbase = 0) ∧
    ∀ x ∈ u.live, ∀ c, free x.1 u.heap = .error c → c = .invalidPointer ∧ x.1 = u.heap.heaptop := by
  have hinv : u.Inv := h.invariant User.Inv (fun _ _ _ hs hi => hi.step hs)
    (.inl ⟨rfl, rfl, hpos, hlt, rfl⟩)
  have hmalloc : ∀ grant size c, Fits size → malloc grant size u.heap = .error c →
      c = .sbrkFailed ∧ u.heap.heapbase = 0 :=
    fun grant size c hfit hc => (malloc_spec hinv hfit).of_error hc
  rcases hinv with hfresh | ⟨bs, hok⟩
  · rw [hfresh.live]
    refine ⟨⟨[], trivial, ?_, .nil⟩, by simp, .nil, hmalloc, by simp⟩
    rw [hfresh.heapbase, hfresh.heaptop]
    rfl
  · exact ⟨⟨bs, hok.tiled, hok.top, hok.apart⟩, fun x hx => hok.area hx, hok.areas_apart, hmalloc,
      fun x hx c hc => (free_spec hok hx).of_error hc⟩

/-- The first of two blocks is freed again. -/
theorem heap_invariant_three : ∃ u,
    Lts.Run UserStep (.start 4096 fun _ => 0#32) [.malloc (fun _ => true) 10,
      .malloc (fun _ => true) 3, .free 4104 10] u ∧
    (u.live = [(4128, 3)] ∧ inuse u.heap.mem 4096 = false) ∧
    ∀ c, free 4128 u.heap = .error c → c = .invalidPointer ∧ 4128 = u.heap.heaptop := by
  refine Lts.exists_run_and ⟨_, .head (.malloc (by decide) rfl) (.head (.malloc (by decide) rfl)
    (.head (.free (by decide) rfl) .refl)), rfl, rfl⟩ fun u hrun hu => ?_
  exact (heap_invariant (by decide) (by decide) hrun).2.2.2.2 (4128, 3) (by rw [hu.1]; simp)

end OS161.Malloc
