import OS161.Libc.MallocRun

/-! Requests of every size, rounded up and passed to `sbrk` in 32 bits. -/
namespace OS161.Malloc

open Tiling

/-- The `size` bytes at `p` are in the heap and apart from what the program holds, and the heap is
consistent with them in use. -/
structure Allocated (live : List (Nat × Nat)) (size p : Nat) (g : Heap) : Prop where
  inside : g.heapbase + mblocksize ≤ p ∧ p + size ≤ g.heaptop
  apart : ∀ y ∈ live, p + size ≤ y.1 ∨ y.1 + y.2 ≤ p
  inv : ∃ bs, Ok g bs ((p, size) :: live)

/-- `malloc` returns NULL and leaves the heap as it is, or returns what was asked for. -/
def Sound (grant : Nat → Bool) (h : Heap) (live : List (Nat × Nat)) (size : Nat) : Prop :=
  ∃ r g, malloc grant size h = .ok (r, g) ∧
    (r = .error () ∧ g = h ∨ ∃ p, r = .ok p ∧ Allocated live size p g)

/-- The largest request that rounding up does not wrap. -/
def maxRounded : Nat := 2 ^ 32 - 8

section
variable {grant : Nat → Bool} {h g : Heap} {bs : List Block} {live : List (Nat × Nat)}
  {size p : Nat}

theorem Ok.inside {x n : Nat} (hok : Ok h bs live) (hx : (x, n) ∈ live) :
    h.heapbase + mblocksize ≤ x ∧ x + n ≤ h.heaptop := by
  obtain ⟨pre, b, post, rfl, hb, rfl⟩ := areas_split (hok.live.mem_iff.mp hx)
  have hroom := (tiles_append.mp hok.tiled).2.1.room n hb
  have htop := hok.top
  simp only [span_append, span_cons, mData, mblocksize] at *
  omega

theorem Ok.allocated (hok : Ok g bs ((p, size) :: live)) : Allocated live size p g := by
  refine ⟨hok.inside List.mem_cons_self, ?_, bs, hok⟩
  intro y hy
  have hapart := (List.pairwise_cons.mp hok.areas_apart).1 y hy
  have hp := (hok.area List.mem_cons_self).2
  have hy := (hok.area (List.mem_cons_of_mem _ hy)).2
  simp only at hapart
  omega

theorem le_roundSize (hsize : size ≤ maxRounded) : size ≤ roundSize size := by
  simp only [maxRounded, roundSize, add32, mblocksize] at *
  omega

/-- The heap is set up already. -/
theorem Ok.malloc_eq (hok : Ok h bs live) : malloc grant size h = allocate grant size h := by
  have hinit : initOnce grant h = .ok (.ok (), h) := by
    show (if h.heapbase = 0 then mallocInit grant else pure ()) h = _
    rw [if_neg (Nat.pos_iff_ne_zero.mp hok.base)]
    rfl
  show Call.bind (initOnce grant) (fun _ => allocate grant size) h = _
  rw [Call.bind, hinit]

/-- What is too large to round up cannot be in the heap. -/
theorem Allocated.le_maxRounded (ha : Allocated live size p g) : size ≤ maxRounded := by
  obtain ⟨bs, hok⟩ := ha.inv
  have hin := ha.inside
  have hlt := hok.lt_top
  simp only [maxRounded, mblocksize] at *
  omega

/-- An area at the old top is in the heap only if the heap has grown by it. -/
theorem not_inside_extended {rp : Nat} (hok : Ok h bs live) (hsize : size ≤ maxRounded)
    (hfit : ¬ Fits size) (hg : Granted grant h.brk (amountFor size)) :
    ¬ mData h.heaptop + size ≤ (extended h size rp).heaptop := by
  have hbrk := hok.brk
  have hgrant := hg.2
  show ¬ mData h.heaptop + size ≤ add32 h.heaptop (amountFor size)
  simp only [Fits, amountFor, roundSize, add32, mData, mblocksize, maxRounded] at *
  omega

/-- `malloc` does what it should exactly if the request can be rounded up and there is a free block
for it or it can be passed to `sbrk`, or there is none and `sbrk` refuses. -/
theorem malloc_sound_iff (grant : Nat → Bool) (hok : Ok h bs live) :
    Sound grant h live size ↔ size ≤ maxRounded ∧ (Found bs size ∨ Fits size) ∨
      ¬ Found bs size ∧ ¬ Granted grant h.brk (amountFor size) := by
  obtain ⟨r, g, hrun, hcases⟩ := Call.wp_iff.mp (allocate_outcome grant size hok)
  have hsound : Sound grant h live size ↔
      (r = .error () ∧ g = h ∨ ∃ p, r = .ok p ∧ Allocated live size p g) := by
    unfold Sound
    rw [hok.malloc_eq, hrun]
    simp
  rw [hsound]
  rcases hcases with ⟨hfound, p, rfl, hp⟩ | ⟨hnot, hg, rfl, rp, hrp, rfl⟩ | ⟨hnot, hg, rfl, rfl⟩
  · constructor
    · rintro (⟨⟨⟩, -⟩ | ⟨q, hq, ha⟩)
      exact .inl ⟨ha.le_maxRounded, .inl hfound⟩
    rintro (⟨hle, -⟩ | ⟨hnot, -⟩)
    · obtain ⟨bs', hok'⟩ := hp size (le_roundSize hle)
      exact .inr ⟨p, rfl, hok'.allocated⟩
    · exact absurd hfound hnot
  · constructor
    · rintro (⟨⟨⟩, -⟩ | ⟨q, hq, ha⟩)
      cases hq
      refine .inl ⟨ha.le_maxRounded, .inr ?_⟩
      by_contra hfit
      exact not_inside_extended hok ha.le_maxRounded hfit hg ha.inside.2
    · rintro (⟨hle, hfound | hfit⟩ | ⟨-, hrefused⟩)
      · exact absurd hfound hnot
      · exact .inr ⟨_, rfl, (hok.extended hrp hfit hg).allocated⟩
      · exact absurd hg hrefused
  · exact iff_of_true (.inl ⟨rfl, rfl⟩) (.inr ⟨hnot, hg⟩)

end

/-- A heap that has been set up, with nothing in it. -/
def bare : Heap := ⟨4096, 4096, 4096, fun _ => 0#32⟩

theorem ok_bare : Ok bare [] [] := .empty (by decide) (by decide) rfl rfl (by decide)

theorem malloc_sound_ten : Sound (fun _ => true) bare [] 10 :=
  (malloc_sound_iff _ ok_bare).mpr (.inl ⟨by decide, .inr (by decide)⟩)

/-- A request of 4 GB less one byte is rounded up to 0, and gets a block of no bytes. -/
theorem malloc_unsound_max :
    (∃ g, malloc (fun _ => true) 0xffffffff bare = .ok (.ok 4104, g) ∧ g.heaptop = 4104) ∧
      ¬ Sound (fun _ => true) bare [] 0xffffffff := by
  have hrun : ∃ g, malloc (fun _ => true) 0xffffffff bare = .ok (.ok 4104, g) ∧
      g.heaptop = 4104 := ⟨_, rfl, rfl⟩
  refine ⟨hrun, ?_⟩
  obtain ⟨g, hrun, htop⟩ := hrun
  rintro ⟨r, g', hrun', hres⟩
  rw [hrun] at hrun'
  cases hrun'
  rcases hres with ⟨⟨⟩, -⟩ | ⟨p, hp, ha⟩
  have hin := ha.inside.2
  omega

end OS161.Malloc
