import OS161.Vm.Walk

/-! What `pt_deep_destroy` does to the frames of a table and to everyone else's. -/
namespace OS161

open Machine
open Function (update_self update_of_ne)

variable {live : Finset Nat} {pt : Nat → Vaddr} {own : Nat → Owner} {m m' m₁ : Machine}
  {p q f i j : Nat} {va ptp : Vaddr}

/-- What `pt_deep_destroy` does to a frame it finds mapped. -/
def FrameInfo.release (x : FrameInfo) : FrameInfo :=
  if x.shared = 0 then .zero else { x with shared := x.shared - 1 }

/-- The coremap after the first `n` entries were released and the first `t` second-level tables
freed; memory itself is not touched. -/
structure Released (own : Nat → Owner) (p : Nat) (ptp : Vaddr) (n t : Nat) (m m' : Machine) :
    Prop where
  visited : Visited own ptp FrameInfo.release n m m'
  mem : m'.mem = m.mem
  table : ∀ f i, own f = .table p i → m'.coremap.entries f =
    if i < t ∧ m.word ptp i = m.coremap.frameAddr f then .zero else m.coremap.entries f
  other : ∀ f, (∀ i j, own f ≠ .user i j) → (∀ i, own f ≠ .table p i) →
    m'.coremap.entries f = m.coremap.entries f

theorem Machine.word_congr (hs : SameFrames m m') (hm : m'.mem = m.mem) :
    m'.word va i = m.word va i := by
  simp only [word, hs.frameOf, hm]

/-- Freeing an allocated single frame. -/
theorem Machine.kfreePage_frame (hf : f < m.coremap.size) (hst : (m.coremap.entries f).status ≠
    .unallocated) (ha : (m.coremap.entries f).allocSize = 1) :
    m.kfreeChecked (m.kva f) = some (m.kfreePage (m.kva f)) ∧
      (m.kfreePage (m.kva f)).coremap.entries = Function.update m.coremap.entries f .zero := by
  constructor
  · simp [kfreeChecked, frameOf_kva hf, hst]
  · exact Coremap.freeFrame_entries hf ha

theorem Released.skip (h : Owned live pt own m) (hw : m.word (pt p) i = 0#32)
    (hr : Released own p (pt p) (i * 1024) i m m₁) :
    Released own p (pt p) ((i + 1) * 1024) (i + 1) m m₁ := by
  refine ⟨hr.visited.skip (fun f i j hf => (h.user_lt hf).2) hw, hr.mem, ?_, hr.other⟩
  intro f i' hf
  rw [hr.table f i' hf]
  refine if_congr (and_congr_left ?_) rfl rfl
  intro hwf
  have hne : i' ≠ i := by
    rintro rfl
    rw [hw] at hwf
    exact Coremap.frameAddr_ne_zero (h.inside f (by simp [hf])) hwf.symm
  omega

theorem Released.release {m₂ : Machine} (h : Owned live pt own m) (hj : j < 1024)
    (hv : isValid (m.entry (pt p) i j) = true)
    (hpp : ppage (m.entry (pt p) i j) = m.coremap.frameAddr g) (hgo : own g = .user i j)
    (hr : Released own p (pt p) (i * 1024 + j) i m m₁) (hs : SameFrames m m₂)
    (hm : m₂.mem = m₁.mem) (hc : m₂.coremap.entries
      = Function.update m₁.coremap.entries g (m₁.coremap.entries g).release) :
    Released own p (pt p) (i * 1024 + j + 1) i m m₂ := by
  refine ⟨?_, hm.trans hr.mem, ?_, ?_⟩
  · refine hr.visited.visit hj (fun f i j hf => (h.user_lt hf).2) h.inside hv hpp hs ?_ ?_ hgo
    · rw [hc, update_self]
    · intro f i' j' _ hfg
      rw [hc, update_of_ne hfg]
  · intro f i' hf
    have hfg : f ≠ g := by
      rintro rfl
      simp [hgo] at hf
    rw [hc, update_of_ne hfg, hr.table f i' hf]
  · intro f hf hf'
    have hfg : f ≠ g := by
      rintro rfl
      exact hf i j hgo
    rw [hc, update_of_ne hfg, hr.other f hf hf']

section
variable (h : Owned live pt own m) (hp : p ∈ live) (hz : pt p ≠ 0#32)
include h hp hz

theorem Released.step (hi : i < 1024) (hj : j < 1024) (hw : m.word (pt p) i ≠ 0#32)
    (hr : Released own p (pt p) (i * 1024 + j) i m m₁) :
    releaseChecked (paddrToKvaddr (m.word (pt p) i)) j m₁
        = some (releaseEntry (paddrToKvaddr (m.word (pt p) i)) j m₁) ∧
      Released own p (pt p) (i * 1024 + j + 1) i m
        (releaseEntry (paddrToKvaddr (m.word (pt p) i)) j m₁) := by
  have hs := hr.visited.frames
  have hent : m₁.word (paddrToKvaddr (m.word (pt p) i)) j = m.entry (pt p) i j := by
    rw [entry_eq_word hz hw, word_congr hs hr.mem]
  simp only [releaseEntry, releaseChecked, hent]
  split
  · rename_i hv
    obtain ⟨g, hg, hpp, hgo⟩ := h.mapsOwned hp i j hi hj hv
    have hok := h.frames g hg
    rw [hgo] at hok
    have hg₁ : g < m₁.coremap.size := by rw [hs.size]; exact hg
    have hcg : m₁.coremap.entries g = m.coremap.entries g := by
      rw [hr.visited.user g i j hgo, if_neg (by omega)]
    have hkva : paddrToKvaddr (ppage (m.entry (pt p) i j)) = m₁.kva g := by
      rw [hpp, hs.kva]
      rfl
    rw [hkva, hpp, ← hs.frameAddr]
    simp only [Coremap.isShared, Coremap.frameIndex_frameAddr hg₁]
    by_cases hsh : (m₁.coremap.entries g).shared = 0
    · have hne : (m₁.coremap.entries g).status ≠ .unallocated := by rw [hcg]; exact hok.1
      have ha : (m₁.coremap.entries g).allocSize = 1 := by rw [hcg]; exact hok.2.1
      obtain ⟨hchk, hent'⟩ := kfreePage_frame hg₁ hne ha
      rw [if_neg (by simp [hsh]), if_neg (by simp [hsh])]
      refine ⟨hchk, hr.release h hj hv hpp hgo ⟨hs.size, hs.frame0⟩ rfl ?_⟩
      rw [hent', FrameInfo.release, if_pos hsh]
    · rw [if_pos (by simpa using hsh), if_pos (by simpa using hsh)]
      refine ⟨rfl, hr.release h hj hv hpp hgo ⟨hs.size, hs.frame0⟩ rfl ?_⟩
      rw [FrameInfo.release, if_neg hsh]
      simp [decrefcount, Coremap.decrefcount, Coremap.setShared, Coremap.frameIndex_frameAddr hg₁]
  · rename_i hv
    rw [Bool.not_eq_true] at hv
    exact ⟨rfl, hr.visited.pass hj (fun f i j hf => (h.user_lt hf).2) hv, hr.mem, hr.table,
      hr.other⟩

/-- Freeing the second-level table of slot `i` once its entries are released. -/
theorem Released.freeTable (hi : i < 1024) (hw : m.word (pt p) i ≠ 0#32)
    (hr : Released own p (pt p) ((i + 1) * 1024) i m m₁) :
    m₁.kfreeChecked (paddrToKvaddr (m.word (pt p) i))
        = some (m₁.kfreePage (paddrToKvaddr (m.word (pt p) i))) ∧
      Released own p (pt p) ((i + 1) * 1024) (i + 1) m
        (m₁.kfreePage (paddrToKvaddr (m.word (pt p) i))) := by
  have hs := hr.visited.frames
  obtain ⟨d, g, hd, hg, hpd, _, hge, hgo, _⟩ := (h.tables p hp).second hz hi hw
  have hwg : m.word (pt p) i = m.coremap.frameAddr g := by rw [hpd, word_kva hd, hge]
  have hg₁ : g < m₁.coremap.size := by rw [hs.size]; exact hg
  have hok := h.frames g hg
  rw [hgo] at hok
  have hcg : m₁.coremap.entries g = m.coremap.entries g := by
    rw [hr.table g i hgo, if_neg (by omega)]
  have hkva : paddrToKvaddr (m.word (pt p) i) = m₁.kva g := by
    rw [hwg, hs.kva]
    rfl
  have hne : (m₁.coremap.entries g).status ≠ .unallocated := by rw [hcg]; exact hok.1
  have ha : (m₁.coremap.entries g).allocSize = 1 := by rw [hcg]; exact hok.2.1
  obtain ⟨hchk, hent⟩ := kfreePage_frame hg₁ hne ha
  rw [hkva]
  refine ⟨hchk, ⟨⟨hs.size, hs.frame0⟩, ?_⟩, hr.mem, ?_, ?_⟩
  · intro f i' j' hf
    have hfg : f ≠ g := by
      rintro rfl
      simp [hgo] at hf
    rw [hent, update_of_ne hfg, hr.visited.user f i' j' hf]
  · intro f i' hf
    rw [hent]
    by_cases hfg : f = g
    · subst f
      obtain rfl : i = i' := by simpa [hgo] using hf
      rw [update_self, if_pos ⟨by omega, hwg⟩]
    rw [update_of_ne hfg, hr.table f i' hf]
    refine if_congr (and_congr_left ?_) rfl rfl
    intro hwf
    have hne : i' ≠ i := by
      rintro rfl
      rw [hwg] at hwf
      have hflt : f < m.coremap.size := h.inside f (by simp [hf])
      exact hfg ((Coremap.frameAddr_inj hg hflt).mp hwf).symm
    omega
  · intro f hf hf'
    have hfg : f ≠ g := by
      rintro rfl
      exact hf' i hgo
    rw [hent, update_of_ne hfg, hr.other f hf hf']

theorem Released.slot {s : Machine} (hi : i < 1024) (hr : Released own p (pt p) (i * 1024) i m s) :
    (if s.word (pt p) i ≠ 0#32 then
      (Loop.tryUpTo (releaseChecked (paddrToKvaddr (s.word (pt p) i))) 1024 s).bind
        fun m => m.kfreeChecked (paddrToKvaddr (s.word (pt p) i))
    else some s) = some (if s.word (pt p) i ≠ 0#32 then
      (Loop.upTo (releaseEntry (paddrToKvaddr (s.word (pt p) i))) 1024 s).kfreePage
        (paddrToKvaddr (s.word (pt p) i))
    else s) ∧ Released own p (pt p) ((i + 1) * 1024) (i + 1) m (if s.word (pt p) i ≠ 0#32 then
      (Loop.upTo (releaseEntry (paddrToKvaddr (s.word (pt p) i))) 1024 s).kfreePage
        (paddrToKvaddr (s.word (pt p) i)) else s) := by
  have hword : s.word (pt p) i = m.word (pt p) i := word_congr hr.visited.frames hr.mem
  rw [hword]
  by_cases hw : m.word (pt p) i = 0#32
  · rw [if_neg (by simp [hw]), if_neg (by simp [hw])]
    exact ⟨rfl, hr.skip h hw⟩
  rw [if_pos hw, if_pos hw]
  have hbody : ∀ j s, j < 1024 → Released own p (pt p) (i * 1024 + j) i m s →
      releaseChecked (paddrToKvaddr (m.word (pt p) i)) j s
          = some (releaseEntry (paddrToKvaddr (m.word (pt p) i)) j s) ∧
        Released own p (pt p) (i * 1024 + (j + 1)) i m
          (releaseEntry (paddrToKvaddr (m.word (pt p) i)) j s) := by
    intro j s hj hr
    rw [← Nat.add_assoc]
    exact hr.step h hp hz hi hj hw
  have hr₀ : Released own p (pt p) (i * 1024 + 0) i m s := by
    rw [Nat.add_zero]
    exact hr
  have hr₁ := Loop.upTo_inv (P := fun j s => Released own p (pt p) (i * 1024 + j) i m s) hr₀
    fun j s hj hr => (hbody j s hj hr).2
  rw [Loop.tryUpTo_eq_upTo (P := fun j s => Released own p (pt p) (i * 1024 + j) i m s) hr₀
    hbody, Option.bind_some]
  refine Released.freeTable h hp hz hi hw ?_
  rw [Nat.succ_mul]
  exact hr₁

theorem Owned.ptDeepDestroy_walk :
    ∃ m₁, Released own p (pt p) (1024 * 1024) 1024 m m₁ ∧
      m.ptDeepDestroyChecked (pt p) = some (m.ptDeepDestroy (pt p)) ∧
      m.ptDeepDestroy (pt p) = m₁.kfreePage (pt p) := by
  obtain ⟨d, hd, hpd, hdo, _⟩ := h.tables p hp hz
  have hok := h.frames d hd
  rw [hdo] at hok
  have h0 : Released own p (pt p) (0 * 1024) 0 m m := by
    refine ⟨⟨.refl m, ?_⟩, rfl, ?_, fun _ _ _ => rfl⟩
    · intro f i j _
      rw [if_neg (by omega)]
    · intro f i _
      rw [if_neg (by omega)]
  have hloop := Loop.upTo_inv (P := fun i s => Released own p (pt p) (i * 1024) i m s) h0
    fun i s hi hr => (hr.slot h hp hz hi).2
  have hcheck := Loop.tryUpTo_eq_upTo (P := fun i s => Released own p (pt p) (i * 1024) i m s) h0
    fun i s hi hr => hr.slot h hp hz hi
  simp only [ptDeepDestroyChecked, ptDeepDestroy]
  rw [hcheck, Option.bind_some]
  refine ⟨_, hloop, ?_, rfl⟩
  have hs := hloop.visited.frames
  have hcd := hloop.other d (by simp [hdo]) (by simp [hdo])
  generalize Loop.upTo _ _ m = m₁ at hs hcd ⊢
  rw [hpd, ← hs.kva]
  refine (kfreePage_frame (by rw [hs.size]; exact hd) ?_ ?_).1
  · rw [hcd]
    exact hok.1
  · rw [hcd]
    exact hok.2.1

/-- Every frame after `pt_deep_destroy`, by its label before. -/
structure Destroyed (own : Nat → Owner) (p : Nat) (ptp : Vaddr) (m m' : Machine) : Prop where
  frames : SameFrames m m'
  mem : m'.mem = m.mem
  user : ∀ f i j, own f = .user i j → m'.coremap.entries f =
    if isValid (m.entry ptp i j) = true ∧ ppage (m.entry ptp i j) = m.coremap.frameAddr f
    then (m.coremap.entries f).release else m.coremap.entries f
  other : ∀ f, (∀ i j, own f ≠ .user i j) →
    m'.coremap.entries f = .zero ∨ m'.coremap.entries f = m.coremap.entries f
  same : ∀ f, (∀ i j, own f ≠ .user i j) → (∀ i, own f ≠ .table p i) → own f ≠ .dir p →
    m'.coremap.entries f = m.coremap.entries f

theorem Owned.destroyed : Destroyed own p (pt p) m (m.ptDeepDestroy (pt p)) := by
  obtain ⟨m₁, hr, _, hdd⟩ := h.ptDeepDestroy_walk hp hz
  obtain ⟨d, hd, hpd, hdo, _⟩ := h.tables p hp hz
  rw [hdd]
  have hs := hr.visited.frames
  have hcd := hr.other d (by simp [hdo]) (by simp [hdo])
  have hok := h.frames d hd
  rw [hdo, ← hcd] at hok
  have hd₁ : d < m₁.coremap.size := by rw [hs.size]; exact hd
  have hent : (m₁.kfreePage (pt p)).coremap.entries =
      Function.update m₁.coremap.entries d .zero := by
    rw [hpd, ← hs.kva]
    exact (kfreePage_frame hd₁ hok.1 hok.2.1).2
  refine ⟨⟨hs.size, hs.frame0⟩, hr.mem, ?_, ?_, ?_⟩
  · intro f i j hf
    have hfd : f ≠ d := by
      rintro rfl
      simp [hdo] at hf
    have hij := h.user_lt hf
    rw [hent, update_of_ne hfd, hr.visited.user f i j hf]
    refine if_congr (and_iff_right ?_) rfl rfl
    omega
  · intro f hf
    rw [hent]
    by_cases hfd : f = d
    · subst f
      exact .inl (update_self ..)
    rw [update_of_ne hfd]
    by_cases hft : ∃ i, own f = .table p i
    · obtain ⟨i, hft⟩ := hft
      rw [hr.table f i hft]
      split <;> simp
    · simp only [not_exists] at hft
      exact .inr (hr.other f hf hft)
  · intro f hu ht hdp
    have hfd : f ≠ d := by
      rintro rfl
      exact hdp hdo
    rw [hent, update_of_ne hfd, hr.other f hu ht]

end

theorem Destroyed.entry (hd : Destroyed own p ptp m m') (va : Vaddr) (i j : Nat) :
    m'.entry va i j = m.entry va i j := by
  simp only [Machine.entry, word_congr hd.frames hd.mem]

/-- The labels with the freed frames given back. -/
def leftover (own : Nat → Owner) (m : Machine) (f : Nat) : Owner :=
  if (m.coremap.entries f).status = .unallocated then .free else own f

section
variable (h : Owned live pt own m)
include h

theorem Owned.leftover_of_eq (hc : m'.coremap.entries f = m.coremap.entries f)
    (hlt : f < m.coremap.size) : leftover own m' f = own f := by
  unfold leftover
  split
  · rename_i hst
    rw [hc] at hst
    exact (h.eq_free hlt hst).1.symm
  · rfl

theorem Owned.user_refs (hf : own f = .user i j) :
    (m.coremap.entries f).status ≠ .unallocated ∧
      (m.coremap.entries f).shared.toNat + 1 = m.refs live pt i j f := by
  have hok := h.frames f (h.inside f (by simp [hf]))
  rw [hf] at hok
  exact ⟨hok.1, hok.2.2.2.2⟩

variable (hp : p ∈ live) (hd : Destroyed own p (pt p) m m')
include hp hd

/-- A frame is freed exactly when the destroyed table held its last mapping. -/
theorem Owned.freed_iff (hf : own f = .user i j) (hv : isValid (m.entry (pt p) i j) = true)
    (hpp : ppage (m.entry (pt p) i j) = m.coremap.frameAddr f) :
    (m'.coremap.entries f).status = .unallocated ↔ m.otherRefs live pt p i j f = 0 := by
  obtain ⟨hst, hn⟩ := h.user_refs hf
  rw [refs_split hp, if_pos ⟨hv, hpp⟩] at hn
  rw [hd.user f i j hf, if_pos ⟨hv, hpp⟩, FrameInfo.release]
  by_cases hsh : (m.coremap.entries f).shared = 0
  · rw [if_pos hsh]
    have hz' : (m.coremap.entries f).shared.toNat = 0 := by rw [hsh]; rfl
    simp only [FrameInfo.zero, true_iff]
    omega
  · rw [if_neg hsh]
    have hz' : (m.coremap.entries f).shared.toNat ≠ 0 := fun hb => hsh (BitVec.eq_of_toNat_eq hb)
    refine iff_of_false hst ?_
    omega

theorem Owned.frame_destroyed (hf : f < m.coremap.size) :
    FrameOK (m'.coremap.entries f) (fun i j => m'.refs (live.erase p) pt i j f)
      (leftover own m' f) := by
  have hfree : m'.coremap.entries f = .zero →
      FrameOK (m'.coremap.entries f) (fun i j => m'.refs (live.erase p) pt i j f)
        (leftover own m' f) := by
    intro hc
    have hl : leftover own m' f = .free := by
      rw [leftover, hc]
      rfl
    rw [hl, hc]
    exact ⟨rfl, rfl⟩
  by_cases hu : ∃ i j, own f = .user i j
  · obtain ⟨i, j, hu⟩ := hu
    have hok := h.frames f hf
    rw [hu] at hok
    obtain ⟨hst, ha, hi, hj, hn⟩ := hok
    change _ = m.refs live pt i j f at hn
    have hc := hd.user f i j hu
    have hrefs : m'.refs (live.erase p) pt i j f = m.otherRefs live pt p i j f :=
      refs_congr hd.frames fun q _ => hd.entry (pt q) i j
    rw [refs_split hp] at hn
    split at hc
    · rename_i hmaps
      rw [FrameInfo.release] at hc
      rw [if_pos hmaps] at hn
      split at hc
      · exact hfree hc
      rename_i hsh
      rw [leftover, hc, if_neg hst, hu]
      refine ⟨hst, ha, hi, hj, ?_⟩
      have hone : BitVec.toNat (1 : BitVec 8) = 1 := rfl
      have hpos : (m.coremap.entries f).shared.toNat ≠ 0 :=
        fun hb => hsh (BitVec.eq_of_toNat_eq hb)
      simp only [BitVec.toNat_sub, hone]
      omega
    · rename_i hmaps
      rw [if_neg hmaps] at hn
      rw [h.leftover_of_eq hc hf, hu, hc]
      refine ⟨hst, ha, hi, hj, ?_⟩
      show _ = m'.refs _ _ i j f
      rw [hrefs]
      exact hn
  · simp only [not_exists] at hu
    obtain hc | hc := hd.other f hu
    · exact hfree hc
    · rw [h.leftover_of_eq hc hf, hc]
      exact (h.frames f hf).of_not_user hu

/-- Destroying a table keeps the count of every frame others still map. -/
theorem Owned.destroy : Owned (live.erase p) pt (leftover own m') m' := by
  constructor
  · intro f hf
    rw [hd.frames.size]
    refine h.inside f ?_
    intro hfree
    unfold leftover at hf
    split at hf
    · exact hf rfl
    · exact hf hfree
  · intro f hf
    rw [hd.frames.size] at hf
    exact h.frame_destroyed hp hd hf
  · intro q hq
    have hqp : q ≠ p := Finset.ne_of_mem_erase hq
    have hkeep : ∀ f, (own f = .dir q ∨ ∃ i, own f = .table q i) → leftover own m' f = own f := by
      intro f hf
      have hlt : f < m.coremap.size := by
        apply h.inside
        rcases hf with hf | ⟨i, hf⟩ <;> simp [hf]
      refine h.leftover_of_eq (hd.same f ?_ ?_ ?_) hlt <;>
        rcases hf with hf | ⟨i, hf⟩ <;> simp [hf, hqp]
    have hq' : OwnsTable own m' q (pt q) :=
      (h.tables q (Finset.mem_of_mem_erase hq)).congr hd.frames fun f _ => by rw [hd.mem]
    refine hq'.relabel ?_ ?_
    · intro f hf
      rw [hkeep f (.inl hf), hf]
    · intro f i hf
      rw [hkeep f (.inr ⟨i, hf⟩), hf]
  · intro q hq i j hi hj hv
    rw [hd.entry] at hv ⊢
    obtain ⟨f, hf, hfo⟩ := h.mapped q (Finset.mem_of_mem_erase hq) i j hi hj hv
    refine ⟨f, by rw [hd.frames.frameAddr]; exact hf, ?_⟩
    rw [leftover, if_neg, hfo]
    by_cases hmaps : isValid (m.entry (pt p) i j) = true ∧
        ppage (m.entry (pt p) i j) = m.coremap.frameAddr f
    · rw [h.freed_iff hp hd hfo hmaps.1 hmaps.2, otherRefs, Machine.refs, Finset.card_eq_zero]
      exact Finset.ne_empty_of_mem (Finset.mem_filter.mpr ⟨hq, hv, hf⟩)
    · rw [hd.user f i j hfo, if_neg hmaps]
      exact (h.user_refs hfo).1

end

end OS161
