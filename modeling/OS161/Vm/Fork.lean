import OS161.Vm.Walk

/-! What `sys_fork` does to the tables: `pt_copy`, then `make_readonly` on both of them. -/
namespace OS161

open Machine
open Function (update_self update_of_ne update)

variable {live : Finset Nat} {pt : Nat → Vaddr} {own own' own'' : Nat → Owner}
  {m m' m₁ : Machine} {p q c f g d i j k n : Nat} {e : Word} {va ptp : Vaddr}

/-- Frames that were in use are in the same use, with the same contents. -/
structure Extends (own own' : Nat → Owner) (m m' : Machine) : Prop where
  frames : SameFrames m m'
  label : ∀ f, own f ≠ .free → own' f = own f
  mem : ∀ f, own f ≠ .free → m'.mem f = m.mem f

theorem Extends.keeps (h : Extends own own' m m') (live : Finset Nat) (p : Nat) :
    Keeps live p own own' m m' := by
  have hne : ∀ f, (own f).Kept live p → own f ≠ .free := by
    intro f hf hfree
    simp [hfree, Owner.Kept] at hf
  exact ⟨h.frames, fun f hf => h.label f (hne f hf), fun f hf => h.mem f (hne f hf)⟩

theorem Extends.sameEntries (h : Extends own own' m m')
    (ht : ∀ p, p ∈ live → OwnsTable own m p (pt p)) : SameEntries live pt pt m m' := by
  intro q hq i j hi
  refine entry_outside ht h.frames ?_ hq hi
  rintro q _ f (hf | ⟨i, hf⟩)
  · exact h.mem f (by simp [hf])
  · exact h.mem f (by simp [hf])

/-- The state of `pt_copy` for a child `c` after `k` turns: the slots before `k` of the new
first-level table in frame `d` have their copies, the others are still clear. -/
structure Copied (own : Nat → Owner) (m m' : Machine) (own' : Nat → Owner) (ptp : Vaddr)
    (c d k : Nat) : Prop where
  ext : Extends own own' m m'
  dir : own' d = .dir c
  done : ∀ i, i < k → m.word ptp i ≠ 0#32 → ∃ g, g < m.coremap.size ∧
    m'.mem d i = m.coremap.frameAddr g ∧ own' g = .table c i ∧ ∀ j, m'.mem g j = m.entry ptp i j
  clear : ∀ i, (k ≤ i ∨ m.word ptp i = 0#32) → m'.mem d i = 0#32

theorem Copied.skip (hi : Copied own m m₁ own' ptp c d k) (hzero : m.word ptp k = 0#32) :
    Copied own m m₁ own' ptp c d (k + 1) := by
  refine ⟨hi.ext, hi.dir, ?_, ?_⟩
  · intro i hik hne
    have hlt : i < k := by
      rcases Nat.lt_succ_iff_lt_or_eq.mp hik with hlt | rfl
      · exact hlt
      · exact (hne hzero).elim
    exact hi.done i hlt hne
  · rintro i (hik | hzi)
    · exact hi.clear i (.inl (by omega))
    · exact hi.clear i (.inr hzi)

/-- The second-level table of slot `k` is copied to frame `g`. -/
structure TableCopied (m m₁ m' : Machine) (ptp : Vaddr) (d k g : Nat) : Prop where
  frames : SameFrames m m'
  dir : m'.mem d = update (m₁.mem d) k (m.coremap.frameAddr g)
  table : ∀ j, m'.mem g j = m.entry ptp k j
  other : ∀ f, f ≠ g → f ≠ d → m'.mem f = m₁.mem f

theorem update_free (hg : own' g = .free) (l : Owner) (hf : own' f ≠ .free) :
    update own' g l f = own' f := by
  rw [update_of_ne]
  rintro rfl
  exact hf hg

theorem Copied.copy (hi : Copied own m m₁ own' ptp c d k) (hd : own d = .free)
    (hg : g < m.coremap.size) (hgo : own' g = .free) (hne : m.word ptp k ≠ 0#32)
    (ht : TableCopied m m₁ m' ptp d k g) :
    Copied own m m' (update own' g (.table c k)) ptp c d (k + 1) := by
  have hin : ∀ f, own' f ≠ .free → f ≠ g := by
    rintro f hf rfl
    exact hf hgo
  refine ⟨⟨ht.frames, ?_, ?_⟩, ?_, ?_, ?_⟩
  · intro f hf
    have hl := hi.ext.label f hf
    rw [update_free hgo _ (by rw [hl]; exact hf), hl]
  · intro f hf
    have hl := hi.ext.label f hf
    have hfd : f ≠ d := by
      rintro rfl
      exact hf hd
    rw [ht.other f (hin f (by rw [hl]; exact hf)) hfd, hi.ext.mem f hf]
  · rw [update_free hgo _ (by simp [hi.dir]), hi.dir]
  · intro i hik hni
    rcases Nat.lt_succ_iff_lt_or_eq.mp hik with hlt | rfl
    · obtain ⟨g', hg', hge, hgo', hgm⟩ := hi.done i hlt hni
      have hg'd : g' ≠ d := by
        rintro rfl
        simp [hi.dir] at hgo'
      refine ⟨g', hg', ?_, ?_, ?_⟩
      · rw [ht.dir, update_of_ne (by omega), hge]
      · rw [update_free hgo _ (by simp [hgo']), hgo']
      · intro j
        rw [ht.other g' (hin g' (by simp [hgo'])) hg'd, hgm j]
    · exact ⟨g, hg, by rw [ht.dir, update_self], by simp, ht.table⟩
  · intro i hik
    have hine : i ≠ k := by
      rintro rfl
      rcases hik with hik | hik
      · omega
      · exact hne hik
    rw [ht.dir, update_of_ne hine]
    refine hi.clear i ?_
    rcases hik with hik | hik
    · exact .inl (by omega)
    · exact .inr hik

section
variable (h : Owned live pt own m) (hp : p ∈ live) (hz : pt p ≠ 0#32) (hc : c ∉ live)
include h hp hz

/-- One turn of the loop for a slot that is in use. -/
theorem Copied.tableCopied (hd : own d = .free) (hdlt : d < m.coremap.size) (hk : k < 1024)
    (hi : Copied own m m₁ own' (pt p) c d k) (hgo : own' g = .free) (hg : g < m.coremap.size)
    (hne : m.word (pt p) k ≠ 0#32) {m₂ : Machine} (hmem : m₂.mem = m₁.mem) (hs : SameFrames m m₂)
    (hm' : ((m₂.setPage (m.kva g) zeroPage).setWord (m.kva d) k (m.coremap.frameAddr g)).setPage
      (m.kva g) (((m₂.setPage (m.kva g) zeroPage).setWord (m.kva d) k
        (m.coremap.frameAddr g)).page (paddrToKvaddr (m.word (pt p) k))) = m') :
    TableCopied m m₁ m' (pt p) d k g := by
  obtain ⟨a, b, ha, hb, hpa, -, hbe, hbo, hfb⟩ := (h.tables p hp).second hz hk hne
  have hb' : own' b ≠ .free := by simp [hi.ext.label b (by simp [hbo]), hbo]
  have hbd : b ≠ d := by
    rintro rfl
    simp [hbo] at hd
  have hbg : b ≠ g := by
    rintro rfl
    exact hb' hgo
  have hgd : g ≠ d := by
    rintro rfl
    simp [hi.dir] at hgo
  have hfd : m₂.frameOf (m.kva d) = d := by rw [hs.frameOf, frameOf_kva hdlt]
  have hfg : m₂.frameOf (m.kva g) = g := by rw [hs.frameOf, frameOf_kva hg]
  rw [← hs.frameOf] at hfb
  refine ⟨by rw [← hm']; exact ⟨hs.size, hs.frame0⟩, ?_, ?_, ?_⟩
  · simp [← hm', setPage_mem, setWord_mem, hfd, hfg, hgd.symm, hmem]
  · intro j
    have hb₁ : m₁.mem b = m.mem b := hi.ext.mem b (by simp [hbo])
    rw [hpa, entry_table ha hb hbe]
    simp [← hm', setPage_mem, setWord_mem, page, hfd, hfg, hfb, hbd, hbg, hmem, hb₁]
  · intro f hfg' hfd'
    simp [← hm', setPage_mem, setWord_mem, hfd, hfg, hfg', hfd', hmem]

include hc

theorem Copied.step (hd : own d = .free) (hdlt : d < m.coremap.size) (hk : k < 1024)
    (hi : Copied own m m₁ own' (pt p) c d k) (ho : Owned live pt own' m₁)
    (hs : ptCopyEntry (pt p) (m.kva d) k m₁ = some m') :
    ∃ own'', Owned live pt own'' m' ∧ Copied own m m' own'' (pt p) c d (k + 1) := by
  have hframes := hi.ext.frames
  obtain ⟨a, ha, hpa, hao, -⟩ := h.tables p hp hz
  have hword : m₁.word (pt p) k = m.word (pt p) k :=
    word_kva_congr ha hpa hframes (hi.ext.mem a (by simp [hao]))
  simp only [ptCopyEntry, hword] at hs
  split at hs
  · rename_i hzero
    cases hs
    exact ⟨own', ho, hi.skip hzero⟩
  rename_i hne
  split at hs
  · simp at hs
  rename_i second m₂ hk₂
  simp only [Option.some.injEq] at hs
  obtain ⟨g, hg, rfl, hgo, hmem, hs₂, hown⟩ := ho.kmallocPage hk₂
  have hcm : m'.coremap = m₂.coremap := by rw [← hs]; rfl
  rw [hframes.kva, kvaddrToPaddr_kva] at hs
  rw [hframes.size] at hg
  have ht := Copied.tableCopied h hp hz hd hdlt hk hi hgo hg hne hmem (hframes.trans hs₂) hs
  refine ⟨update own' g (.table c k), ?_, hi.copy hd hg hgo hne ht⟩
  -- the new table and the new directory are the child's, who is not live yet
  refine Owned.setMem (hown (.table c k) (by simp) (by simp)) hcm ?_
  intro q hq f hf
  have hqc : q ≠ c := by
    rintro rfl
    exact hc hq
  rw [hmem]
  refine ht.other f ?_ ?_
  · rintro rfl
    simp [hqc.symm] at hf
  · rintro rfl
    rw [update_free hgo _ (by simp [hi.dir]), hi.dir] at hf
    simp [hqc.symm] at hf

theorem Owned.ptCopy_copied (hk : m.ptCopy (pt p) = .ok (some va, m')) :
    ∃ own' d, d < m.coremap.size ∧ va = m.kva d ∧ Owned live pt own' m' ∧
      Copied own m m' own' (pt p) c d 1024 := by
  simp only [Machine.ptCopy] at hk
  split at hk
  · simp at hk
  rename_i newPt m₁ hk₁
  obtain ⟨d, hd, rfl, hfree, hmem, hs, hown⟩ := h.kmallocPage hk₁
  split at hk
  · rename_i m₂ hloop
    simp only [Except.ok.injEq, Prod.mk.injEq, Option.some.injEq] at hk
    obtain ⟨rfl, rfl⟩ := hk
    have hlab : ∀ f, own f ≠ .free → update own d (.dir c) f = own f := by
      intro f hf
      rw [update_of_ne]
      rintro rfl
      exact hf hfree
    have hfr : m₁.frameOf (m.kva d) = d := by rw [hs.frameOf, frameOf_kva hd]
    have hm₁ : (m₁.setPage (m.kva d) zeroPage).mem = update m.mem d zeroPage := by
      simp [setPage, hfr, hmem]
    have h0 : ∃ own', Owned live pt own' (m₁.setPage (m.kva d) zeroPage) ∧
        Copied own m (m₁.setPage (m.kva d) zeroPage) own' (pt p) c d 0 := by
      refine ⟨update own d (.dir c), ?_, ⟨⟨hs.size, hs.frame0⟩, hlab, ?_⟩, by simp, ?_,
        ?_⟩
      · refine Owned.setMem (hown (.dir c) (by simp) (by simp)) rfl ?_
        intro q hq f hf
        have hqc : q ≠ c := by
          rintro rfl
          exact hc hq
        have hfd : f ≠ d := by
          rintro rfl
          simp [hqc.symm] at hf
        rw [hm₁, update_of_ne hfd, hmem]
      · intro f hf
        have hfd : f ≠ d := by
          rintro rfl
          exact hf hfree
        rw [hm₁, update_of_ne hfd]
      · omega
      intro i _
      rw [hm₁, update_self]
      rfl
    obtain ⟨own', ho, hcp⟩ : ∃ own', Owned live pt own' m₂ ∧
        Copied own m m₂ own' (pt p) c d 1024 := by
      refine Loop.tryUpTo_inv
        (P := fun k s => ∃ own', Owned live pt own' s ∧ Copied own m s own' (pt p) c d k) h0
        ?_ hloop
      rintro k s t hk ⟨own', ho, hcp⟩ hst
      exact Copied.step h hp hz hc hfree hd hk hcp ho hst
    exact ⟨own', d, hd, rfl, ho, hcp⟩
  · simp at hk

/-- `pt_copy` builds a table of its own for the child, with the entries of the parent. -/
theorem Owned.ptCopy (hk : m.ptCopy (pt p) = .ok (some va, m')) :
    ∃ own', Owned live pt own' m' ∧ Extends own own' m m' ∧ va ≠ 0#32 ∧
      OwnsTable own' m' c va ∧ ∀ i j, i < 1024 → m'.entry va i j = m.entry (pt p) i j := by
  obtain ⟨own', d, hd, rfl, ho, hcp⟩ := h.ptCopy_copied hp hz hc hk
  have hsz := hcp.ext.frames.size
  have hdlt : d < m'.coremap.size := by rw [hsz]; exact hd
  have hkd : m.kva d = m'.kva d := (hcp.ext.frames.kva d).symm
  refine ⟨own', ho, hcp.ext, kva_ne_zero hd, ?_, ?_⟩
  · intro _
    refine ⟨d, hdlt, hkd, hcp.dir, ?_⟩
    intro i hi hne
    have hw : m.word (pt p) i ≠ 0#32 := by
      intro hw
      exact hne (hcp.clear i (.inr hw))
    obtain ⟨g, hg, hge, hgo, _⟩ := hcp.done i hi hw
    exact ⟨g, by rw [hsz]; exact hg, by rw [hcp.ext.frames.frameAddr]; exact hge, hgo⟩
  · intro i j hi
    rw [hkd]
    by_cases hw : m.word (pt p) i = 0#32
    · rw [entry_absent hdlt (hcp.clear i (.inr hw))]
      simp [entry, hw]
    · obtain ⟨g, hg, hge, _, hgm⟩ := hcp.done i hi hw
      rw [entry_table hdlt (by rw [hsz]; exact hg)
        (by rw [hcp.ext.frames.frameAddr]; exact hge), hgm]

end

/-- With `coremap_update` 0 the loop body is empty: the parent's table is left as it was. -/
theorem Machine.makeReadonly_false (m : Machine) (ptp : Vaddr) : m.makeReadonly ptp false = m := by
  apply Loop.upTo_id
  intro i _
  split
  · apply Loop.upTo_id
    simp [makeReadonlyEntry]
  · rfl

def FrameInfo.share (x : FrameInfo) : FrameInfo := { x with shared := x.shared + 1 }

theorem Machine.entry_store_self (ht : OwnsTable own m c ptp) (hz : ptp ≠ 0#32)
    (hw : m.word ptp i ≠ 0#32) (hi : i < 1024) (hs : SameFrames m m')
    (hmg : m'.page (paddrToKvaddr (m.word ptp i))
      = update (m.page (paddrToKvaddr (m.word ptp i))) j e)
    (hother : ∀ f, f ≠ m.frameOf (paddrToKvaddr (m.word ptp i)) → m'.mem f = m.mem f)
    {i' j' : Nat} (hi' : i' < 1024) :
    m'.entry ptp i' j' = if i' = i ∧ j' = j then e else m.entry ptp i' j' := by
  have ht' : ∀ q, q ∈ ({c} : Finset Nat) → OwnsTable own m q ((fun _ => ptp) q) := by
    simpa using ht
  have hc : c ∈ ({c} : Finset Nat) := by simp
  have hst : m'.entry ptp i' j' = if c = c ∧ i' = i ∧ j' = j then e else m.entry ptp i' j' :=
    entry_of_store ht' hc hz hw hi hs hmg (fun f hf _ _ _ => hother f hf) hc hi'
  simpa using hst

/-- The child's table `ptp` after the first `n` entries were marked. -/
structure Marked (own : Nat → Owner) (c : Nat) (ptp : Vaddr) (n : Nat) (m m' : Machine) :
    Prop where
  visited : Visited own ptp FrameInfo.share n m m'
  other : ∀ f, (∀ i j, own f ≠ .user i j) → m'.coremap.entries f = m.coremap.entries f
  mem : ∀ f, (∀ i, own f ≠ .table c i) → m'.mem f = m.mem f
  entry : ∀ i j, i < 1024 → j < 1024 → m'.entry ptp i j =
    if i * 1024 + j < n ∧ isValid (m.entry ptp i j) = true
    then m.entry ptp i j ||| pteReadonly else m.entry ptp i j

theorem Marked.pass (hlt : ∀ f i j, own f = .user i j → j < 1024) (hj : j < 1024)
    (hv : isValid (m.entry ptp i j) = false) (h : Marked own c ptp (i * 1024 + j) m m₁) :
    Marked own c ptp (i * 1024 + j + 1) m m₁ := by
  refine ⟨h.visited.pass hj hlt hv, h.other, h.mem, ?_⟩
  intro i' j' hi' hj'
  rw [h.entry i' j' hi' hj']
  refine if_congr (and_congr_left ?_) rfl rfl
  intro hv'
  have hne : ¬ (i' = i ∧ j' = j) := by
    rintro ⟨rfl, rfl⟩
    simp [hv] at hv'
  omega

section
variable (ht : OwnsTable own m c ptp) (hz : ptp ≠ 0#32) (hmap : MapsOwned own m ptp)
  (hown : ∀ f, own f ≠ .free → f < m.coremap.size)
  (hlt : ∀ f i j, own f = .user i j → j < 1024)
include ht hz hown hlt

/-- An entry that maps frame `g` gets READONLY, and the frame counts one more reference. -/
theorem Marked.mark {m₂ : Machine} (hi : i < 1024) (hj : j < 1024) (hw : m.word ptp i ≠ 0#32)
    (h : Marked own c ptp (i * 1024 + j) m m₁) (hv : isValid (m.entry ptp i j) = true)
    (hg : g < m.coremap.size) (hpp : ppage (m.entry ptp i j) = m.coremap.frameAddr g)
    (hgo : own g = .user i j)
    (hm₂ : m₁.setWord (paddrToKvaddr (m.word ptp i)) j (m.entry ptp i j ||| pteReadonly) = m₂) :
    Marked own c ptp (i * 1024 + j + 1) m (m₂.increfcount (m.coremap.frameAddr g)) := by
  obtain ⟨d, hd, hpd, hdo, _⟩ := ht hz
  have hs := h.visited.frames
  have hword : m₁.word ptp i = m.word ptp i := word_kva_congr hd hpd hs (h.mem d (by simp [hdo]))
  have ht₁ : OwnsTable own m₁ c ptp := ht.congr hs fun f hf => h.mem f (by simp [hf])
  rw [← hword] at hw hm₂
  obtain ⟨_, t, _, _, _, _, _, hto, hfr⟩ := ht₁.second hz hi hw
  have hmem : ∀ k, k ≠ t → m₂.mem k = m₁.mem k := by
    intro k hk
    rw [← hm₂, setWord_mem, hfr, update_of_ne hk]
  have hc₂ : m₂.coremap = m₁.coremap := by rw [← hm₂]; rfl
  have hs₂ : SameFrames m₁ m₂ := ⟨by rw [hc₂], by rw [hc₂]⟩
  have hinc : (m₂.increfcount (m.coremap.frameAddr g)).coremap.entries
      = update m₁.coremap.entries g (m₁.coremap.entries g).share := by
    simp only [increfcount, Coremap.increfcount, Coremap.setShared, hc₂]
    rw [← hs.frameAddr, Coremap.frameIndex_frameAddr (by rw [hs.size]; exact hg)]
    rfl
  refine ⟨?_, ?_, ?_, ?_⟩
  · refine h.visited.visit hj hlt hown hv hpp ?_ ?_ ?_ hgo
    · exact ⟨hs₂.size.trans hs.size, hs₂.frame0.trans hs.frame0⟩
    · rw [hinc, update_self]
    · intro f i' j' _ hfg
      rw [hinc, update_of_ne hfg]
  · intro f hf
    have hfg : f ≠ g := by
      rintro rfl
      exact hf i j hgo
    rw [hinc, update_of_ne hfg, h.other f hf]
  · intro f hf
    have hft : f ≠ t := by
      rintro rfl
      exact hf i hto
    show m₂.mem f = m.mem f
    rw [hmem f hft, h.mem f hf]
  · intro i' j' hi' hj'
    show m₂.entry ptp i' j' = _
    have hpage : m₂.page (paddrToKvaddr (m₁.word ptp i)) = update
        (m₁.page (paddrToKvaddr (m₁.word ptp i))) j (m.entry ptp i j ||| pteReadonly) := by
      rw [← hm₂]
      simp [page, setWord_mem]
    rw [entry_store_self ht₁ hz hw hi hs₂ hpage (by rw [hfr]; exact hmem) hi']
    by_cases heq : i' = i ∧ j' = j
    · obtain ⟨rfl, rfl⟩ := heq
      rw [if_pos (by simp), if_pos ⟨by omega, hv⟩]
    · rw [if_neg heq, h.entry i' j' hi' hj']
      refine if_congr (and_congr_left fun _ => ?_) rfl rfl
      omega

include hmap

theorem Marked.step (hi : i < 1024) (hj : j < 1024) (hw : m.word ptp i ≠ 0#32)
    (h : Marked own c ptp (i * 1024 + j) m m₁) :
    Marked own c ptp (i * 1024 + j + 1) m
      (makeReadonlyEntry (paddrToKvaddr (m.word ptp i)) true j m₁) := by
  obtain ⟨d, hd, hpd, hdo, _⟩ := ht hz
  have hword : m₁.word ptp i = m.word ptp i :=
    word_kva_congr hd hpd h.visited.frames (h.mem d (by simp [hdo]))
  have hent : m₁.word (paddrToKvaddr (m.word ptp i)) j = m.entry ptp i j := by
    rw [← hword, ← entry_eq_word hz (by rw [hword]; exact hw), h.entry i j hi hj, if_neg (by omega)]
  simp only [makeReadonlyEntry, hent]
  split
  · rename_i hv
    obtain ⟨g, hg, hpp, hgo⟩ := hmap i j hi hj hv
    generalize hm₂ : m₁.setWord (paddrToKvaddr (m.word ptp i)) j (m.entry ptp i j ||| pteReadonly)
      = m₂
    have hw₂ : m₂.word (paddrToKvaddr (m.word ptp i)) j = m.entry ptp i j ||| pteReadonly := by
      rw [← hm₂]
      simp [word, setWord_mem]
    simp only [Bool.not_true, Bool.false_eq_true, if_false, if_true, hw₂, ppage_or_readonly, hpp]
    exact Marked.mark ht hz hown hlt hi hj hw h hv hg hpp hgo hm₂
  · rename_i hv
    rw [Bool.not_eq_true] at hv
    exact Marked.pass hlt hj hv h

/-- Marking the child's table sets READONLY in every valid entry and counts each mapping. -/
theorem Machine.marked_makeReadonly :
    Marked own c ptp (1024 * 1024) m (m.makeReadonly ptp true) := by
  obtain ⟨d, hd, hpd, hdo, _⟩ := ht hz
  refine Loop.upTo_inv (P := fun i s => Marked own c ptp (i * 1024) m s) ?_ ?_
  · refine ⟨⟨.refl m, ?_⟩, fun _ _ => rfl, fun _ _ => rfl, ?_⟩
    · intro f i j _
      rw [if_neg (by omega)]
    · intro i j _ _
      rw [if_neg (by omega)]
  · intro i s hi h
    have hs := h.visited.frames
    have hword : s.word ptp i = m.word ptp i := word_kva_congr hd hpd hs (h.mem d (by simp [hdo]))
    rw [hword]
    split
    · rename_i hw
      rw [Nat.succ_mul]
      refine Loop.upTo_inv (P := fun j s => Marked own c ptp (i * 1024 + j) m s) ?_ ?_
      · rw [Nat.add_zero]
        exact h
      · intro j s hj h
        rw [← Nat.add_assoc]
        exact Marked.step ht hz hmap hown hlt hi hj hw h
    · rename_i hw
      rw [not_not] at hw
      refine ⟨h.visited.skip hlt hw, h.other, h.mem, ?_⟩
      intro i' j' hi' hj'
      rw [h.entry i' j' hi' hj']
      refine if_congr (and_congr_left ?_) rfl rfl
      intro hv
      have hne : i' ≠ i := by
        rintro rfl
        simp [Machine.entry, hw] at hv
      omega

end

section
variable {m₂ : Machine} (ho : Owned live pt own' m₁) (hc : c ∉ live)
  (hM : Marked own' c va (1024 * 1024) m₁ m₂)
include hM

theorem Marked.flags (hi : i < 1024) (hj : j < 1024) :
    isValid (m₂.entry va i j) = isValid (m₁.entry va i j) ∧
      ppage (m₂.entry va i j) = ppage (m₁.entry va i j) := by
  rw [hM.entry i j hi hj]
  split <;> simp

include ho hc

theorem Marked.sameEntries : SameEntries live pt pt m₁ m₂ := by
  intro q hq i j hi
  refine entry_outside ho.tables hM.visited.frames ?_ hq hi
  rintro q hq f (hf | ⟨i, hf⟩)
  · exact hM.mem f (by simp [hf])
  have hqc : q ≠ c := by
    rintro rfl
    exact hc hq
  exact hM.mem f (by simp [hf, hqc])

theorem Marked.refs (hi : i < 1024) (hj : j < 1024) :
    m₂.refs (insert c live) (update pt c va) i j f
      = m₁.refs live pt i j f + if isValid (m₁.entry va i j) = true ∧
        ppage (m₁.entry va i j) = m₁.coremap.frameAddr f then 1 else 0 := by
  have hs := hM.visited.frames
  rw [refs_split (Finset.mem_insert_self c live), otherRefs, Finset.erase_insert hc,
    update_self, (hM.flags hi hj).1, (hM.flags hi hj).2, hs.frameAddr]
  congr 1
  refine refs_congr hs fun q hq => ?_
  rw [update_of_ne (by rintro rfl; exact hc hq), hM.sameEntries ho hc q hq i j hi]

/-- The count of a frame is its number of mappings again. It has eight bits, which the process
table's 200 slots never fill. -/
theorem Marked.frameOK (hcard : live.card < 200) (hf : f < m₁.coremap.size) :
    FrameOK (m₂.coremap.entries f)
      (fun i j => m₂.refs (insert c live) (update pt c va) i j f) (own' f) := by
  have hok := ho.frames f hf
  by_cases hu : ∃ i j, own' f = .user i j
  · obtain ⟨i, j, hu⟩ := hu
    rw [hu] at hok ⊢
    obtain ⟨hst, ha, hi, hj, hn⟩ := hok
    change _ = m₁.refs live pt i j f at hn
    have hle : m₁.refs live pt i j f ≤ live.card := Finset.card_filter_le _ _
    have hcount := hM.refs ho hc (f := f) hi hj
    rw [hM.visited.user f i j hu]
    by_cases hmaps : isValid (m₁.entry va i j) = true ∧
        ppage (m₁.entry va i j) = m₁.coremap.frameAddr f
    · rw [if_pos ⟨by omega, hmaps⟩]
      refine ⟨hst, ha, hi, hj, ?_⟩
      show _ = m₂.refs _ _ i j f
      have hone : BitVec.toNat (1 : BitVec 8) = 1 := rfl
      rw [hcount, if_pos hmaps]
      simp only [FrameInfo.share, BitVec.toNat_add, hone]
      omega
    · rw [if_neg (fun hb => hmaps hb.2)]
      refine ⟨hst, ha, hi, hj, ?_⟩
      show _ = m₂.refs _ _ i j f
      rw [hcount, if_neg hmaps]
      exact hn
  · simp only [not_exists] at hu
    rw [hM.other f hu]
    exact hok.of_not_user hu

theorem Marked.owned (htab : OwnsTable own' m₁ c va) (hmap : MapsOwned own' m₁ va)
    (hcard : live.card < 200) : Owned (insert c live) (update pt c va) own' m₂ := by
  have hs := hM.visited.frames
  have hne : ∀ q, q ∈ live → q ≠ c := by
    rintro q hq rfl
    exact hc hq
  constructor
  · intro f hf
    rw [hs.size]
    exact ho.inside f hf
  · intro f hf
    rw [hs.size] at hf
    exact hM.frameOK ho hc hcard hf
  · intro q hq
    have hdir : ∀ r f, own' f = .dir r → m₂.mem f = m₁.mem f :=
      fun r f hf => hM.mem f (by simp [hf])
    rcases Finset.mem_insert.mp hq with rfl | hq
    · rw [update_self]
      exact htab.congr hs (hdir q)
    · rw [update_of_ne (hne q hq)]
      exact (ho.tables q hq).congr hs (hdir q)
  · intro q hq i j hi hj hv
    simp only [hs.frameAddr]
    rcases Finset.mem_insert.mp hq with rfl | hq
    · rw [update_self] at hv ⊢
      rw [(hM.flags hi hj).1] at hv
      rw [(hM.flags hi hj).2]
      obtain ⟨f, _, hf, hfo⟩ := hmap i j hi hj hv
      exact ⟨f, hf, hfo⟩
    · rw [update_of_ne (hne q hq), hM.sameEntries ho hc q hq i j hi] at hv ⊢
      exact ho.mapped q hq i j hi hj hv

end

theorem Owned.mapsOwned_copy (h : Owned live pt own m) (hp : p ∈ live) (ho : Owned live pt own' m₁)
    (hext : Extends own own' m m₁)
    (hent : ∀ i j, i < 1024 → m₁.entry va i j = m.entry (pt p) i j) : MapsOwned own' m₁ va := by
  intro i j hi hj hv
  rw [hent i j hi, ← hext.sameEntries h.tables p hp i j hi] at hv ⊢
  exact ho.mapsOwned hp i j hi hj hv

/-- The tables after `sys_fork`: the child maps what the parent maps, and every shared frame
counts one more reference. -/
theorem Owned.fork (h : Owned live pt own m) (hp : p ∈ live) (hz : pt p ≠ 0#32) (hc : c ∉ live)
    (hcard : live.card < 200) (hk : m.ptCopy (pt p) = .ok (some va, m₁)) :
    ∃ own', Owned (insert c live) (update pt c va) own' (m₁.makeReadonly va true) ∧
      Keeps live p own own' m (m₁.makeReadonly va true) ∧
      SameEntries live pt pt m (m₁.makeReadonly va true) ∧ va ≠ 0#32 ∧
      ∀ i j, i < 1024 → j < 1024 → (m₁.makeReadonly va true).entry va i j =
        if isValid (m.entry (pt p) i j) = true then m.entry (pt p) i j ||| pteReadonly
        else m.entry (pt p) i j := by
  obtain ⟨own', ho, hext, hva, htab, hent⟩ := h.ptCopy hp hz hc hk
  have hsame := hext.sameEntries h.tables
  have hmap := h.mapsOwned_copy hp ho hext hent
  have hM := marked_makeReadonly htab hva hmap ho.inside fun f i j hf => (ho.user_lt hf).2
  refine ⟨own', hM.owned ho hc htab hmap hcard, ?_, ?_, hva, ?_⟩
  · refine (hext.keeps live p).trans ⟨hM.visited.frames, fun _ _ => rfl, ?_⟩
    intro f hf
    refine hM.mem f ?_
    intro i hfi
    simp [hfi, Owner.Kept, hc] at hf
  · intro q hq i j hi
    rw [hM.sameEntries ho hc q hq i j hi, hsame q hq i j hi]
  intro i j hi hj
  rw [hM.entry i j hi hj, hent i j hi]
  refine if_congr (and_iff_right ?_) rfl rfl
  omega

end OS161
