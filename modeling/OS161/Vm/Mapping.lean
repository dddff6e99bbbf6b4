import OS161.Vm.Ownership

/-! What the single-entry operations of `page_table.c` do to ownership and entries. -/
namespace OS161

open Machine
open Function (update update_of_ne)

variable {live : Finset Nat} {pt : Nat → Vaddr} {own : Nat → Owner} {m m' : Machine}
  {p q f i j i' j' : Nat} {e : Word} {va : Vaddr}

/-- A store into the second-level table for index `i`. -/
def Machine.setEntry (m : Machine) (ptp : Vaddr) (i j : Nat) (e : Word) : Machine :=
  m.setWord (paddrToKvaddr (m.word ptp i)) j e

@[simp] theorem Machine.setEntry_coremap (ptp : Vaddr) :
    (m.setEntry ptp i j e).coremap = m.coremap := rfl

theorem Machine.OwnsTable.second (h : OwnsTable own m p va) (hz : va ≠ 0#32) (hi : i < 1024)
    (hw : m.word va i ≠ 0#32) :
    ∃ d g, d < m.coremap.size ∧ g < m.coremap.size ∧ va = m.kva d ∧ own d = .dir p ∧
      m.mem d i = m.coremap.frameAddr g ∧ own g = .table p i ∧
      m.frameOf (paddrToKvaddr (m.word va i)) = g := by
  obtain ⟨d, hd, rfl, hod, htab⟩ := h hz
  rw [word_kva hd] at hw
  obtain ⟨g, hg, hge, hgo⟩ := htab i hi hw
  refine ⟨d, g, hd, hg, rfl, hod, hge, hgo, ?_⟩
  rw [word_kva hd, hge]
  exact frameOf_kva hg

theorem Machine.word_ne_zero_of_valid (h : isValid (m.entry va i j) = true) :
    va ≠ 0#32 ∧ m.word va i ≠ 0#32 := by
  constructor
  · rintro rfl
    simp [entry_null] at h
  · intro hw
    simp [entry, hw] at h

theorem Machine.entry_eq_word (hz : va ≠ 0#32) (hw : m.word va i ≠ 0#32) :
    m.entry va i j = m.word (paddrToKvaddr (m.word va i)) j := by
  simp [entry, hz, hw]

section
variable (ht : ∀ p, p ∈ live → OwnsTable own m p (pt p)) (hp : p ∈ live)
  (hz : pt p ≠ 0#32) (hw : m.word (pt p) i ≠ 0#32) (hi : i < 1024)
include ht hp hz hw hi

/-- One word of one second-level table changed, and nothing else in any live table. -/
theorem Machine.entry_of_store (hs : SameFrames m m')
    (hmg : m'.page (paddrToKvaddr (m.word (pt p) i))
      = update (m.page (paddrToKvaddr (m.word (pt p) i))) j e)
    (hother : ∀ f, f ≠ m.frameOf (paddrToKvaddr (m.word (pt p) i)) →
      ∀ q, q ∈ live → (own f = .dir q ∨ ∃ k, own f = .table q k) → m'.mem f = m.mem f)
    (hq : q ∈ live) (hi' : i' < 1024) :
    m'.entry (pt q) i' j' = if q = p ∧ i' = i ∧ j' = j then e else m.entry (pt q) i' j' := by
  obtain ⟨d, g, hd, hg, hpd, hod, hge, hgo, hfr⟩ := (ht p hp).second hz hi hw
  simp only [page, hs.frameOf, hfr] at hmg hother
  have hdg : ∀ f q, own f = .dir q → f ≠ g := by
    rintro f q hf rfl
    simp [hgo] at hf
  by_cases hqp : q = p
  · subst q
    obtain ⟨d', hd', hpd', hod', htab⟩ := ht p hp hz
    obtain rfl : d = d' := kva_inj hd hd' (hpd.symm.trans hpd')
    have hmd : m'.mem d = m.mem d := hother d (hdg d p hod) p hp (.inl hod)
    have hd2 : d < m'.coremap.size := by rw [hs.size]; exact hd
    have hpk : pt p = m'.kva d := by rw [hs.kva]; exact hpd
    by_cases hii : i' = i
    · subst i'
      have hg2 : g < m'.coremap.size := by rw [hs.size]; exact hg
      have hl : m'.entry (pt p) i j' = update (m.mem g) j e j' := by
        rw [hpk, entry_table hd2 hg2 (by rw [hmd, hs.frameAddr]; exact hge), hmg]
      rw [hl, hpd, entry_table hd hg hge]
      by_cases hjj : j' = j <;> simp [hjj]
    · rw [if_neg (by simp [hii])]
      by_cases hzero : m.mem d i' = 0#32
      · rw [hpk, entry_absent hd2 (by rw [hmd]; exact hzero), ← hpk, hpd, entry_absent hd hzero]
      obtain ⟨g', hg', hge', hgo'⟩ := htab i' hi' hzero
      have hne : g' ≠ g := by
        rintro rfl
        simp [hgo, Ne.symm hii] at hgo'
      have hmg' : m'.mem g' = m.mem g' := hother g' hne p hp (.inr ⟨i', hgo'⟩)
      rw [hpk, entry_table hd2 (by rw [hs.size]; exact hg')
        (by rw [hmd, hs.frameAddr]; exact hge'), hmg', ← hpk, hpd, entry_table hd hg' hge']
  · rw [if_neg (by simp [hqp])]
    apply entry_congr (ht q hq) hs hi'
    · intro k hk
      exact hother k (hdg k q hk) q hq (.inl hk)
    intro k l hk
    refine hother k ?_ q hq (.inr ⟨l, hk⟩)
    rintro rfl
    simp [hgo, Ne.symm hqp] at hk

theorem Machine.entry_setEntry (hq : q ∈ live) (hi' : i' < 1024) :
    (m.setEntry (pt p) i j e).entry (pt q) i' j'
      = if q = p ∧ i' = i ∧ j' = j then e else m.entry (pt q) i' j' := by
  have hs : SameFrames m (m.setEntry (pt p) i j e) := ⟨rfl, rfl⟩
  refine entry_of_store ht hp hz hw hi hs ?_ ?_ hq hi'
  · simp [page, setEntry, setWord, frameOf]
  intro f hf q _ _
  simp only [setEntry, setWord]
  rw [update_of_ne hf]

end

/-- The tables of the other processes that map `(i, j)` to the frame. -/
def Machine.otherRefs (live : Finset Nat) (pt : Nat → Vaddr) (m : Machine) (p i j f : Nat) : Nat :=
  m.refs (live.erase p) pt i j f

theorem Machine.refs_split (hp : p ∈ live) :
    m.refs live pt i j f = m.otherRefs live pt p i j f +
      if isValid (m.entry (pt p) i j) = true ∧
        ppage (m.entry (pt p) i j) = m.coremap.frameAddr f then 1 else 0 := by
  unfold otherRefs refs
  conv_lhs => rw [← Finset.insert_erase hp]
  rw [Finset.filter_insert]
  split
  · rw [Finset.card_insert_of_notMem (by simp)]
  · rfl

/-- A frame not labelled as a mapping is mapped by no live table. -/
theorem Owned.otherRefs_eq_zero (h : Owned live pt own m) (hi : i < 1024) (hj : j < 1024)
    (hf : f < m.coremap.size) (hu : ∀ i j, own f ≠ .user i j) :
    m.otherRefs live pt p i j f = 0 := by
  unfold otherRefs refs
  rw [Finset.card_eq_zero, Finset.filter_eq_empty_iff]
  rintro q hq ⟨hv, hpp⟩
  obtain ⟨k, hk, hko⟩ := h.mapped q (Finset.mem_of_mem_erase hq) i j hi hj hv
  have hkf : f = k := by
    rw [hpp] at hk
    exact (Coremap.frameAddr_inj hf (h.inside k (by simp [hko]))).mp hk
  subst k
  exact hu i j hko

/-- After the step, `p` maps `(i, j)` by `e` and no other entry changed. -/
def Machine.Stores (live : Finset Nat) (pt : Nat → Vaddr) (m m' : Machine) (p i j : Nat)
    (e : Word) : Prop :=
  ∀ q, q ∈ live → ∀ i' j', i' < 1024 →
    m'.entry (pt q) i' j' = if q = p ∧ i' = i ∧ j' = j then e else m.entry (pt q) i' j'

section
variable (hs : SameFrames m m') (hst : Stores live pt m m' p i j e)
include hs hst

theorem Machine.refs_store_ne (hi' : i' < 1024) (hne : ¬ (i' = i ∧ j' = j)) :
    m'.refs live pt i' j' f = m.refs live pt i' j' f := by
  apply refs_congr hs
  intro q hq
  rw [hst q hq i' j' hi', if_neg (by tauto)]

theorem Machine.otherRefs_store (hi : i < 1024) :
    m'.otherRefs live pt p i j f = m.otherRefs live pt p i j f := by
  apply refs_congr hs
  intro q hq
  rw [hst q (Finset.mem_of_mem_erase hq) i j hi, if_neg (by simp [Finset.ne_of_mem_erase hq])]

theorem Machine.refs_store (hp : p ∈ live) (hi : i < 1024) :
    m'.refs live pt i j f = m.otherRefs live pt p i j f +
      if isValid e = true ∧ ppage e = m.coremap.frameAddr f then 1 else 0 := by
  have he : m'.entry (pt p) i j = e := by
    rw [hst p hp i j hi]
    simp
  rw [refs_split hp, otherRefs_store hs hst hi, he, hs.frameAddr]

/-- Ownership after one store: what is left to check is each frame by itself. -/
theorem Owned.store {own' : Nat → Owner} (h : Owned live pt own m)
    (hin : ∀ k, own' k ≠ .free → k < m.coremap.size)
    (htab : ∀ q, q ∈ live → OwnsTable own' m' q (pt q))
    (huser : ∀ k i j, own k = .user i j → own' k = .user i j)
    (hmap : isValid e = true → ∃ f, ppage e = m.coremap.frameAddr f ∧ own' f = .user i j)
    (hframe : ∀ k, k < m.coremap.size →
      FrameOK (m'.coremap.entries k) (fun i' j' => m'.refs live pt i' j' k) (own' k)) :
    Owned live pt own' m' := by
  constructor
  · intro k hk
    rw [hs.size]
    exact hin k hk
  · intro k hk
    exact hframe k (by rw [← hs.size]; exact hk)
  · exact htab
  intro q hq i' j' hi' hj' hv
  rw [hst q hq i' j' hi'] at hv ⊢
  split at hv
  · rename_i heq
    obtain ⟨rfl, rfl, rfl⟩ := heq
    obtain ⟨f, hf, hfo⟩ := hmap hv
    exact ⟨f, by rw [if_pos (by simp), hs.frameAddr]; exact hf, hfo⟩
  · rename_i hne
    obtain ⟨f, hf, hfo⟩ := h.mapped q hq i' j' hi' hj' hv
    exact ⟨f, by rw [if_neg hne, hs.frameAddr]; exact hf, huser f i' j' hfo⟩

/-- A frame whose coremap entry and number of mappings stay is still accounted for. -/
theorem Owned.frame_store (h : Owned live pt own m) (hp : p ∈ live) (hi : i < 1024) {k : Nat}
    (hk : k < m.coremap.size) (hc : m'.coremap.entries k = m.coremap.entries k)
    (hsame : (isValid e = true ∧ ppage e = m.coremap.frameAddr k) ↔
      (isValid (m.entry (pt p) i j) = true ∧
        ppage (m.entry (pt p) i j) = m.coremap.frameAddr k)) :
    FrameOK (m'.coremap.entries k) (fun i' j' => m'.refs live pt i' j' k) (own k) := by
  rw [hc]
  apply (h.frames k hk).congr
  intro i' j' hi'
  by_cases heq : i' = i ∧ j' = j
  · obtain ⟨rfl, rfl⟩ := heq
    rw [refs_store hs hst hp hi', refs_split hp]
    congr 1
    exact if_congr hsame rfl rfl
  · exact refs_store_ne hs hst hi' heq

end

section
variable (h : Owned live pt own m) (hs : SameFrames m m') (hst : Stores live pt m m' p i j e)
  (hp : p ∈ live) (hi : i < 1024) (hj : j < 1024)
include h hs hst hp hi hj

/-- An entry is replaced by a mapping of a frame no table maps yet; what is left to check is
every other frame by itself. -/
theorem Owned.store_fresh (hlt : f < m.coremap.size) (hf : own f = .free ∨ ∃ r, own f = .pending r)
    (htab : ∀ q, q ∈ live → OwnsTable own m' q (pt q))
    (hcf : FrameOK (m'.coremap.entries f) (fun _ _ => 0) (.pending p))
    (hv : isValid e = true) (hpp : ppage e = m.coremap.frameAddr f)
    (hframe : ∀ k, k < m.coremap.size → k ≠ f →
      FrameOK (m'.coremap.entries k) (fun i' j' => m'.refs live pt i' j' k) (own k)) :
    Owned live pt (update own f (.user i j)) m' := by
  have hne : ∀ k, own k ≠ .free → (∀ r, own k ≠ .pending r) → k ≠ f := by
    rintro k hk hr rfl
    obtain hf | ⟨r, hf⟩ := hf
    · exact hk hf
    · exact hr r hf
  apply Owned.store hs hst h
  · intro k hk
    by_cases hkf : k = f
    · subst k
      exact hlt
    · rw [update_of_ne hkf] at hk
      exact h.inside k hk
  · intro q hq
    apply (htab q hq).relabel
    · intro k hk
      rw [update_of_ne (hne k (by simp [hk]) (by simp [hk]))]
      exact hk
    · intro k l hk
      rw [update_of_ne (hne k (by simp [hk]) (by simp [hk]))]
      exact hk
  · intro k i' j' hk
    rw [update_of_ne (hne k (by simp [hk]) (by simp [hk]))]
    exact hk
  · intro _
    exact ⟨f, hpp, by simp⟩
  intro k hk
  by_cases hkf : k = f
  · subst k
    obtain ⟨hst', ha, hsh⟩ := hcf
    have hz := h.otherRefs_eq_zero (p := p) hi hj hk (by rintro i' j' hk; simp [hk] at hf)
    rw [Function.update_self]
    refine ⟨hst', ha, hi, hj, ?_⟩
    show _ = m'.refs live pt i j f
    rw [refs_store hs hst hp hi, hz, if_pos ⟨hv, hpp⟩, hsh]
    rfl
  · rw [update_of_ne hkf]
    exact hframe k hk hkf

/-- An invalid entry is replaced by a mapping of a pending frame. -/
theorem Owned.map {r : Nat} (hc : m'.coremap = m.coremap)
    (htab : ∀ q, q ∈ live → OwnsTable own m' q (pt q)) (hf : own f = .pending r)
    (hinv : isValid (m.entry (pt p) i j) = false) (hv : isValid e = true)
    (hpp : ppage e = m.coremap.frameAddr f) : Owned live pt (update own f (.user i j)) m' := by
  have hlt : f < m.coremap.size := h.inside f (by simp [hf])
  have hcf := h.frames f hlt
  rw [hf, ← hc] at hcf
  refine h.store_fresh hs hst hp hi hj hlt (.inr ⟨r, hf⟩) htab hcf hv hpp ?_
  intro k hk hkf
  apply h.frame_store hs hst hp hi hk (by rw [hc])
  constructor
  · rintro ⟨_, hk'⟩
    rw [hpp, Coremap.frameAddr_inj hlt hk] at hk'
    exact (hkf hk'.symm).elim
  · rintro ⟨hv', _⟩
    simp [hinv] at hv'

/-- Flags of an entry change, its frame and its validity do not. -/
theorem Owned.reflag (hc : m'.coremap = m.coremap)
    (htab : ∀ q, q ∈ live → OwnsTable own m' q (pt q))
    (hv : isValid e = isValid (m.entry (pt p) i j))
    (hpp : ppage e = ppage (m.entry (pt p) i j)) : Owned live pt own m' := by
  apply Owned.store hs hst h h.inside htab (fun _ _ _ hk => hk)
  · intro hve
    rw [hpp]
    exact h.mapped p hp i j hi hj (by rw [← hv]; exact hve)
  · intro k hk
    apply h.frame_store hs hst hp hi hk (by rw [hc])
    rw [hv, hpp]

/-- A shared mapping is replaced by a private copy: the old frame loses one reference. -/
theorem Owned.split {g : Nat} (hf : own f = .free) (hlt : f < m.coremap.size)
    (htab : ∀ q, q ∈ live → OwnsTable own m' q (pt q)) (hold : isValid (m.entry (pt p) i j) = true)
    (hg : ppage (m.entry (pt p) i j) = m.coremap.frameAddr g) (hgo : own g = .user i j)
    (hshared : (m.coremap.entries g).shared ≠ 0)
    (hcg : m'.coremap.entries g =
      { m.coremap.entries g with shared := (m.coremap.entries g).shared - 1 })
    (hcf : FrameOK (m'.coremap.entries f) (fun _ _ => 0) (.pending p))
    (hck : ∀ k, k ≠ f → k ≠ g → m'.coremap.entries k = m.coremap.entries k) (hv : isValid e = true)
    (hpp : ppage e = m.coremap.frameAddr f) :
    Owned live pt (update own f (.user i j)) m' := by
  have hglt : g < m.coremap.size := h.inside g (by simp [hgo])
  refine h.store_fresh hs hst hp hi hj hlt (.inl hf) htab hcf hv hpp ?_
  intro k hk hkf
  have hnew : ppage e ≠ m.coremap.frameAddr k := by
    rw [hpp]
    intro hbad
    exact hkf ((Coremap.frameAddr_inj hlt hk).mp hbad).symm
  by_cases hkg : k = g
  · subst k
    have hok := h.frames g hk
    rw [hgo] at hok ⊢
    obtain ⟨hst', ha, _, _, hn⟩ := hok
    rw [hcg]
    refine ⟨hst', ha, hi, hj, ?_⟩
    show _ = m'.refs live pt i j g
    change _ = m.refs live pt i j g at hn
    rw [refs_store hs hst hp hi, if_neg (fun hb => hnew hb.2)]
    rw [refs_split hp, if_pos ⟨hold, hg⟩] at hn
    have hpos : (m.coremap.entries g).shared.toNat ≠ 0 := by
      intro hz
      exact hshared (BitVec.eq_of_toNat_eq hz)
    have hone : BitVec.toNat (1 : BitVec 8) = 1 := rfl
    simp only [BitVec.toNat_sub, hone]
    omega
  · apply h.frame_store hs hst hp hi hk (hck k hkf hkg)
    constructor
    · rintro ⟨_, hbad⟩
      exact (hnew hbad).elim
    · rintro ⟨_, hbad⟩
      rw [hg, Coremap.frameAddr_inj hglt hk] at hbad
      exact (hkg hbad.symm).elim

end

end OS161
