import Mathlib.Data.List.Nodup
import OS161.Lib.Run

/-! What a system of processes that fork, exit and wait is meant to do with names and exit codes. -/
/-- What has become of a process: an exited one still has its code to deliver. -/
inductive Fate (R : Type*) where
  | unborn
  | alive
  | exited (r : R)
  | gone
  deriving DecidableEq

/-- Nobody is left to ask for the code of an exited process. -/
def Fate.abandoned {R : Type*} : Fate R → Fate R
  | .exited _ => .gone
  | f => f

structure Family (P T R : Type*) where
  tid : P → T
  fate : P → Fate R
  kids : P → List P

namespace Family

open Function (update_self update_of_ne update)

inductive Event (P T R : Type*) where
  | fork (p c : P) (t : T)
  | exit (p : P) (r : R)
  | wait (p : P) (t : T) (r : R)
  | other

section
variable {P T R : Type*} [DecidableEq P] (F : Family P T R)

/-- The process still has a claim to its name. -/
def InUse (x : P) : Prop := F.fate x = .alive ∨ ∃ r, F.fate x = .exited r

def born (p c : P) (t : T) : Family P T R where
  tid := update F.tid c t
  fate := update F.fate c .alive
  kids := update F.kids p (F.kids p ++ [c])

def leave (p : P) (f : Fate R) : Family P T R where
  tid := F.tid
  fate := update (fun x => if x ∈ F.kids p then (F.fate x).abandoned else F.fate x) p f
  kids := update F.kids p []

def reap (p c : P) : Family P T R where
  tid := F.tid
  fate := update F.fate c .gone
  kids := update F.kids p ((F.kids p).erase c)

inductive Step : Family P T R → Event P T R → Family P T R → Prop where
  | fork {F : Family P T R} {p c : P} {t : T} (hp : F.fate p = .alive) (hc : F.fate c = .unborn)
      (ht : ∀ x, F.InUse x → F.tid x ≠ t) : Step F (.fork p c t) (F.born p c t)
  | exit {F : Family P T R} {p q : P} {r : R} (hp : F.fate p = .alive) (hq : p ∈ F.kids q) :
    Step F (.exit p r) (F.leave p (.exited r))
  | exitOrphan {F : Family P T R} {p : P} {r : R} (hp : F.fate p = .alive)
      (hq : ∀ q, p ∉ F.kids q) : Step F (.exit p r) (F.leave p .gone)
  | wait {F : Family P T R} {p c : P} {t : T} {r : R} (hc : c ∈ F.kids p) (ht : F.tid c = t)
      (hr : F.fate c = .exited r) : Step F (.wait p t r) (F.reap p c)
  | other {F : Family P T R} : Step F .other F

structure WF : Prop where
  kid : ∀ p x, x ∈ F.kids p → F.fate p = .alive ∧ F.InUse x
  irrefl : ∀ p, p ∉ F.kids p
  one : ∀ p q x, x ∈ F.kids p → x ∈ F.kids q → p = q
  nodup : ∀ p, (F.kids p).Nodup
  known : ∀ x r, F.fate x = .exited r → ∃ p, x ∈ F.kids p
  tids : ∀ x y, F.InUse x → F.InUse y → F.tid x = F.tid y → x = y

end

variable {P T R : Type*} [DecidableEq P] {F G : Family P T R} {p q c x y : P} {t : T} {r : R}
  {f : Fate R} {e : Event P T R}

theorem mem_kids_born : x ∈ (F.born p c t).kids q ↔ x ∈ F.kids q ∨ x = c ∧ q = p := by
  by_cases hq : q = p
  · subst hq
    simp [born]
  · simp [born, hq]

theorem inUse_born : (F.born p c t).InUse x ↔ F.InUse x ∨ x = c := by
  by_cases hx : x = c
  · subst hx
    simp [born, InUse]
  · simp [born, InUse, hx]

theorem mem_kids_leave : x ∈ (F.leave p f).kids q ↔ x ∈ F.kids q ∧ q ≠ p := by
  by_cases hq : q = p
  · subst hq
    simp [leave]
  · simp [leave, hq]

theorem fate_leave (hx : x ≠ p) : (F.leave p f).fate x
    = if x ∈ F.kids p then (F.fate x).abandoned else F.fate x := by
  simp [leave, hx]

theorem fate_leave_self : (F.leave p f).fate p = f := by
  simp [leave]

theorem alive_leave (hx : x ≠ p) : (F.leave p f).fate x = .alive ↔ F.fate x = .alive := by
  rw [fate_leave hx]
  split
  · cases F.fate x <;> simp [Fate.abandoned]
  · rfl

theorem exited_leave (hx : x ≠ p) :
    (F.leave p f).fate x = .exited r ↔ F.fate x = .exited r ∧ x ∉ F.kids p := by
  rw [fate_leave hx]
  split
  · rename_i hk
    cases F.fate x <;> simp [Fate.abandoned, hk]
  · rename_i hk
    simp [hk]

theorem InUse.of_leave (hx : x ≠ p) (h : (F.leave p f).InUse x) : F.InUse x := by
  rcases h with h | ⟨r, h⟩
  · exact .inl ((alive_leave hx).mp h)
  · exact .inr ⟨r, ((exited_leave hx).mp h).1⟩

theorem mem_kids_reap (hd : (F.kids p).Nodup) :
    x ∈ (F.reap p c).kids q ↔ x ∈ F.kids q ∧ ¬ (q = p ∧ x = c) := by
  by_cases hq : q = p
  · subst hq
    simp [reap, hd.mem_erase_iff, and_comm]
  · simp [reap, hq]

theorem fate_reap (hx : x ≠ c) : (F.reap p c).fate x = F.fate x := update_of_ne hx ..

theorem fate_reap_self : (F.reap p c).fate c = .gone := update_self ..

theorem reap_alive {r : R} (hc : F.fate c = .exited r) :
    (F.reap p c).fate x = .alive ↔ F.fate x = .alive := by
  by_cases hx : x = c
  · rw [hx, fate_reap_self, hc]
    simp
  · rw [fate_reap hx]

theorem inUse_reap : (F.reap p c).InUse x ↔ F.InUse x ∧ x ≠ c := by
  by_cases hx : x = c
  · subst hx
    simp [reap, InUse]
  · simp [reap, InUse, hx]

omit [DecidableEq P] in
theorem InUse.ne (hx : F.InUse x) (hc : F.fate c = .unborn) : x ≠ c := by
  rintro rfl
  rcases hx with hx | ⟨r, hx⟩ <;> rw [hc] at hx <;> cases hx

section
variable (h : F.WF)
include h

theorem WF.fork (hp : F.fate p = .alive) (hc : F.fate c = .unborn)
    (ht : ∀ x, F.InUse x → F.tid x ≠ t) : (F.born p c t).WF := by
  have hfresh : ∀ q, c ∉ F.kids q := fun q hq => (h.kid q c hq).2.ne hc rfl
  have htid : ∀ x, F.InUse x → (F.born p c t).tid x = F.tid x :=
    fun x hx => update_of_ne (hx.ne hc) ..
  have hself : (F.born p c t).tid c = t := update_self ..
  have halive : ∀ x, F.fate x = .alive → (F.born p c t).fate x = .alive :=
    fun x hx => (update_of_ne (InUse.ne (.inl hx) hc) ..).trans hx
  refine ⟨?_, ?_, ?_, ?_, ?_, ?_⟩
  · intro q x hx
    rcases mem_kids_born.mp hx with hk | ⟨rfl, rfl⟩
    · obtain ⟨hq, hxu⟩ := h.kid q x hk
      exact ⟨halive q hq, inUse_born.mpr (.inl hxu)⟩
    · exact ⟨halive q hp, inUse_born.mpr (.inr rfl)⟩
  · intro q hq
    rcases mem_kids_born.mp hq with hk | ⟨rfl, rfl⟩
    · exact h.irrefl q hk
    · exact InUse.ne (.inl hp) hc rfl
  · intro a b x ha hb
    rcases mem_kids_born.mp ha with hka | ⟨rfl, rfl⟩
    · rcases mem_kids_born.mp hb with hkb | ⟨rfl, rfl⟩
      · exact h.one a b x hka hkb
      · exact (hfresh a hka).elim
    · rcases mem_kids_born.mp hb with hkb | ⟨_, rfl⟩
      · exact (hfresh b hkb).elim
      · rfl
  · intro q
    by_cases hq : q = p
    · subst hq
      simp only [born, update_self]
      exact List.nodup_append_comm.mp (List.nodup_cons.mpr ⟨hfresh q, h.nodup q⟩)
    · simp only [born, update_of_ne hq]
      exact h.nodup q
  · intro x r hx
    have hxc : x ≠ c := by
      rintro rfl
      simp [born] at hx
    obtain ⟨q, hq⟩ := h.known x r ((update_of_ne hxc ..).symm.trans hx)
    exact ⟨q, mem_kids_born.mpr (.inl hq)⟩
  · intro x y hx hy heq
    rcases inUse_born.mp hx with hxu | rfl
    · rcases inUse_born.mp hy with hyu | rfl
      · rw [htid x hxu, htid y hyu] at heq
        exact h.tids x y hxu hyu heq
      · rw [htid x hxu, hself] at heq
        exact (ht x hxu heq).elim
    · rcases inUse_born.mp hy with hyu | rfl
      · rw [htid y hyu, hself] at heq
        exact (ht y hyu heq.symm).elim
      · rfl

/-- A process leaves: to be waited for if it has a parent, for good otherwise. -/
theorem WF.leave (hp : F.fate p = .alive)
    (hf : (∃ r, f = .exited r) ∧ (∃ q, p ∈ F.kids q) ∨ f = .gone ∧ ∀ q, p ∉ F.kids q) :
    (F.leave p f).WF := by
  have huse : ∀ x, (F.leave p f).InUse x → F.InUse x := by
    intro x hx
    by_cases hxp : x = p
    · exact .inl (hxp ▸ hp)
    · exact hx.of_leave hxp
  refine ⟨?_, ?_, ?_, ?_, ?_, ?_⟩
  · intro q x hx
    obtain ⟨hk, hqp⟩ := mem_kids_leave.mp hx
    obtain ⟨hq, hxu⟩ := h.kid q x hk
    refine ⟨(alive_leave hqp).mpr hq, ?_⟩
    by_cases hxp : x = p
    · subst hxp
      rcases hf with ⟨⟨r, rfl⟩, _⟩ | ⟨_, horphan⟩
      · exact .inr ⟨r, fate_leave_self⟩
      · exact (horphan q hk).elim
    · rcases hxu with hxa | ⟨r, hxe⟩
      · exact .inl ((alive_leave hxp).mpr hxa)
      · exact .inr ⟨r, (exited_leave hxp).mpr ⟨hxe, fun hkp => hqp (h.one q p x hk hkp)⟩⟩
  · intro q hq
    exact h.irrefl q (mem_kids_leave.mp hq).1
  · intro a b x ha hb
    exact h.one a b x (mem_kids_leave.mp ha).1 (mem_kids_leave.mp hb).1
  · intro q
    by_cases hq : q = p
    · subst hq
      simp [Family.leave]
    · simp only [Family.leave, update_of_ne hq]
      exact h.nodup q
  · intro x r hx
    by_cases hxp : x = p
    · subst hxp
      rcases hf with ⟨_, q, hq⟩ | ⟨rfl, _⟩
      · refine ⟨q, mem_kids_leave.mpr ⟨hq, ?_⟩⟩
        rintro rfl
        exact h.irrefl _ hq
      · rw [fate_leave_self] at hx
        cases hx
    · obtain ⟨hxe, hk⟩ := (exited_leave hxp).mp hx
      obtain ⟨q, hq⟩ := h.known x r hxe
      exact ⟨q, mem_kids_leave.mpr ⟨hq, fun hqp => hk (hqp ▸ hq)⟩⟩
  · intro x y hx hy heq
    exact h.tids x y (huse x hx) (huse y hy) heq

theorem WF.ne_of_mem_reap (hc : c ∈ F.kids p) (hx : x ∈ (F.reap p c).kids q) : x ≠ c := by
  obtain ⟨hk, hne⟩ := (mem_kids_reap (h.nodup p)).mp hx
  rintro rfl
  exact hne ⟨h.one q p x hk hc, rfl⟩

theorem WF.reap (hc : c ∈ F.kids p) (hr : F.fate c = .exited r) : (F.reap p c).WF := by
  have hmem : ∀ q x, x ∈ (F.reap p c).kids q ↔ x ∈ F.kids q ∧ ¬ (q = p ∧ x = c) :=
    fun q x => mem_kids_reap (h.nodup p)
  refine ⟨?_, ?_, ?_, ?_, ?_, ?_⟩
  · intro q x hx
    obtain ⟨hq, hxu⟩ := h.kid q x ((hmem q x).mp hx).1
    have hqc : q ≠ c := by
      rintro rfl
      rw [hr] at hq
      cases hq
    exact ⟨(fate_reap hqc).trans hq, inUse_reap.mpr ⟨hxu, h.ne_of_mem_reap hc hx⟩⟩
  · intro q hq
    exact h.irrefl q ((hmem q q).mp hq).1
  · intro a b x ha hb
    exact h.one a b x ((hmem a x).mp ha).1 ((hmem b x).mp hb).1
  · intro q
    by_cases hq : q = p
    · subst hq
      simp only [Family.reap, update_self]
      exact (h.nodup q).erase c
    · simp only [Family.reap, update_of_ne hq]
      exact h.nodup q
  · intro x r' hx
    have hxc : x ≠ c := by
      rintro rfl
      simp [Family.reap] at hx
    rw [fate_reap hxc] at hx
    obtain ⟨q, hq⟩ := h.known x r' hx
    exact ⟨q, (hmem q x).mpr ⟨hq, fun hn => hxc hn.2⟩⟩
  · intro x y hx hy heq
    exact h.tids x y (inUse_reap.mp hx).1 (inUse_reap.mp hy).1 heq

theorem WF.step (hs : Step F e G) : G.WF := by
  cases hs with
  | fork hp hc ht => exact h.fork hp hc ht
  | exit hp hq => exact h.leave hp (.inl ⟨⟨_, rfl⟩, _, hq⟩)
  | exitOrphan hp hq => exact h.leave hp (.inr ⟨rfl, hq⟩)
  | wait hc ht hr => exact h.reap hc hr
  | other => exact h

end

variable {es : List (Event P T R)}

/-- `p` has forked `x` under the name `t` and not waited for `t` since. -/
def Pending (es : List (Event P T R)) (p x : P) (t : T) : Prop :=
  ∃ es₁ es₂, es = es₁ ++ .fork p x t :: es₂ ∧ ∀ r, .wait p t r ∉ es₂

omit [DecidableEq P] in
theorem Pending.snoc (h : Pending es p x t) (he : ∀ r, e ≠ .wait p t r) :
    Pending (es ++ [e]) p x t := by
  obtain ⟨es₁, es₂, rfl, hw⟩ := h
  refine ⟨es₁, es₂ ++ [e], by simp, ?_⟩
  intro r hr
  rcases List.mem_append.mp hr with hr | hr
  · exact hw r hr
  · exact he r (List.mem_singleton.mp hr).symm

omit [DecidableEq P] in
theorem Pending.of_snoc (h : Pending (es ++ [e]) p x t) :
    e = .fork p x t ∨ Pending es p x t ∧ ∀ r, e ≠ .wait p t r := by
  obtain ⟨es₁, es₂, heq, hw⟩ := h
  rcases List.eq_nil_or_concat es₂ with rfl | ⟨es₃, e', rfl⟩
  · left
    exact (List.append_inj_right' heq rfl |> List.singleton_inj.mp)
  right
  have hsplit : es ++ [e] = (es₁ ++ .fork p x t :: es₃) ++ [e'] := by simpa using heq
  obtain ⟨rfl, he⟩ := List.append_inj' hsplit rfl
  cases List.singleton_inj.mp he
  refine ⟨⟨es₁, es₃, rfl, ?_⟩, ?_⟩
  · intro r hr
    exact hw r (by simp [hr])
  · rintro r rfl
    exact hw r (by simp)

/-- How the state of a family goes with its history. -/
structure Told (es : List (Event P T R)) (F : Family P T R) : Prop where
  wf : F.WF
  kids : ∀ p x, x ∈ F.kids p → Pending es p x (F.tid x)
  forker : ∀ p x t, Pending es p x t → F.fate p ≠ .unborn
  known : ∀ p x t, Pending es p x t → F.fate p = .alive → x ∈ F.kids p ∧ F.tid x = t
  code : ∀ x r, F.fate x = .exited r → .exit x r ∈ es

section
variable (h : Told es F)
include h

theorem Told.fork (hp : F.fate p = .alive) (hc : F.fate c = .unborn)
    (hwf : (F.born p c t).WF) : Told (es ++ [.fork p c t]) (F.born p c t) := by
  have hfate : ∀ x, x ≠ c → (F.born p c t).fate x = F.fate x :=
    fun x hx => update_of_ne hx ..
  have htid : ∀ q x, x ∈ F.kids q → (F.born p c t).tid x = F.tid x :=
    fun q x hx => update_of_ne ((h.wf.kid q x hx).2.ne hc) ..
  have hself : (F.born p c t).tid c = t := update_self ..
  have hpc : p ≠ c := InUse.ne (.inl hp) hc
  refine ⟨hwf, ?_, ?_, ?_, ?_⟩
  · intro q x hx
    rcases mem_kids_born.mp hx with hk | ⟨rfl, rfl⟩
    · rw [htid q x hk]
      exact (h.kids q x hk).snoc (by simp)
    · rw [hself]
      exact ⟨es, [], rfl, by simp⟩
  · intro q x t' hx
    rcases hx.of_snoc with heq | ⟨hx, _⟩
    · cases heq
      rw [hfate p hpc, hp]
      simp
    · rw [hfate q fun hqc => h.forker q x t' hx (hqc ▸ hc)]
      exact h.forker q x t' hx
  · intro q x t' hx hq
    rcases hx.of_snoc with heq | ⟨hx, _⟩
    · cases heq
      exact ⟨mem_kids_born.mpr (.inr ⟨rfl, rfl⟩), hself⟩
    · rw [hfate q fun hqc => h.forker q x t' hx (hqc ▸ hc)] at hq
      obtain ⟨hk, ht⟩ := h.known q x t' hx hq
      exact ⟨mem_kids_born.mpr (.inl hk), (htid q x hk).trans ht⟩
  · intro x r hx
    have hxc : x ≠ c := by
      rintro rfl
      simp [born] at hx
    rw [hfate x hxc] at hx
    exact List.mem_append_left _ (h.code x r hx)

theorem Told.leave (hf : f = .exited r ∨ f = .gone) (hwf : (F.leave p f).WF) :
    Told (es ++ [.exit p r]) (F.leave p f) := by
  refine ⟨hwf, ?_, ?_, ?_, ?_⟩
  · intro q x hx
    exact (h.kids q x (mem_kids_leave.mp hx).1).snoc (by simp)
  · intro q x t hx
    obtain ⟨hx, _⟩ := hx.of_snoc.resolve_left (by simp)
    have hq := h.forker q x t hx
    by_cases hqp : q = p
    · subst hqp
      rw [fate_leave_self]
      rcases hf with rfl | rfl <;> simp
    · rw [fate_leave hqp]
      split
      · cases hfq : F.fate q <;> simp_all [Fate.abandoned]
      · exact hq
  · intro q x t hx hq
    obtain ⟨hx, _⟩ := hx.of_snoc.resolve_left (by simp)
    have hqp : q ≠ p := by
      rintro rfl
      rw [fate_leave_self] at hq
      rcases hf with rfl | rfl <;> cases hq
    obtain ⟨hk, ht⟩ := h.known q x t hx ((alive_leave hqp).mp hq)
    exact ⟨mem_kids_leave.mpr ⟨hk, hqp⟩, ht⟩
  · intro x r' hx
    by_cases hxp : x = p
    · subst hxp
      rw [fate_leave_self] at hx
      rcases hf with rfl | rfl
      · cases hx
        exact List.mem_append_right _ (List.mem_singleton_self _)
      · cases hx
    · exact List.mem_append_left _ (h.code x r' ((exited_leave hxp).mp hx).1)

theorem Told.reap (hc : c ∈ F.kids p) (ht : F.tid c = t) (hwf : (F.reap p c).WF) :
    Told (es ++ [.wait p t r]) (F.reap p c) := by
  have hmem : ∀ q x, x ∈ (F.reap p c).kids q ↔ x ∈ F.kids q ∧ ¬ (q = p ∧ x = c) :=
    fun q x => mem_kids_reap (h.wf.nodup p)
  refine ⟨hwf, ?_, ?_, ?_, ?_⟩
  · intro q x hx
    obtain ⟨hk, hne⟩ := (hmem q x).mp hx
    refine (h.kids q x hk).snoc ?_
    intro r' heq
    injection heq with hqp htx _
    have hxc := h.wf.tids x c (h.wf.kid q x hk).2 (h.wf.kid p c hc).2 (htx.symm.trans ht.symm)
    exact hne ⟨hqp.symm, hxc⟩
  · intro q x t' hx
    obtain ⟨hx, _⟩ := hx.of_snoc.resolve_left (by simp)
    by_cases hqc : q = c
    · rw [hqc, fate_reap_self]
      simp
    · rw [fate_reap hqc]
      exact h.forker q x t' hx
  · intro q x t' hx hq
    obtain ⟨hx, he⟩ := hx.of_snoc.resolve_left (by simp)
    have hqc : q ≠ c := by
      rintro rfl
      rw [fate_reap_self] at hq
      cases hq
    rw [fate_reap hqc] at hq
    obtain ⟨hk, htx⟩ := h.known q x t' hx hq
    refine ⟨(hmem q x).mpr ⟨hk, ?_⟩, htx⟩
    rintro ⟨rfl, rfl⟩
    exact he r (by rw [← ht, htx])
  · intro x r' hx
    have hxc : x ≠ c := by
      rintro rfl
      rw [fate_reap_self] at hx
      cases hx
    rw [fate_reap hxc] at hx
    exact List.mem_append_left _ (h.code x r' hx)

theorem Told.step (hs : Step F e G) : Told (es ++ [e]) G := by
  have hwf := h.wf.step hs
  cases hs with
  | fork hp hc ht => exact h.fork hp hc hwf
  | exit hp hq => exact h.leave (.inl rfl) hwf
  | exitOrphan hp hq => exact h.leave (.inr rfl) hwf
  | wait hc ht hr => exact h.reap hc ht hwf
  | other =>
    refine ⟨hwf, ?_, ?_, ?_, ?_⟩
    · intro p x hx
      exact (h.kids p x hx).snoc (by simp)
    · intro p x t hx
      exact h.forker p x t (hx.of_snoc.resolve_left (by simp)).1
    · intro p x t hx
      exact h.known p x t (hx.of_snoc.resolve_left (by simp)).1
    · intro x r hx
      exact List.mem_append_left _ (h.code x r hx)

end

omit [DecidableEq P] in
/-- A family with a single process and no history. -/
theorem told_root (hk : ∀ p, F.kids p = []) (hx : ∀ x, F.InUse x → x = p)
    (hr : ∀ x r, F.fate x ≠ .exited r) : Told [] F := by
  have hnp : ∀ (q x : P) (t : T), ¬ Pending ([] : List (Event P T R)) q x t := by
    rintro q x t ⟨es₁, es₂, heq, _⟩
    simp at heq
  refine ⟨⟨?_, ?_, ?_, ?_, ?_, ?_⟩, ?_, fun q x t hq => (hnp q x t hq).elim,
    fun q x t hq => (hnp q x t hq).elim, fun x r h => (hr x r h).elim⟩
  · intro q x hq
    simp [hk] at hq
  · intro q hq
    simp [hk] at hq
  · intro a b x ha
    simp [hk] at ha
  · intro q
    simp [hk]
  · intro x r h
    exact (hr x r h).elim
  · intro x y hxu hyu _
    rw [hx x hxu, hx y hyu]
  · intro q x hq
    simp [hk] at hq

end Family
