import OS161.Thread.Simulation

/-! `sys_exit` against the family: its two loops, the slot it leaves and the parent it wakes. -/
namespace OS161

open Threads (setSlot disownOne markDead setStatus threadWakeup mapStatus vacate)
open Family (fate_leave_self alive_leave exited_leave fate_leave)
open List (mem_cons mem_cons_self mem_cons_of_mem)
open Function (update_of_ne update update_self)

variable {s s' : Threads} {F : Processes} {p q i x y : Nat} {ret : Word} {item : ChildInfo}
  {f : Fate Word}

/-- What the first loop of `sys_exit` has done once it is past these children. -/
structure Disowned (F : Processes) (xs : List Nat) (s s' : Threads) : Prop where
  next : s'.next = s.next
  freed : ∀ x, x ∈ xs → ∀ r, F.fate x = .exited r → s'.table.table (F.tid x) = .deleted
  slot : ∀ i, (∀ x, x ∈ xs → ∀ r, F.fate x = .exited r → F.tid x ≠ i) →
    s'.table.table i = s.table.table i
  orphan : ∀ x, x ∈ xs → F.fate x = .alive →
    s'.thread x = { s.thread x with parent := .orphan }
  other : ∀ x, (x ∈ xs → F.fate x ≠ .alive) → s'.thread x = s.thread x

theorem Disowned.nil (s : Threads) : Disowned F [] s s := by
  refine ⟨rfl, ?_, fun _ _ => rfl, ?_, fun _ _ => rfl⟩
  · intro x hx
    cases hx
  · intro x hx
    cases hx

variable {xs : List Nat}

theorem Disowned.dead (hwf : F.WF) (hu : ∀ y, y ∈ xs → F.InUse y)
    (hx : F.fate x = .exited ret) (hd : Disowned F xs (s.setSlot (F.tid x) .deleted) s') :
    Disowned F (x :: xs) s s' := by
  refine ⟨hd.next, ?_, ?_, ?_, ?_⟩
  · intro y hy r hyr
    by_cases hmem : y ∈ xs
    · exact hd.freed y hmem r hyr
    obtain rfl : y = x := (mem_cons.mp hy).resolve_right hmem
    rw [hd.slot]
    · simp [setSlot, Hashtable.set]
    intro z hz r' hzr htid
    have hzy := hwf.tids z y (hu z hz) (.inr ⟨r, hyr⟩) htid
    exact hmem (hzy ▸ hz)
  · intro i hi
    have hxi : i ≠ F.tid x := (hi x mem_cons_self ret hx).symm
    rw [hd.slot i fun y hy => hi y (mem_cons_of_mem _ hy)]
    simp [setSlot, Hashtable.set, hxi]
  · intro y hy hya
    rcases mem_cons.mp hy with rfl | hy
    · rw [hx] at hya
      cases hya
    · exact hd.orphan y hy hya
  · intro y hy
    exact hd.other y fun hmem => hy (mem_cons_of_mem _ hmem)

theorem Disowned.alive (hx : F.fate x = .alive)
    (hd : Disowned F xs (s.set x { s.thread x with parent := .orphan }) s') :
    Disowned F (x :: xs) s s' := by
  refine ⟨hd.next, ?_, ?_, ?_, ?_⟩
  · intro y hy r hyr
    rcases mem_cons.mp hy with rfl | hy
    · rw [hx] at hyr
      cases hyr
    · exact hd.freed y hy r hyr
  · intro i hi
    exact hd.slot i fun y hy => hi y (mem_cons_of_mem _ hy)
  · intro y hy hya
    by_cases hmem : y ∈ xs
    · rw [hd.orphan y hmem hya]
      by_cases hyx : y = x
      · subst hyx
        simp [Threads.set]
      · simp [Threads.set, hyx]
    · obtain rfl : y = x := (mem_cons.mp hy).resolve_right hmem
      rw [hd.other y fun hm => (hmem hm).elim]
      simp [Threads.set]
  · intro y hy
    have hyx : y ≠ x := by
      rintro rfl
      exact hy mem_cons_self hx
    rw [hd.other y fun hmem => hy (mem_cons_of_mem _ hmem)]
    simp [Threads.set, hyx]

/-- A child that `sys_exit` can reach through the table. -/
def Reaches (s : Threads) (F : Processes) (x : Nat) : Prop :=
  (∃ key, s.table.table (F.tid x) = .entry key x) ∧ x < s.next ∧ (s.thread x).status ≠ .freed

theorem Reaches.retrieve (h : Reaches s F x) :
    s.table.htRetrieveElementByIndex (F.tid x) = some x ∧ s.deref x = .ok () := by
  obtain ⟨⟨key, hkey⟩, hlt, hst⟩ := h
  exact ⟨by rw [Hashtable.htRetrieveElementByIndex, hkey], if_pos ⟨hlt, hst⟩⟩

theorem disown_ok {l : List ChildInfo} (hwf : F.WF)
    (hd : List.Forall₂ (Describes F) l xs) (hu : ∀ x, x ∈ xs → F.InUse x)
    (hr : ∀ x, x ∈ xs → F.fate x = .alive → Reaches s F x) :
    ∃ s', l.foldlM disownOne s = .ok s' ∧ Disowned F xs s s' := by
  induction hd generalizing s with
  | nil => exact ⟨s, rfl, .nil s⟩
  | @cons item x l xs hd _ ih =>
    have hu' : ∀ y, y ∈ xs → F.InUse y := fun y hy => hu y (mem_cons_of_mem _ hy)
    by_cases hdead : item.status = .dead
    · have hx := hd.exited hdead
      have hone : s.disownOne item = .ok (s.setSlot (F.tid x) .deleted) := by
        rw [disownOne, if_pos hdead, hd.tid]
      obtain ⟨s', hrun, hs'⟩ := @ih (s.setSlot (F.tid x) .deleted) hu' (by
        intro y hy hya
        obtain ⟨⟨key, hkey⟩, hlt, hst⟩ := hr y (mem_cons_of_mem _ hy) hya
        have hne : F.tid y ≠ F.tid x := by
          intro htid
          have hyx := hwf.tids y x (.inl hya) (.inr ⟨_, hx⟩) htid
          rw [hyx, hx] at hya
          cases hya
        refine ⟨⟨key, ?_⟩, hlt, hst⟩
        exact (update_of_ne hne ..).trans hkey)
      refine ⟨s', ?_, .dead hwf hu' hx hs'⟩
      rw [List.foldlM_cons, hone]
      exact hrun
    · have hx := hd.alive hdead
      obtain ⟨hret, hderef⟩ := (hr x mem_cons_self hx).retrieve
      have hone : s.disownOne item = .ok (s.set x { s.thread x with parent := .orphan }) := by
        rw [disownOne, if_neg hdead, hd.tid, hret]
        simp only [hderef]
        rfl
      obtain ⟨s', hrun, hs'⟩ := @ih (s.set x { s.thread x with parent := .orphan }) hu' (by
        intro y hy hya
        obtain ⟨hkey, hlt, hst⟩ := hr y (mem_cons_of_mem _ hy) hya
        refine ⟨hkey, hlt, ?_⟩
        by_cases hyx : y = x
        · subst hyx
          simpa [Threads.set] using hst
        · simpa [Threads.set, hyx] using hst)
      refine ⟨s', ?_, .alive hx hs'⟩
      rw [List.foldlM_cons, hone]
      exact hrun

/-- The parent of a user process is at work in the kernel or in user mode. -/
theorem Sim.reaches_parent (h : Sim s F) (hwf : F.WF) (hp : p < s.next)
    (hu : (s.thread p).user = true) (hq : p ∈ F.kids q) : Reaches s F q := by
  have hqa := (hwf.kid q p hq).1
  have hqn := h.lt_next (.inl hqa)
  refine ⟨h.table.alive q hqa, hqn, ?_⟩
  have hng : ¬ (s.thread q).Gone := by
    rcases h.kind.forker q p hq (h.kind.func p hp hu) with hqu | rfl
    · exact fun hg => (h.status.ends q hqn).mp hqa ⟨hg, hqu⟩
    · exact h.status.menu
  exact fun hf => hng (.inr (.inr hf))

theorem Sim.reaches_kid (h : Sim s F) (hu : (s.thread p).user = true) (hx : x ∈ F.kids p)
    (hxa : F.fate x = .alive) : Reaches s F x := by
  have hxn := h.lt_next (.inl hxa)
  refine ⟨h.table.alive x hxa, hxn, ?_⟩
  intro hf
  exact (h.status.ends x hxn).mp hxa ⟨.inr (.inr hf), h.kind.kids p x hx hu⟩

/-- What a call of `sys_exit` has done by the time it calls `thread_exit`. -/
structure Exited (F : Processes) (s s' : Threads) (p : Nat) (ret : Word) : Prop where
  next : s'.next = s.next
  reserved : ∀ q, p ∈ F.kids q → s'.table.table (F.tid p) = .reserved
  deleted : (∀ q, p ∉ F.kids q) → s'.table.table (F.tid p) = .deleted
  freed : ∀ x, x ∈ F.kids p → ∀ r, F.fate x = .exited r → s'.table.table (F.tid x) = .deleted
  slot : ∀ i, i ≠ F.tid p → (∀ x, x ∈ F.kids p → ∀ r, F.fate x = .exited r → F.tid x ≠ i) →
    s'.table.table i = s.table.table i
  fields : ∀ x, (s'.thread x).tid = (s.thread x).tid ∧ (s'.thread x).func = (s.thread x).func ∧
    (s'.thread x).user = (s.thread x).user
  status : ∀ x, (s'.thread x).status
    = if x = p then .leaving else (s.thread x).status.wakeup p
  orphan : ∀ x, x ∈ F.kids p → F.fate x = .alive → (s'.thread x).parent = .orphan
  parent : ∀ x, (x ∈ F.kids p → F.fate x ≠ .alive) →
    (s'.thread x).parent = (s.thread x).parent
  told : ∀ q, p ∈ F.kids q → (s'.thread q).childList
    = markDead (F.tid p) ret (s.thread q).childList
  list : ∀ q, p ∉ F.kids q → (s'.thread q).childList = (s.thread q).childList

/-- What the second loop has done: the parent's list is marked, if there is a parent. -/
structure Reported (F : Processes) (s s' : Threads) (p : Nat) (ret : Word) : Prop where
  next : s'.next = s.next
  table : s'.table = s.table
  told : ∀ q, p ∈ F.kids q → s'.thread q = { s.thread q with
    childList := markDead (F.tid p) ret (s.thread q).childList }
  other : ∀ q, p ∉ F.kids q → s'.thread q = s.thread q

theorem report_ok (ret : Word) (hwf : F.WF) (htid : (s.thread p).tid = F.tid p)
    (hpar : ParentOK F p (s.thread p).parent) (hroot : (s.thread p).parent ≠ .root)
    (hr : ∀ q, p ∈ F.kids q → Reaches s F q) :
    ∃ s', s.report p ret = .ok s' ∧ Reported F s s' p ret := by
  unfold Threads.report
  cases hpr : (s.thread p).parent with
  | root => exact (hroot hpr).elim
  | orphan =>
    rw [hpr] at hpar
    exact ⟨s, rfl, rfl, rfl, fun q hq => (hpar q hq).elim, fun _ _ => rfl⟩
  | of t =>
    rw [hpr] at hpar
    obtain ⟨q, hq, rfl⟩ := hpar
    obtain ⟨hret, hderef⟩ := (hr q hq).retrieve
    refine ⟨s.set q { s.thread q with
        childList := markDead (s.thread p).tid ret (s.thread q).childList },
      ?_, rfl, rfl, ?_, ?_⟩
    · simp only [hret, hderef]
      rfl
    · intro q' hq'
      obtain rfl := hwf.one q' q p hq' hq
      simp [Threads.set, htid]
    intro q' hq'
    have hne : q' ≠ q := by
      rintro rfl
      exact hq' hq
    simp [Threads.set, hne]

theorem Status.wakeup_cases (st : Status) (addr : Nat) :
    (∃ k, st = .asleep (some addr) k ∧ st.wakeup addr = .woken k) ∨
      st.wakeup addr = st ∧ ∀ k, st ≠ .asleep (some addr) k := by
  cases st with
  | asleep a k =>
    by_cases ha : a = some addr
    · subst ha
      exact .inl ⟨k, rfl, if_pos rfl⟩
    refine .inr ⟨?_, fun k' h => ha (Status.asleep.inj h).1⟩
    cases a with
    | none => rfl
    | some a => exact if_neg fun h => ha (congrArg some h)
  | running | launched | woken | leaving | zombie | freed => exact .inr ⟨rfl, by simp⟩

theorem thread_left (s : Threads) (p x : Nat) :
    (((s.vacate p).threadWakeup p).setStatus p .leaving).thread x = { s.thread x with
      status := if x = p then .leaving else (s.thread x).status.wakeup p } := by
  by_cases hx : x = p
  · subst hx
    simp [setStatus, Threads.set, threadWakeup, mapStatus, vacate, setSlot]
  · simp [setStatus, Threads.set, threadWakeup, mapStatus, vacate, setSlot, hx]

theorem Disowned.thread (h : Disowned F xs s s') (x : Nat) :
    s'.thread x = { s.thread x with parent := (s'.thread x).parent } := by
  by_cases hx : x ∈ xs ∧ F.fate x = .alive
  · rw [h.orphan x hx.1 hx.2]
  · rw [h.other x fun hk hxa => hx ⟨hk, hxa⟩]

theorem Reported.thread (h : Reported F s s' p ret) (x : Nat) :
    s'.thread x = { s.thread x with childList := (s'.thread x).childList } := by
  by_cases hx : p ∈ F.kids x
  · rw [h.told x hx]
  · rw [h.other x hx]

/-- A live process keeps its slot while another one frees those of its dead children. -/
theorem Disowned.slot_alive (h : Disowned F xs s s') (hwf : F.WF)
    (hx : F.fate x = .alive) : s'.table.table (F.tid x) = s.table.table (F.tid x) := by
  refine h.slot _ ?_
  intro y hy r hyr htid
  have hyx := hwf.tids y x (.inr ⟨r, hyr⟩) (.inl hx) htid
  rw [← hyx, hyr] at hx
  cases hx

/-- The two loops, then the slot, the wakeup and the new status. -/
theorem Exited.of_parts {s₁ s₂ : Threads} (hwf : F.WF) (hpa : F.fate p = .alive)
    (hd : Disowned F (F.kids p) s s₁) (hrep : Reported F s₁ s₂ p ret)
    (htid : (s.thread p).tid = F.tid p)
    (horphan : (s.thread p).parent = .orphan ↔ ∀ q, p ∉ F.kids q) :
    Exited F s (((s₂.vacate p).threadWakeup p).setStatus p .leaving) p ret := by
  have hself : s₂.thread p = s.thread p := by
    rw [hrep.other p (hwf.irrefl p), hd.other p fun hk => (hwf.irrefl p hk).elim]
  have htable : (((s₂.vacate p).threadWakeup p).setStatus p .leaving).table.table
      = update s₁.table.table (F.tid p)
        (if (s.thread p).parent = .orphan then .deleted else .reserved) := by
    rw [← htid, ← hrep.table, ← hself]
    rfl
  have hparent : ∀ x, (s₂.thread x).parent = (s₁.thread x).parent := by
    intro x
    rw [hrep.thread x]
  have hlist : ∀ x, (s₁.thread x).childList = (s.thread x).childList := by
    intro x
    rw [hd.thread x]
  refine ⟨hrep.next.trans hd.next, ?_, ?_, ?_, ?_, ?_, ?_, ?_, ?_, ?_, ?_⟩
  · intro q hq
    rw [htable, update_self, if_neg fun ho => horphan.mp ho q hq]
  · intro hno
    rw [htable, update_self, if_pos (horphan.mpr hno)]
  · intro x hx r hxr
    have hne : F.tid x ≠ F.tid p := by
      intro htx
      have hxp := hwf.tids x p (.inr ⟨r, hxr⟩) (.inl hpa) htx
      exact hwf.irrefl p (hxp ▸ hx)
    rw [htable, update_of_ne hne]
    exact hd.freed x hx r hxr
  · intro i hi hx
    rw [htable, update_of_ne hi]
    exact hd.slot i hx
  · intro x
    rw [thread_left, hrep.thread x, hd.thread x]
    exact ⟨rfl, rfl, rfl⟩
  · intro x
    rw [thread_left, hrep.thread x, hd.thread x]
  · intro x hx hxa
    rw [thread_left]
    refine (hparent x).trans ?_
    rw [hd.orphan x hx hxa]
  · intro x hx
    rw [thread_left]
    refine (hparent x).trans ?_
    rw [hd.other x hx]
  · intro q hq
    rw [thread_left, hrep.told q hq, hlist]
  · intro q hq
    rw [thread_left, hrep.other q hq, hlist]

section
variable (h : Sim s F) (hp : p < s.next) (hu : (s.thread p).user = true)
include h hp hu

theorem Sim.parent_ne_root : (s.thread p).parent ≠ .root := by
  intro hpr
  obtain rfl := h.kind.root p hp hpr
  exact h.kind.func 0 hp hu h.kind.menu.2

theorem Sim.parent_orphan_iff (hpa : F.fate p = .alive) :
    (s.thread p).parent = .orphan ↔ ∀ q, p ∉ F.kids q := by
  have hpar := h.link.parent p hpa
  cases hpr : (s.thread p).parent with
  | root => exact (h.parent_ne_root hp hu hpr).elim
  | orphan =>
    rw [hpr] at hpar
    exact iff_of_true rfl hpar
  | of t =>
    rw [hpr] at hpar
    obtain ⟨q, hq, _⟩ := hpar
    exact iff_of_false (by simp) fun hno => hno q hq

variable (hwf : F.WF) (hr : (s.thread p).status = .running)
include hwf hr

/-- `sys_exit` of a user process follows no pointer that leads nowhere. -/
theorem Sim.sysExit_ok (ret : Word) : ∃ s', s.sysExit p ret = .ok s' ∧ Exited F s s' p ret := by
  have hpa := h.alive_of_running hp (not_gone_of_running hr)
  obtain ⟨s₁, hrun₁, hd⟩ := disown_ok hwf (h.link.children p hpa)
    (fun x hx => (hwf.kid p x hx).2) (fun x hx hxa => h.reaches_kid hu hx hxa)
  have hself : s₁.thread p = s.thread p := hd.other p fun hk => (hwf.irrefl p hk).elim
  have htid : (s.thread p).tid = F.tid p := h.link.tid p hp
  have hreach : ∀ q, p ∈ F.kids q → Reaches s₁ F q := by
    intro q hq
    obtain ⟨⟨key, hkey⟩, hlt, hst⟩ := h.reaches_parent hwf hp hu hq
    refine ⟨⟨key, (hd.slot_alive hwf (hwf.kid q p hq).1).trans hkey⟩, hd.next ▸ hlt, ?_⟩
    rw [hd.thread q]
    exact hst
  obtain ⟨s₂, hrun₂, hrep⟩ := report_ok ret hwf (by rw [hself]; exact htid)
    (hself ▸ h.link.parent p hpa) (by rw [hself]; exact h.parent_ne_root hp hu) hreach
  refine ⟨_, ?_, Exited.of_parts hwf hpa hd hrep htid (h.parent_orphan_iff hp hu hpa)⟩
  simp only [Threads.sysExit, hrun₁, bind, Except.bind, hrun₂]
  rfl

end

/-- The fate a process leaves with: its code is kept for a parent it still has. -/
def LeavesWith (F : Processes) (p : Nat) (ret : Word) (f : Fate Word) : Prop :=
  (∃ q, p ∈ F.kids q) ∧ f = .exited ret ∨ (∀ q, p ∉ F.kids q) ∧ f = .gone

theorem LeavesWith.ne_alive (h : LeavesWith F p ret f) : f ≠ .alive ∧ f ≠ .unborn := by
  rcases h with ⟨_, rfl⟩ | ⟨_, rfl⟩ <;> exact ⟨by simp, by simp⟩

theorem LeavesWith.exited {r : Word} (h : LeavesWith F p ret f) (hf : f = .exited r) :
    (∃ q, p ∈ F.kids q) ∧ r = ret := by
  rcases h with ⟨hq, rfl⟩ | ⟨_, rfl⟩
  · exact ⟨hq, (Fate.exited.inj hf).symm⟩
  · cases hf

theorem LeavesWith.exited_of_mem (h : LeavesWith F p ret f) (hq : p ∈ F.kids q) :
    f = .exited ret := by
  rcases h with ⟨_, hf⟩ | ⟨hno, _⟩
  · exact hf
  · exact (hno q hq).elim

/-- The entry of the process in its parent's list, and only that, is marked. -/
theorem forall₂_markDead {G : Processes} {l : List ChildInfo} (hwf : F.WF)
    (hd : List.Forall₂ (Describes F) l xs) (hu : ∀ x, x ∈ xs → F.InUse x) (hn : xs.Nodup)
    (hp : p ∈ xs) (ht : G.tid = F.tid) (hpf : G.fate p = .exited ret)
    (hf : ∀ x, x ∈ xs → x ≠ p → G.fate x = F.fate x) :
    List.Forall₂ (Describes G) (markDead (F.tid p) ret l) xs := by
  induction hd with
  | nil => cases hp
  | @cons item x l xs hd htail ih =>
    obtain ⟨hxn, hn⟩ := List.nodup_cons.mp hn
    by_cases hxp : x = p
    · subst hxp
      rw [markDead, if_pos hd.tid]
      refine .cons ⟨by rw [ht]; exact hd.tid, fun hne => (hne rfl).elim, fun _ => hpf⟩ ?_
      refine forall₂_imp_mem htail ?_
      intro item' y hy hd'
      have hyx : y ≠ x := by
        rintro rfl
        exact hxn hy
      exact hd'.congr (by rw [ht]) (hf y (mem_cons_of_mem _ hy) hyx)
    · have hmem : p ∈ xs := (mem_cons.mp hp).resolve_left (Ne.symm hxp)
      have hne : item.childTid ≠ F.tid p := by
        intro heq
        exact hxp (hwf.tids x p (hu x mem_cons_self)
          (hu p (mem_cons_of_mem _ hmem)) (hd.tid.symm.trans heq))
      rw [markDead, if_neg hne]
      refine .cons (hd.congr (by rw [ht]) (hf x mem_cons_self hxp)) ?_
      exact ih (fun y hy => hu y (mem_cons_of_mem _ hy)) hn hmem
        fun y hy => hf y (mem_cons_of_mem _ hy)

section
variable (h : Sim s F) (hwf : F.WF) (hpa : F.fate p = .alive) (he : Exited F s s' p ret)
  (hf : LeavesWith F p ret f)
include h hwf hpa he hf

theorem Sim.exit_table : TableSim s'.table.table (F.leave p f) := by
  have huse : ∀ x, (F.leave p f).InUse x → F.InUse x := by
    intro x hx
    by_cases hxp : x = p
    · exact .inl (hxp ▸ hpa)
    · exact hx.of_leave hxp
  -- the slot of a process that stays is neither the one left nor that of a dead child
  have hkeep : ∀ x, F.InUse x → x ≠ p → (∀ r, F.fate x = .exited r → x ∉ F.kids p) →
      s'.table.table (F.tid x) = s.table.table (F.tid x) := by
    intro x hx hxp hxk
    refine he.slot _ (fun htid => hxp (hwf.tids x p hx (.inl hpa) htid)) ?_
    intro y hy r hyr htid
    have hyx := hwf.tids y x (.inr ⟨r, hyr⟩) hx htid
    subst hyx
    exact hxk r hyr hy
  refine ⟨?_, ?_, ?_, ?_, ?_⟩
  · intro x hx
    have hxp : x ≠ p := by
      rintro rfl
      rw [fate_leave_self] at hx
      exact hf.ne_alive.1 hx
    have hxa := (alive_leave hxp).mp hx
    obtain ⟨key, hkey⟩ := h.table.alive x hxa
    refine ⟨key, (hkeep x (.inl hxa) hxp ?_).trans hkey⟩
    intro r hxr
    rw [hxa] at hxr
    cases hxr
  · intro i key x hi
    have hip : i ≠ F.tid p := by
      rintro rfl
      rcases hf with ⟨⟨q, hq⟩, _⟩ | ⟨hno, _⟩
      · rw [he.reserved q hq] at hi
        cases hi
      · rw [he.deleted hno] at hi
        cases hi
    have hik : ∀ y, y ∈ F.kids p → ∀ r, F.fate y = .exited r → F.tid y ≠ i := by
      rintro y hy r hyr rfl
      rw [he.freed y hy r hyr] at hi
      cases hi
    rw [he.slot i hip hik] at hi
    obtain ⟨hxa, hxt⟩ := h.table.entry i key x hi
    have hxp : x ≠ p := by
      rintro rfl
      exact hip hxt.symm
    exact ⟨(alive_leave hxp).mpr hxa, hxt⟩
  · intro x r hx
    by_cases hxp : x = p
    · subst hxp
      rw [fate_leave_self] at hx
      obtain ⟨⟨q, hq⟩, _⟩ := hf.exited hx
      exact he.reserved q hq
    · obtain ⟨hxr, hxk⟩ := (exited_leave hxp).mp hx
      exact (hkeep x (.inr ⟨r, hxr⟩) hxp fun _ _ => hxk).trans (h.table.exited x r hxr)
  · rw [he.slot 0 (h.table.nonzero p (.inl hpa)).symm]
    · exact h.table.zero
    · intro x hx r _
      exact h.table.nonzero x (hwf.kid p x hx).2
  · intro x hx
    exact h.table.nonzero x (huse x hx)

theorem Sim.exit_link : LinkSim s' (F.leave p f) := by
  have hfate : ∀ q x, q ≠ p → x ∈ F.kids q → x ≠ p → (F.leave p f).fate x = F.fate x := by
    intro q x hqp hx hxp
    rw [fate_leave hxp, if_neg]
    exact fun hk => hqp (hwf.one q p x hx hk)
  refine ⟨?_, ?_, ?_, ?_⟩
  · intro x
    rw [he.next]
    by_cases hxp : x = p
    · subst hxp
      rw [fate_leave_self]
      exact iff_of_false hf.ne_alive.2 (Nat.not_le.mpr (h.lt_next (.inl hpa)))
    · rw [fate_leave hxp, ← h.link.unborn x]
      split
      · cases F.fate x <;> simp [Fate.abandoned]
      · rfl
  · intro x hx
    rw [(he.fields x).1]
    exact h.link.tid x (he.next ▸ hx)
  · intro q hq
    have hqp : q ≠ p := by
      rintro rfl
      rw [fate_leave_self] at hq
      exact hf.ne_alive.1 hq
    have hold := h.link.children q ((alive_leave hqp).mp hq)
    have hkids : (F.leave p f).kids q = F.kids q := update_of_ne hqp ..
    rw [hkids]
    by_cases hpq : p ∈ F.kids q
    · rw [he.told q hpq]
      have hpf : (F.leave p f).fate p = .exited ret := by
        rw [fate_leave_self]
        exact hf.exited_of_mem hpq
      exact forall₂_markDead hwf hold (fun x hx => (hwf.kid q x hx).2) (hwf.nodup q) hpq rfl hpf
        fun x hx hxp => hfate q x hqp hx hxp
    · rw [he.list q hpq]
      refine forall₂_imp_mem hold ?_
      intro item x hx hd
      have hxp : x ≠ p := by
        rintro rfl
        exact hpq hx
      exact hd.congr rfl (hfate q x hqp hx hxp)
  · intro x hx
    have hxp : x ≠ p := by
      rintro rfl
      rw [fate_leave_self] at hx
      exact hf.ne_alive.1 hx
    have hxa := (alive_leave hxp).mp hx
    by_cases hk : x ∈ F.kids p
    · rw [he.orphan x hk hxa]
      intro q hq
      obtain ⟨hq, hqp⟩ := Family.mem_kids_leave.mp hq
      exact hqp (hwf.one q p x hq hk)
    rw [he.parent x fun hk' => (hk hk').elim]
    refine (h.link.parent x hxa).congr ?_ fun _ _ => rfl
    intro q
    rw [Family.mem_kids_leave]
    refine and_iff_left_of_imp ?_
    rintro hq rfl
    exact hk hq

theorem Sim.exit_status (hu : (s.thread p).user = true) : StatusSim s' (F.leave p f) := by
  have hpn := h.lt_next (.inl hpa)
  have hgone : ∀ x, x ≠ p → ((s'.thread x).Gone ↔ (s.thread x).Gone) := by
    intro x hxp
    simp only [Thread.Gone, he.status x, if_neg hxp]
    rcases (s.thread x).status.wakeup_cases p with ⟨k, hst, hw⟩ | ⟨hw, _⟩
    · rw [hw, hst]
      simp [Status.Gone]
    · rw [hw]
  have hkids : ∀ q, q ≠ p → (F.leave p f).kids q = F.kids q :=
    fun q hqp => update_of_ne hqp ..
  refine ⟨?_, ?_, ?_, ?_, ?_⟩
  · intro x hx
    by_cases hxp : x = p
    · subst hxp
      rw [fate_leave_self]
      refine iff_of_false hf.ne_alive.1 (not_not.mpr ⟨?_, (he.fields x).2.2.trans hu⟩)
      simp [Thread.Gone, he.status, Status.Gone]
    · rw [alive_leave hxp, h.status.ends x (he.next ▸ hx), hgone x hxp, (he.fields x).2.2]
  · have h0 : 0 ≠ p := by
      rintro rfl
      exact h.kind.func 0 hpn hu h.kind.menu.2
    rw [hgone 0 h0]
    exact h.status.menu
  · intro x hx
    rw [he.next] at hx
    rw [he.status x, if_neg (by omega), h.status.fresh x hx]
    rfl
  · intro q a i hq
    rw [he.status q] at hq
    split at hq
    · cases hq
    rename_i hqp
    rcases (s.thread q).status.wakeup_cases p with ⟨k, _, hw⟩ | ⟨hw, hne⟩
    · rw [hw] at hq
      cases hq
    rw [hw] at hq
    obtain ⟨hqu, x, hx, hxa, rfl⟩ := h.status.asleep q a i hq
    have hxp : x ≠ p := by
      rintro rfl
      exact hne _ hq
    exact ⟨(he.fields q).2.2.trans hqu, x, (hkids q hqp).symm ▸ hx,
      (alive_leave hxp).mpr hxa, rfl⟩
  · intro q i hq
    rw [he.status q] at hq
    split at hq
    · cases hq
    rename_i hqp
    rcases (s.thread q).status.wakeup_cases p with ⟨k, hst, hw⟩ | ⟨hw, _⟩
    · rw [hw] at hq
      cases hq
      obtain ⟨hqu, x, hx, _, heq⟩ := h.status.asleep q (some p) i hst
      cases heq
      refine ⟨(he.fields q).2.2.trans hqu, p, ret, (hkids q hqp).symm ▸ hx, ?_⟩
      rw [fate_leave_self]
      exact hf.exited_of_mem (List.mem_of_getElem? hx)
    · rw [hw] at hq
      obtain ⟨hqu, x, r, hx, hxr⟩ := h.status.woken q i hq
      have hxq := List.mem_of_getElem? hx
      have hxp : x ≠ p := by
        rintro rfl
        rw [hpa] at hxr
        cases hxr
      exact ⟨(he.fields q).2.2.trans hqu, x, r, (hkids q hqp).symm ▸ hx,
        (exited_leave hxp).mpr ⟨hxr, fun hk => hqp (hwf.one q p x hxq hk)⟩⟩

theorem Sim.exit (hu : (s.thread p).user = true) : Sim s' (F.leave p f) := by
  refine ⟨h.exit_table hwf hpa he hf, h.exit_link hwf hpa he hf, h.kind.mono he.next ?_ ?_,
    h.exit_status hwf hpa he hf hu⟩
  · intro q x hx
    exact (Family.mem_kids_leave.mp hx).1
  intro x
  obtain ⟨_, hfunc, huser⟩ := he.fields x
  refine ⟨hfunc, huser, ?_⟩
  intro hr
  by_cases hk : x ∈ F.kids p ∧ F.fate x = .alive
  · rw [he.orphan x hk.1 hk.2] at hr
    cases hr
  · rw [he.parent x fun hx hxa => hk ⟨hx, hxa⟩] at hr
    exact hr

end

end OS161
