import OS161.Thread.Exit

/-! Every step of the threads is a step of the family of processes. -/
namespace OS161

open Threads
open Status (Gone)
open Hashtable (htCreate)

variable {s s' : Threads} {F G : Processes} {a : ThreadEvent} {es : List ThreadEvent}
  {p q c x tid : Nat} {found : Option Nat} {mem : ForkMem}

/-- What an event is to the family. -/
def ThreadEvent.view : ThreadEvent → Family.Event Nat Nat Word
  | .fork p c tid => .fork p c tid
  | .exit p ret => .exit p ret
  | .waited p tid ret _ => .wait p tid ret
  | _ => .other

/-- The steps in which no `thread_fork` fails after it has taken its slot. -/
def CleanFork (_ : Threads) (a : ThreadEvent) : Prop :=
  ∀ p mem, a = .forkFailed p mem → mem.takesSlot = false

theorem cleanFork_of_ne {s : Threads} {a : ThreadEvent} (h : ∀ p mem, a ≠ .forkFailed p mem) :
    CleanFork s a :=
  fun p mem ha => (h p mem ha).elim

/-- Those of a run in which, besides, every thread ends through `sys_exit`. -/
def EndsByExit (s : Threads) (a : ThreadEvent) : Prop := CleanFork s a ∧ ∀ p, a ≠ .finish p

variable {ret : Word}

theorem threadFork_none {key : List Byte} {func : Func} (hm : mem.takesSlot = false)
    (h : s.threadFork p key func ret mem = (none, s')) :
    s' = s ∨ ∃ i, (s.table.table i).isFree = true ∧ s' = s.setSlot i .null := by
  by_cases hearly : mem = .early
  · rw [Threads.threadFork, if_pos hearly] at h
    cases h
    exact .inl rfl
  rw [Threads.threadFork, if_neg hearly] at h
  rcases s.table.htAddElement_cases key s.next mem.add with
    hadd | ⟨i, hfree, ⟨_, hadd⟩ | ⟨found, hadd, _⟩ | ⟨hadd, heq⟩⟩
  · rw [hadd] at h
    cases h
    exact .inl rfl
  · rw [hadd] at h
    cases h
    exact .inr ⟨i, hfree, rfl⟩
  · cases mem with
    | noKey | noItem | noList | late => cases hm
    | early | noEntry | enough => cases hadd
  rw [heq] at h
  cases mem with
  | noKey | noItem | noList | late => cases hm
  | early => exact (hearly rfl).elim
  | noEntry => cases hadd
  | enough => cases h

theorem Sim.setSlot_null {i : Nat} (h : Sim s F) (hi : (s.table.table i).isFree = true) :
    Sim (s.setSlot i .null) F :=
  ⟨h.table.null hi, ⟨h.link.unborn, h.link.tid, h.link.children, h.link.parent⟩,
    ⟨h.kind.menu, h.kind.root, h.kind.func, h.kind.kids, h.kind.forker, h.kind.childless⟩,
    ⟨h.status.ends, h.status.menu, h.status.fresh, h.status.asleep, h.status.woken⟩⟩

theorem thread_enterUser (s : Threads) (p x : Nat) :
    (s.set p { s.thread p with user := true }).thread x
      = { s.thread x with user := (s.thread x).user || x == p } := by
  by_cases hx : x = p
  · subst hx
    simp [Threads.set]
  · have hbeq : (x == p) = false := beq_false_of_ne hx
    simp [Threads.set, hx, hbeq]

theorem user_enterUser (p : Nat) (hx : (s.thread x).user = true) :
    ((s.set p { s.thread p with user := true }).thread x).user = true := by
  rw [thread_enterUser, hx]
  rfl

/-- A program that enters user mode has not forked yet. -/
theorem KindSim.enterUser (h : KindSim s F) (hf : (s.thread p).func = .prog) :
    KindSim (s.set p { s.thread p with user := true }) F := by
  have hkids : (s.thread p).user = false → F.kids p = [] := by
    intro hu
    by_contra hne
    rcases h.childless p hne with hu' | hk
    · rw [hu] at hu'
      cases hu'
    · rw [hf] at hk
      cases hk
  refine ⟨?_, ?_, ?_, ?_, ?_, ?_⟩
  · rw [thread_enterUser]
    exact h.menu
  · intro x hx
    rw [thread_enterUser]
    exact h.root x hx
  · intro x hx hu
    by_cases hxp : x = p
    · rw [thread_enterUser, hxp]
      rw [hf]
      simp
    · rw [thread_enterUser] at hu ⊢
      simp only [hxp, beq_iff_eq, Bool.or_eq_true, or_false] at hu
      exact h.func x hx hu
  · intro q x hx hu
    rw [thread_enterUser] at hu
    cases hq : (s.thread q).user with
    | true => exact user_enterUser p (h.kids q x hx hq)
    | false =>
      have hqp : q = p := by simpa [hq] using hu
      subst hqp
      rw [hkids hq] at hx
      cases hx
  · intro q x hx hfx
    rw [thread_enterUser] at hfx
    exact (h.forker q x hx hfx).imp (user_enterUser p) id
  · intro q hq
    rw [thread_enterUser]
    exact (h.childless q hq).imp (fun hu => by simp [hu]) id

theorem StatusSim.enterUser (h : StatusSim s F) (hr : (s.thread p).status = .running) :
    StatusSim (s.set p { s.thread p with user := true }) F := by
  refine ⟨?_, ?_, ?_, ?_, ?_⟩
  · intro x hx
    rw [h.ends x hx, thread_enterUser]
    by_cases hxp : x = p
    · subst hxp
      have hg := not_gone_of_running hr
      exact iff_of_true (fun hgu => hg hgu.1) (fun hgu => hg hgu.1)
    · simp [Thread.Gone, hxp]
  · rw [thread_enterUser]
    exact h.menu
  · intro x hx
    rw [thread_enterUser]
    exact h.fresh x hx
  · intro q a i hq
    rw [thread_enterUser] at hq
    obtain ⟨hu, hx⟩ := h.asleep q a i hq
    exact ⟨user_enterUser p hu, hx⟩
  · intro q i hq
    rw [thread_enterUser] at hq
    obtain ⟨hu, hx⟩ := h.woken q i hq
    exact ⟨user_enterUser p hu, hx⟩

theorem Sim.enterUser (h : Sim s F) (hr : (s.thread p).status = .running)
    (hf : (s.thread p).func = .prog) : Sim (s.set p { s.thread p with user := true }) F := by
  refine ⟨h.table, ⟨h.link.unborn, ?_, ?_, ?_⟩, h.kind.enterUser hf, h.status.enterUser hr⟩
  · intro x hx
    rw [thread_enterUser]
    exact h.link.tid x hx
  · intro q hq
    rw [thread_enterUser]
    exact h.link.children q hq
  · intro x hx
    rw [thread_enterUser]
    exact h.link.parent x hx

theorem Status.exorcise_cases (st : Status) :
    st = .zombie ∧ st.exorcise = .freed ∨ st.exorcise = st := by
  cases st with
  | zombie => exact .inl ⟨rfl, rfl⟩
  | running | launched | asleep | woken | leaving | freed => exact .inr rfl

theorem Sim.exorcise (h : Sim s F) : Sim s.exorcise F := by
  refine h.mapStatus ?_ ?_ (fun _ _ => rfl) ?_ ?_
  · intro x _ _
    rcases (s.thread x).status.exorcise_cases with ⟨hz, he⟩ | he
    · rw [he, Thread.Gone, hz]
      simp [Gone]
    · rw [he]
      rfl
  · have hm := h.status.menu
    rcases (s.thread 0).status.exorcise_cases with ⟨hz, _⟩ | he
    · simp [Thread.Gone, Gone, hz] at hm
    · rw [he]
      exact hm
  · intro q a i hq
    rcases (s.thread q).status.exorcise_cases with ⟨_, he⟩ | he
    · rw [he] at hq
      cases hq
    · rw [he] at hq
      exact hq
  · intro q i hq
    rcases (s.thread q).status.exorcise_cases with ⟨_, he⟩ | he
    · rw [he] at hq
      cases hq
    · rw [he] at hq
      exact hq

theorem step_refines (hs : ThreadStep s a s') (hok : CleanFork s a) (hwf : F.WF) (h : Sim s F) :
    ∃ G, Family.Step F a.view G ∧ Sim s' G := by
  have hgone : ∀ {st : Status} {x}, (s.thread x).status = st → ¬ st.Gone → ¬ (s.thread x).Gone := by
    rintro _ x rfl hst
    exact hst
  cases hs with
  | @fork _ _ _ _ func _ hr hp hf hfork =>
    have hk := threadFork_some hp hfork
    obtain ⟨hstep, hsim⟩ := h.fork hwf hp hk hr hf
    refine ⟨_, hstep, ?_⟩
    split
    · have hst : (_ : Thread).status = _ := (hk.same (Nat.ne_of_lt hp)).2.2.2.2
      refine hsim.setStatus (by rw [hk.next]; omega) (fun _ => ?_) (fun _ => ?_) (by simp) (by simp)
      · rw [Thread.Gone, hst, hr]
        simp [Gone]
      · simp [Gone]
    · exact hsim
  | forkFailed hr hp hf hfork =>
    rcases threadFork_none (hok _ _ rfl) hfork with rfl | ⟨i, hi, rfl⟩
    · exact ⟨F, .other, h⟩
    · exact ⟨F, .other, h.setSlot_null hi⟩
  | enterUser hr hp hf => exact ⟨F, .other, h.enterUser hr hf⟩
  | progSleep hl hp =>
    refine ⟨F, .other, h.setStatus hp (fun _ => ?_) (fun _ => by simp [Gone]) (by simp)
      (by simp)⟩
    exact iff_of_false (by simp [Gone]) (hgone hl (by simp [Gone]))
  | progWake hw hp =>
    refine ⟨F, .other, h.setStatus hp (fun _ => ?_) (fun _ => by simp [Gone]) (by simp)
      (by simp)⟩
    exact iff_of_false (by simp [Gone]) (hgone hw (by simp [Gone]))
  | waitFailed hr hp hu hc => exact ⟨F, .other, h⟩
  | waitSleep hr hp hu hc hi hd =>
    have hg := not_gone_of_running hr
    have htid := childTid_of_findChild hc hi
    refine ⟨F, .other, ?_⟩
    rw [← htid]
    exact h.join (h.alive_of_running hp hg) hg hi hu hd
  | waitNow hr hp hu hc hi hd =>
    have hg := not_gone_of_running hr
    have hpa := h.alive_of_running hp hg
    have htid := childTid_of_findChild hc hi
    obtain ⟨x, hx, hdesc⟩ := forall₂_getElem? (h.link.children _ hpa) hi
    have hxr := hdesc.exited hd
    exact ⟨_, .wait (List.mem_of_getElem? hx) (hdesc.tid.symm.trans htid) hxr,
      h.reap hwf hx hxr hpa hg hdesc.tid⟩
  | @waitEnd _ _ item _ hw hp hi =>
    have hg := hgone hw (by simp [Gone])
    have hpa := h.alive_of_running hp hg
    obtain ⟨_, x, r, hx, hxr⟩ := h.status.woken _ _ hw
    obtain ⟨x', hx', hdesc⟩ := forall₂_getElem? (h.link.children _ hpa) hi
    rw [hx] at hx'
    cases hx'
    have hdead : item.status = .dead := by
      by_contra hd
      rw [hdesc.alive hd] at hxr
      cases hxr
    exact ⟨_, .wait (List.mem_of_getElem? hx) hdesc.tid.symm (hdesc.exited hdead),
      h.reap hwf hx hxr hpa hg hdesc.tid⟩
  | @exit _ p ret hr hp hu hexit =>
    obtain ⟨s₁, hrun, he⟩ := h.sysExit_ok hp hu hwf hr ret
    rw [hexit] at hrun
    cases hrun
    have hpa := h.alive_of_running hp (not_gone_of_running hr)
    by_cases hq : ∃ q, p ∈ F.kids q
    · obtain ⟨q, hq⟩ := hq
      exact ⟨_, .exit hpa hq, h.exit hwf hpa he (.inl ⟨⟨q, hq⟩, rfl⟩) hu⟩
    · have hno : ∀ q, p ∉ F.kids q := fun q hk => hq ⟨q, hk⟩
      exact ⟨_, .exitOrphan hpa hno, h.exit hwf hpa he (.inr ⟨hno, rfl⟩) hu⟩
  | finish hr hp hu hm =>
    refine ⟨F, .other, h.setStatus hp (fun hu' => ?_) (fun h0 => (hm h0).elim) (by simp) (by simp)⟩
    rw [hu] at hu'
    cases hu'
  | zombie hl hp =>
    refine ⟨F, .other, h.setStatus hp (fun _ => ?_) (fun h0 => ?_) (by simp) (by simp)⟩
    · exact iff_of_true (.inr (.inl rfl)) (.inl hl)
    · subst h0
      exact (h.status.menu (.inl hl)).elim
  | exorcise => exact ⟨F, .other, h.exorcise⟩

/-- The family of a kernel that has just booted: the menu's thread. -/
def bootFamily : Processes where
  tid _ := 147
  fate x := if x = 0 then .alive else .unborn
  kids _ := []

theorem threadBootstrap_eq (found : Option Nat) : threadBootstrap found
    = ⟨((htCreate ptbSize found).set 0 .reserved).set 147 (.entry (some bootKey) 0),
        fun _ => bootThread 147, 1⟩ := by
  have hhash : (hashfunction bootKey).toNat % ptbSize = 147 := by decide +kernel
  have hprobe : ((htCreate ptbSize found).set 0 .reserved).probe 147 ptbSize 0
      = some 147 := rfl
  have hadd : ((htCreate ptbSize found).set 0 .reserved).htAddElement bootKey 0 .enough
      = (some 147, ((htCreate ptbSize found).set 0 .reserved).set 147
          (.entry (some bootKey) 0)) := by
    have hsize : ((htCreate ptbSize found).set 0 .reserved).size = ptbSize := rfl
    rw [Hashtable.htAddElement, hsize, hhash, hprobe]
  rw [threadBootstrap, hadd]

theorem boot_next : (threadBootstrap found).next = 1 := by rw [threadBootstrap_eq]

theorem boot_thread (x : Nat) : (threadBootstrap found).thread x = bootThread 147 := by
  rw [threadBootstrap_eq]

theorem boot_kids (q x : Nat) : x ∉ bootFamily.kids q := List.not_mem_nil

theorem tableSim_boot : TableSim (threadBootstrap found).table.table bootFamily := by
  have hslot : ∀ i, (threadBootstrap found).table.table i
      = if i = 147 then .entry (some bootKey) 0 else if i = 0 then .reserved else .null := by
    simp [threadBootstrap_eq, Hashtable.set, htCreate, Function.update_apply]
  refine ⟨?_, ?_, ?_, ?_, ?_⟩
  · intro x hx
    have hx0 : x = 0 := by
      by_contra hne
      simp [bootFamily, hne] at hx
    rw [hx0, hslot]
    exact ⟨some bootKey, rfl⟩
  · intro i key x hi
    rw [hslot] at hi
    split at hi
    · rename_i hi147
      cases hi
      exact ⟨rfl, hi147.symm⟩
    · split at hi <;> cases hi
  · intro x r hx
    simp only [bootFamily] at hx
    split at hx <;> cases hx
  · rw [hslot]
    rfl
  · intro x _
    exact (by decide : 147 ≠ 0)

theorem linkSim_boot : LinkSim (threadBootstrap found) bootFamily := by
  refine ⟨?_, ?_, ?_, ?_⟩
  · intro x
    rw [boot_next]
    by_cases hx : x = 0
    · simp [bootFamily, hx]
    · simp [bootFamily, hx, Nat.one_le_iff_ne_zero]
  · intro x _
    rw [boot_thread]
    rfl
  · intro q _
    rw [boot_thread]
    exact .nil
  · intro x _
    rw [boot_thread]
    exact fun q => boot_kids q x

theorem kindSim_boot : KindSim (threadBootstrap found) bootFamily := by
  refine ⟨?_, ?_, ?_, ?_, ?_, ?_⟩
  · rw [boot_next, boot_thread]
    exact ⟨Nat.one_pos, rfl⟩
  · intro x hx _
    rw [boot_next] at hx
    exact Nat.lt_one_iff.mp hx
  · intro x _ hu
    rw [boot_thread] at hu
    cases hu
  · intro q x hx
    exact (boot_kids q x hx).elim
  · intro q x hx
    exact (boot_kids q x hx).elim
  · intro q hq
    exact (hq rfl).elim

theorem statusSim_boot : StatusSim (threadBootstrap found) bootFamily := by
  refine ⟨?_, ?_, ?_, ?_, ?_⟩
  · intro x hx
    rw [boot_next] at hx
    rw [boot_thread, Nat.lt_one_iff.mp hx]
    simp [bootFamily, bootThread]
  · rw [boot_thread]
    simp [bootThread, Thread.Gone, Gone]
  · intro x _
    rw [boot_thread]
    rfl
  · intro p a i hp
    rw [boot_thread] at hp
    cases hp
  · intro p i hp
    rw [boot_thread] at hp
    cases hp

theorem Sim.fork_tid (h : Sim s F) (hs : ThreadStep s (.fork p c tid) s') : tid ≠ 0 := by
  cases hs with
  | fork hr hp hf hfork => exact h.table.free_ne_zero (threadFork_some hp hfork).free

theorem run_refines (h : Lts.Run (Lts.Restrict ThreadStep CleanFork) (threadBootstrap found) es s) :
    ∃ F, Family.Told (es.map ThreadEvent.view) F ∧ Sim s F ∧
      ∀ p c tid, .fork p c tid ∈ es → tid ≠ 0 := by
  refine h.history (fun es s => ∃ F, Family.Told (es.map ThreadEvent.view) F ∧ Sim s F ∧
    ∀ p c tid, .fork p c tid ∈ es → tid ≠ 0) ?_ ?_
  · refine ⟨bootFamily, Family.told_root (p := 0) (fun _ => rfl) ?_ ?_,
      ⟨tableSim_boot, linkSim_boot, kindSim_boot, statusSim_boot⟩, by simp⟩
    · intro x hx
      by_contra hne
      rcases hx with hx | ⟨r, hx⟩ <;> simp [bootFamily, hne] at hx
    · intro x r hx
      simp only [bootFamily] at hx
      split at hx <;> cases hx
  · rintro es s a s' ⟨F, htold, hsim, htids⟩ ⟨hs, hok⟩
    obtain ⟨G, hG, hsim'⟩ := step_refines hs hok htold.wf hsim
    refine ⟨G, ?_, hsim', ?_⟩
    · rw [List.map_append]
      exact htold.step hG
    intro p c tid hmem
    rcases List.mem_append.mp hmem with hmem | hmem
    · exact htids p c tid hmem
    · obtain rfl := List.mem_singleton.mp hmem
      exact hsim.fork_tid hs

/-- `p` has forked `c` with this tid and not waited for the tid since. -/
def PendingChild (es : List ThreadEvent) (p c tid : Nat) : Prop :=
  ∃ es₁ es₂, es = es₁ ++ .fork p c tid :: es₂ ∧ ∀ ret copied, .waited p tid ret copied ∉ es₂

def Threads.Alive (s : Threads) (x : Nat) : Prop := x < s.next ∧ ¬ (s.thread x).Gone

/-- The process is alive, or dead and not yet waited for by a parent that is alive. -/
def HoldsTid (es : List ThreadEvent) (s : Threads) (x : Nat) : Prop :=
  s.Alive x ∨ ∃ p tid, PendingChild es p x tid ∧ s.Alive p

theorem ThreadEvent.view_fork (h : a.view = .fork p c tid) : a = .fork p c tid := by
  cases a <;> simp_all [ThreadEvent.view]

theorem ThreadEvent.view_exit (h : a.view = .exit p ret) : a = .exit p ret := by
  cases a <;> simp_all [ThreadEvent.view]

theorem ThreadEvent.view_wait (h : a.view = .wait p tid ret) :
    ∃ copied, a = .waited p tid ret copied := by
  cases a <;> simp_all [ThreadEvent.view]

theorem pending_view :
    Family.Pending (es.map ThreadEvent.view) p c tid ↔ PendingChild es p c tid := by
  constructor
  · rintro ⟨l₁, l₂, heq, hw⟩
    obtain ⟨es₁, es', rfl, rfl, hes'⟩ := List.map_eq_append_iff.mp heq
    obtain ⟨a, es₂, rfl, ha, rfl⟩ := List.map_eq_cons_iff.mp hes'
    obtain rfl := ThreadEvent.view_fork ha
    refine ⟨es₁, es₂, rfl, ?_⟩
    intro ret copied hmem
    exact hw ret (List.mem_map.mpr ⟨_, hmem, rfl⟩)
  · rintro ⟨es₁, es₂, rfl, hw⟩
    refine ⟨es₁.map _, es₂.map _, List.map_append, ?_⟩
    intro ret hmem
    obtain ⟨a, ha, hview⟩ := List.mem_map.mp hmem
    obtain ⟨copied, rfl⟩ := ThreadEvent.view_wait hview
    exact hw ret copied ha

section
variable (ht : Family.Told (es.map ThreadEvent.view) F) (h : Sim s F)
include ht h

theorem Sim.inUse_of_holds (hx : HoldsTid es s x) : F.InUse x := by
  rcases hx with ⟨hlt, hg⟩ | ⟨p, tid, hpend, hlt, hg⟩
  · exact .inl (h.alive_of_running hlt hg)
  · obtain ⟨hk, _⟩ := ht.known p x tid (pending_view.mpr hpend) (h.alive_of_running hlt hg)
    exact (ht.wf.kid p x hk).2

/-- What a call of `sys_wait` that returns a code has found, and leaves. -/
theorem Sim.waited {ret : Word} {copied : Bool} (hs : ThreadStep s (.waited p tid ret copied) s') :
    ∃ c, PendingChild es p c tid ∧ .exit c ret ∈ es ∧
      (∀ tid', ¬ PendingChild (es ++ [.waited p tid ret copied]) p c tid') ∧
      (s'.table.table tid).isFree = true := by
  obtain ⟨G, hG, hsim⟩ := step_refines hs (cleanFork_of_ne (by simp)) ht.wf h
  have htold := ht.step hG
  have hfree : (s'.table.table tid).isFree = true := by
    cases hs with
    | waitNow hr hp hu hc hi hd =>
      rw [← childTid_of_findChild hc hi]
      simp [Threads.reap, Threads.setSlot, Threads.set, Hashtable.set, Slot.isFree]
    | waitEnd hw hp hi =>
      simp [Threads.reap, Threads.setSlot, Threads.set, Hashtable.set, Slot.isFree]
  generalize hv : (ThreadEvent.waited p tid ret copied).view = e at hG htold
  cases hG with
  | @wait _ c _ _ hc htid hr =>
    cases hv
    refine ⟨c, ?_, ?_, ?_, hfree⟩
    · have hpend := ht.kids p c hc
      rw [htid] at hpend
      exact pending_view.mp hpend
    · obtain ⟨a, ha, hview⟩ := List.mem_map.mp (ht.code c ret hr)
      rwa [ThreadEvent.view_exit hview] at ha
    intro tid' hpend
    have hpend' := pending_view.mpr hpend
    rw [List.map_append] at hpend'
    have hpc : p ≠ c := by
      rintro rfl
      exact ht.wf.irrefl p hc
    have hpa : (F.reap p c).fate p = .alive :=
      (Family.fate_reap hpc).trans (ht.wf.kid p c hc).1
    obtain ⟨hk, _⟩ := htold.known p c tid' hpend' hpa
    exact ((Family.mem_kids_reap (ht.wf.nodup p)).mp hk).2 ⟨rfl, rfl⟩
  | fork | exit | exitOrphan | other => cases hv

end

/-- In a run in which no fork fails with its slot taken: processes that are alive, or dead and to be
waited for, have different tids, none of them 0; and a code that `sys_wait` reports for a tid is the
one with which the child of that tid has called `sys_exit`, which was not waited for before, is not
to be waited for again, and leaves its tid free. -/
theorem exit_status_delivered
    (h : Lts.Run (Lts.Restrict ThreadStep CleanFork) (threadBootstrap found) es s) :
    (∀ x y, HoldsTid es s x → HoldsTid es s y → (s.thread x).tid = (s.thread y).tid → x = y) ∧
    (∀ p c tid, .fork p c tid ∈ es → tid ≠ 0) ∧
    (∀ p tid ret u, ThreadStep s (.waited p tid ret true) u →
      ∃ c, PendingChild es p c tid ∧ .exit c ret ∈ es ∧
        (∀ tid', ¬ PendingChild (es ++ [.waited p tid ret true]) p c tid') ∧
        (u.table.table tid).isFree = true) := by
  obtain ⟨F, ht, hsim, htids⟩ := run_refines h
  refine ⟨?_, htids, fun p tid ret u hs => hsim.waited ht hs⟩
  intro x y hx hy heq
  have hxu := hsim.inUse_of_holds ht hx
  have hyu := hsim.inUse_of_holds ht hy
  rw [hsim.link.tid x (hsim.lt_next hxu), hsim.link.tid y (hsim.lt_next hyu)] at heq
  exact ht.wf.tids x y hxu hyu heq

namespace Launch

def booted : Threads := threadBootstrap none

/-- What `snprintf` makes of 0x80100n00, the address of thread `n`. -/
def addrKey (n : Nat) : List Byte := [56, 48, 49, 48, 48, BitVec.ofNat 8 (48 + n), 48, 48]

def forked (s : Threads) (p : Nat) (func : Func) : Threads :=
  (s.threadFork p (addrKey s.next) func 0#32 .enough).2

def launched : Threads := (forked booted 0 .prog).setStatus 0 (.launched 1)

def entered : Threads := launched.set 1 { launched.thread 1 with user := true }

def doubled : Threads := forked entered 1 .forkentry

def afterExit (s : Threads) (p : Nat) (ret : Word) : Threads :=
  match s.sysExit p ret with
  | .ok s' => s'
  | .error _ => s

def history : List ThreadEvent := [.fork 0 1 35, .enterUser 1, .fork 1 2 36, .exit 2 7#32]

theorem step_forked (s : Threads) (p tid : Nat) (func : Func) (hr : (s.thread p).status = .running)
    (hp : p < s.next) (hf : MayFork s p func)
    (h : (s.threadFork p (addrKey s.next) func 0#32 .enough).1 = some tid) :
    ThreadStep s (.fork p s.next tid)
      (if func = .prog then (forked s p func).setStatus p (.launched s.next)
        else forked s p func) :=
  .fork hr hp hf (Prod.ext h rfl)

theorem step_afterExit (s : Threads) (p : Nat) (ret : Word) (hr : (s.thread p).status = .running)
    (hp : p < s.next) (hu : (s.thread p).user = true) (h : (s.sysExit p ret).isOk = true) :
    ThreadStep s (.exit p ret) (afterExit s p ret) := by
  unfold afterExit
  cases hx : s.sysExit p ret with
  | error e => simp [hx, Except.isOk, Except.toBool] at h
  | ok s' => exact .exit hr hp hu hx

theorem step_launched : ThreadStep booted (.fork 0 1 35) launched :=
  step_forked booted 0 35 .prog rfl (by decide) rfl (by decide +kernel)

theorem run_history : Lts.Run (Lts.Restrict ThreadStep EndsByExit) booted history
    (afterExit doubled 2 7#32) := by
  have henter : ThreadStep launched (.enterUser 1) entered :=
    .enterUser (by decide +kernel) (by decide +kernel) (by decide +kernel)
  have hdouble : ThreadStep entered (.fork 1 2 36) doubled :=
    step_forked entered 1 36 .forkentry (by decide +kernel) (by decide +kernel)
      (show (entered.thread 1).user = true by decide +kernel) (by decide +kernel)
  have hexit : ThreadStep doubled (.exit 2 7#32) (afterExit doubled 2 7#32) :=
    step_afterExit doubled 2 7#32 (by decide +kernel) (by decide +kernel) (by decide +kernel)
      (by decide +kernel)
  exact .head ⟨step_launched, cleanFork_of_ne (by simp), by simp⟩ <|
    .head ⟨henter, cleanFork_of_ne (by simp), by simp⟩ <|
    .head ⟨hdouble, cleanFork_of_ne (by simp), by simp⟩ <|
    .single ⟨hexit, cleanFork_of_ne (by simp), by simp⟩

/-- The program waits for its child and gets the code. -/
theorem exit_status_delivered_seven :
    ∃ u, ThreadStep (afterExit doubled 2 7#32) (.waited 1 36 7#32 true) u ∧
      ∃ c, PendingChild history 1 c 36 ∧ .exit c 7#32 ∈ history := by
  have hwait : ThreadStep (afterExit doubled 2 7#32) (.waited 1 36 7#32 true)
      ((afterExit doubled 2 7#32).reap 1 36 0) :=
    @ThreadStep.waitNow _ 1 36 0 ⟨36, 7#32, .dead⟩ true (by decide +kernel) (by decide +kernel)
      (by decide +kernel) (by decide +kernel) (by decide +kernel) rfl
  have hrun : Lts.Run (Lts.Restrict ThreadStep CleanFork) booted history
      (afterExit doubled 2 7#32) :=
    run_history.mono fun _ _ _ hs => ⟨hs.1, hs.2.1⟩
  obtain ⟨c, hpend, hcode, _⟩ := (exit_status_delivered hrun).2.2 1 36 7#32 _ hwait
  exact ⟨_, hwait, c, hpend, hcode⟩

end Launch

end OS161
