import OS161.Lib.Family
import OS161.Thread.Threads

/-! Process table, `parent` fields and child lists are three records of the family. -/
namespace OS161

open Function (update_self update_of_ne update)

abbrev Processes := Family Nat Nat Word

variable {s s' : Threads} {F : Processes} {p q c i x y tid : Nat} {ret : Word} {item : ChildInfo}
  {T : Nat → Slot Nat} {key : Option (List Byte)} {f : Fate Word}

structure TableSim (T : Nat → Slot Nat) (F : Processes) : Prop where
  alive : ∀ x, F.fate x = .alive → ∃ key, T (F.tid x) = .entry key x
  entry : ∀ i key x, T i = .entry key x → F.fate x = .alive ∧ F.tid x = i
  exited : ∀ x r, F.fate x = .exited r → T (F.tid x) = .reserved
  zero : T 0 = .reserved
  nonzero : ∀ x, F.InUse x → F.tid x ≠ 0

open Family (fate_reap born reap_alive)

section
variable (h : TableSim T F)
include h

section
variable (hi : (T i).isFree = true)
include hi

theorem TableSim.free (hx : F.InUse x) : F.tid x ≠ i := by
  rintro rfl
  rcases hx with hx | ⟨r, hx⟩
  · obtain ⟨key, hkey⟩ := h.alive x hx
    rw [hkey] at hi
    cases hi
  · rw [h.exited x r hx] at hi
    cases hi

theorem TableSim.free_ne_zero : i ≠ 0 := by
  rintro rfl
  rw [h.zero] at hi
  cases hi

theorem TableSim.null : TableSim (update T i .null) F := by
  have hkeep : ∀ x, F.InUse x → update T i .null (F.tid x) = T (F.tid x) :=
    fun x hx => update_of_ne (h.free hi hx) ..
  refine ⟨?_, ?_, ?_, ?_, h.nonzero⟩
  · intro x hx
    rw [hkeep x (.inl hx)]
    exact h.alive x hx
  · intro j key x hj
    by_cases hji : j = i
    · subst hji
      simp at hj
    · rw [update_of_ne hji] at hj
      exact h.entry j key x hj
  · intro x r hx
    rw [hkeep x (.inr ⟨r, hx⟩)]
    exact h.exited x r hx
  · rw [update_of_ne (h.free_ne_zero hi).symm]
    exact h.zero

theorem TableSim.fork (hc : F.fate c = .unborn) :
    TableSim (update T i (.entry key c)) (F.born p c i) := by
  have hkeep : ∀ x, F.InUse x → (F.born p c i).tid x = F.tid x ∧
      update T i (.entry key c) (F.tid x) = T (F.tid x) :=
    fun x hx => ⟨update_of_ne (hx.ne hc) .., update_of_ne (h.free hi hx) ..⟩
  have hself : (F.born p c i).tid c = i := update_self ..
  have hfate : ∀ x, x ≠ c → (F.born p c i).fate x = F.fate x :=
    fun x hx => update_of_ne hx ..
  have hborn : (F.born p c i).fate c = .alive := update_self ..
  refine ⟨?_, ?_, ?_, ?_, ?_⟩
  · intro x hx
    by_cases hxc : x = c
    · subst hxc
      rw [hself, update_self]
      exact ⟨key, rfl⟩
    · rw [hfate x hxc] at hx
      obtain ⟨htid, hslot⟩ := hkeep x (.inl hx)
      rw [htid, hslot]
      exact h.alive x hx
  · intro j key' x hj
    by_cases hji : j = i
    · subst hji
      rw [update_self] at hj
      cases hj
      exact ⟨hborn, hself⟩
    · rw [update_of_ne hji] at hj
      obtain ⟨hx, htid⟩ := h.entry j key' x hj
      rw [hfate x (Family.InUse.ne (.inl hx) hc), (hkeep x (.inl hx)).1]
      exact ⟨hx, htid⟩
  · intro x r hx
    have hxc : x ≠ c := by
      rintro rfl
      rw [hborn] at hx
      cases hx
    rw [hfate x hxc] at hx
    obtain ⟨htid, hslot⟩ := hkeep x (.inr ⟨r, hx⟩)
    rw [htid, hslot]
    exact h.exited x r hx
  · rw [update_of_ne (h.free_ne_zero hi).symm]
    exact h.zero
  intro x hx
  rcases Family.inUse_born.mp hx with hx | rfl
  · rw [(hkeep x hx).1]
    exact h.nonzero x hx
  · rw [hself]
    exact h.free_ne_zero hi

end

theorem TableSim.reap (hwf : F.WF) (hc : F.fate c = .exited ret) :
    TableSim (update T (F.tid c) .deleted) (F.reap p c) := by
  have hcu : F.InUse c := .inr ⟨ret, hc⟩
  have hkeep : ∀ x, F.InUse x → x ≠ c →
      update T (F.tid c) .deleted (F.tid x) = T (F.tid x) :=
    fun x hx hxc => update_of_ne (fun htid => hxc (hwf.tids x c hx hcu htid)) ..
  have hne : ∀ x, (F.reap p c).InUse x → x ≠ c := fun x hx => (Family.inUse_reap.mp hx).2
  refine ⟨?_, ?_, ?_, ?_, ?_⟩
  · intro x hx
    have hxc := hne x (.inl hx)
    rw [fate_reap hxc] at hx
    obtain ⟨key, hkey⟩ := h.alive x hx
    exact ⟨key, (hkeep x (.inl hx) hxc).trans hkey⟩
  · intro j key x hj
    by_cases hjc : j = F.tid c
    · subst hjc
      simp at hj
    rw [update_of_ne hjc] at hj
    obtain ⟨hx, htid⟩ := h.entry j key x hj
    refine ⟨?_, htid⟩
    rw [fate_reap]
    · exact hx
    · rintro rfl
      exact hjc htid.symm
  · intro x r hx
    have hxc := hne x (.inr ⟨r, hx⟩)
    rw [fate_reap hxc] at hx
    exact (hkeep x (.inr ⟨r, hx⟩) hxc).trans (h.exited x r hx)
  · rw [update_of_ne (h.nonzero c hcu).symm]
    exact h.zero
  · intro x hx
    exact h.nonzero x (Family.inUse_reap.mp hx).1

end

/-- What an entry of a child list says about the child. -/
structure Describes (F : Processes) (item : ChildInfo) (x : Nat) : Prop where
  tid : item.childTid = F.tid x
  alive : item.status ≠ .dead → F.fate x = .alive
  exited : item.status = .dead → F.fate x = .exited item.ret

variable {G : Processes}

theorem Describes.congr (h : Describes F item x) (ht : G.tid x = F.tid x)
    (hf : G.fate x = F.fate x) : Describes G item x :=
  ⟨h.tid.trans ht.symm, fun hd => hf.trans (h.alive hd), fun hd => hf.trans (h.exited hd)⟩

/-- What the field `parent` says about its thread. -/
def ParentOK (F : Processes) (x : Nat) : Parent → Prop
  | .of tid => ∃ q, x ∈ F.kids q ∧ F.tid q = tid
  | _ => ∀ q, x ∉ F.kids q

theorem ParentOK.congr {par : Parent} (h : ParentOK F x par)
    (hk : ∀ q, x ∈ G.kids q ↔ x ∈ F.kids q) (ht : ∀ q, x ∈ F.kids q → G.tid q = F.tid q) :
    ParentOK G x par := by
  cases par with
  | root | orphan => exact fun q hq => h q ((hk q).mp hq)
  | of t =>
    obtain ⟨q, hq, hqt⟩ := h
    exact ⟨q, (hk q).mpr hq, (ht q hq).trans hqt⟩

structure LinkSim (s : Threads) (F : Processes) : Prop where
  unborn : ∀ x, F.fate x = .unborn ↔ s.next ≤ x
  tid : ∀ x, x < s.next → (s.thread x).tid = F.tid x
  children : ∀ q, F.fate q = .alive →
    List.Forall₂ (Describes F) (s.thread q).childList (F.kids q)
  parent : ∀ x, F.fate x = .alive → ParentOK F x (s.thread x).parent

/-- Who has entered user mode, and whose children they are. -/
structure KindSim (s : Threads) (F : Processes) : Prop where
  menu : 0 < s.next ∧ (s.thread 0).func = .kernel
  root : ∀ x, x < s.next → (s.thread x).parent = .root → x = 0
  func : ∀ x, x < s.next → (s.thread x).user = true → (s.thread x).func ≠ .kernel
  kids : ∀ q x, x ∈ F.kids q → (s.thread q).user = true → (s.thread x).user = true
  forker : ∀ q x, x ∈ F.kids q → (s.thread x).func ≠ .kernel → (s.thread q).user = true ∨ q = 0
  childless : ∀ q, F.kids q ≠ [] → (s.thread q).user = true ∨ (s.thread q).func = .kernel

structure StatusSim (s : Threads) (F : Processes) : Prop where
  ends : ∀ x, x < s.next →
    (F.fate x = .alive ↔ ¬ ((s.thread x).Gone ∧ (s.thread x).user = true))
  menu : ¬ (s.thread 0).Gone
  fresh : ∀ x, s.next ≤ x → (s.thread x).status = .running
  asleep : ∀ p a i, (s.thread p).status = .asleep a (.wait i) → (s.thread p).user = true ∧
    ∃ x, (F.kids p)[i]? = some x ∧ F.fate x = .alive ∧ a = some x
  woken : ∀ p i, (s.thread p).status = .woken (.wait i) → (s.thread p).user = true ∧
    ∃ x r, (F.kids p)[i]? = some x ∧ F.fate x = .exited r

structure Sim (s : Threads) (F : Processes) : Prop where
  table : TableSim s.table.table F
  link : LinkSim s F
  kind : KindSim s F
  status : StatusSim s F

theorem Sim.lt_next (h : Sim s F) (hx : F.InUse x) : x < s.next := by
  by_contra hle
  have hu := (h.link.unborn x).mpr (Nat.le_of_not_lt hle)
  exact hx.ne hu rfl

/-- The thread that the next `thread_fork` makes is in no family yet. -/
theorem Sim.ne_next (h : Sim s F) (hwf : F.WF) (hx : x ∈ F.kids q) : q ≠ s.next ∧ x ≠ s.next := by
  obtain ⟨hq, hxu⟩ := hwf.kid q x hx
  exact ⟨Nat.ne_of_lt (h.lt_next (.inl hq)), Nat.ne_of_lt (h.lt_next hxu)⟩

/-- A step that changes nothing but where threads are in their code. -/
theorem Sim.mapStatus {g : Nat → Status → Status} (h : Sim s F)
    (hgone : ∀ x, x < s.next → (s.thread x).user = true →
      ((g x (s.thread x).status).Gone ↔ (s.thread x).Gone))
    (hmenu : ¬ (g 0 (s.thread 0).status).Gone) (hfresh : ∀ x, s.next ≤ x → g x .running = .running)
    (hasleep : ∀ p a i, g p (s.thread p).status = .asleep a (.wait i) →
      (s.thread p).status = .asleep a (.wait i))
    (hwoken : ∀ p i, g p (s.thread p).status = .woken (.wait i) →
      (s.thread p).status = .woken (.wait i)) : Sim (s.mapStatus g) F := by
  refine ⟨h.table, ⟨h.link.unborn, h.link.tid, h.link.children, h.link.parent⟩,
    ⟨h.kind.menu, h.kind.root, h.kind.func, h.kind.kids, h.kind.forker, h.kind.childless⟩, ?_⟩
  refine ⟨?_, hmenu, ?_, ?_, ?_⟩
  · intro x hx
    rw [h.status.ends x hx]
    refine not_congr (and_congr_left fun hu => ?_)
    exact (hgone x hx hu).symm
  · intro x hx
    have hr := h.status.fresh x hx
    have hg := hfresh x hx
    simp only [Threads.mapStatus, hr, hg]
  · intro p a i hp
    exact h.status.asleep p a i (hasleep p a i hp)
  · intro p i hp
    exact h.status.woken p i (hwoken p i hp)

theorem setStatus_eq (s : Threads) (p : Nat) (st : Status) :
    s.setStatus p st = s.mapStatus fun q old => if q = p then st else old := by
  unfold Threads.setStatus Threads.set Threads.mapStatus
  congr 1
  funext q
  by_cases hq : q = p
  · subst hq
    simp
  · simp [hq]

variable {func : Func} {key : List Byte} {st : Status}

theorem Sim.setStatus (h : Sim s F) (hp : p < s.next)
    (hgone : (s.thread p).user = true → (st.Gone ↔ (s.thread p).Gone)) (hmenu : p = 0 → ¬ st.Gone)
    (hasleep : ∀ a i, st ≠ .asleep a (.wait i)) (hwoken : ∀ i, st ≠ .woken (.wait i)) :
    Sim (s.setStatus p st) F := by
  rw [setStatus_eq]
  refine h.mapStatus ?_ ?_ ?_ ?_ ?_
  · intro x _ hu
    by_cases hx : x = p
    · subst hx
      simpa using hgone hu
    · simp [hx, Thread.Gone]
  · by_cases h0 : 0 = p
    · simpa [h0] using hmenu h0.symm
    · simp only [if_neg h0]
      exact h.status.menu
  · intro x hx
    have hne : x ≠ p := by omega
    simp [hne]
  · intro q a i hq
    by_cases hqp : q = p
    · simp only [if_pos hqp] at hq
      exact (hasleep a i hq).elim
    · simpa [hqp] using hq
  · intro q i hq
    by_cases hqp : q = p
    · simp only [if_pos hqp] at hq
      exact (hwoken i hq).elim
    · simpa [hqp] using hq

/-- What a successful `thread_fork` has done. -/
structure Forked (s s' : Threads) (p tid : Nat) (key : List Byte) (func : Func) (ret : Word) :
    Prop where
  free : (s.table.table tid).isFree = true
  table : s'.table.table = update s.table.table tid (.entry (some key) s.next)
  next : s'.next = s.next + 1
  child : s'.thread s.next
    = ⟨tid, .of (s.thread p).tid, [], func, func == .forkentry, .running⟩
  forker : s'.thread p
    = { s.thread p with childList := (s.thread p).childList ++ [⟨tid, ret, .free⟩] }
  others : ∀ x, x ≠ p → x ≠ s.next → s'.thread x = s.thread x

theorem threadFork_some (hp : p < s.next)
    (h : s.threadFork p key func ret .enough = (some tid, s')) :
    Forked s s' p tid key func ret := by
  have hne : p ≠ s.next := Nat.ne_of_lt hp
  unfold Threads.threadFork at h
  rcases s.table.htAddElement_cases key s.next ForkMem.enough.add with
    hadd | ⟨i, hfree, ⟨hmem, _⟩ | ⟨_, hmem, _⟩ | ⟨_, hadd⟩⟩
  · rw [hadd] at h
    cases h
  · cases hmem
  · cases hmem
  rw [hadd] at h
  cases h
  refine ⟨hfree, rfl, rfl, ?_, ?_, ?_⟩
  · simp [Threads.addChild, Threads.set, hne.symm]
  · simp [Threads.addChild, Threads.set, hne]
  · intro x hxp hxn
    simp [Threads.addChild, Threads.set, hxp, hxn]

theorem Forked.same (h : Forked s s' p tid key func ret) (hx : x ≠ s.next) :
    (s'.thread x).tid = (s.thread x).tid ∧ (s'.thread x).parent = (s.thread x).parent ∧
      (s'.thread x).func = (s.thread x).func ∧ (s'.thread x).user = (s.thread x).user ∧
      (s'.thread x).status = (s.thread x).status := by
  by_cases hxp : x = p
  · subst hxp
    rw [h.forker]
    exact ⟨rfl, rfl, rfl, rfl, rfl⟩
  · rw [h.others x hxp hx]
    exact ⟨rfl, rfl, rfl, rfl, rfl⟩

theorem forall₂_imp_mem {α β : Type} {R S : α → β → Prop} {l : List α} {l' : List β}
    (h : List.Forall₂ R l l') (hi : ∀ a b, b ∈ l' → R a b → S a b) : List.Forall₂ S l l' := by
  induction h with
  | nil => exact .nil
  | cons hr _ ih =>
    exact .cons (hi _ _ List.mem_cons_self hr)
      (ih fun a b hb => hi a b (List.mem_cons_of_mem _ hb))

/-- What a thread that is running may still do in the family. -/
theorem Sim.alive_of_running (h : Sim s F) (hp : p < s.next)
    (hr : ¬ (s.thread p).Gone) : F.fate p = .alive :=
  (h.status.ends p hp).mpr fun hg => hr hg.1

theorem not_gone_of_running (hr : (s.thread p).status = .running) : ¬ (s.thread p).Gone := by
  simp [Thread.Gone, Status.Gone, hr]

section
variable {key : List Byte} {func : Func} (h : Sim s F) (hwf : F.WF) (hp : p < s.next)
  (hk : Forked s s' p tid key func ret)
include h hwf hp hk

theorem Sim.fork_link (hpa : F.fate p = .alive) : LinkSim s' (F.born p s.next tid) := by
  have hself : (F.born p s.next tid).tid s.next = tid := update_self ..
  have htid : ∀ x, x ≠ s.next → (F.born p s.next tid).tid x = F.tid x :=
    fun x hx => update_of_ne hx ..
  have hfate : ∀ x, x ≠ s.next → (F.born p s.next tid).fate x = F.fate x :=
    fun x hx => update_of_ne hx ..
  have hborn : (F.born p s.next tid).fate s.next = .alive := update_self ..
  have hpn : p ≠ s.next := Nat.ne_of_lt hp
  have hdesc : ∀ q, List.Forall₂ (Describes F) (s.thread q).childList (F.kids q) →
      List.Forall₂ (Describes (F.born p s.next tid)) (s.thread q).childList (F.kids q) := by
    intro q hq
    refine forall₂_imp_mem hq ?_
    intro item x hx hd
    obtain ⟨_, hxn⟩ := h.ne_next hwf hx
    exact hd.congr (htid x hxn) (hfate x hxn)
  refine ⟨?_, ?_, ?_, ?_⟩
  · intro x
    rw [hk.next]
    by_cases hx : x = s.next
    · rw [hx, hborn]
      simp
    · rw [hfate x hx, h.link.unborn x]
      omega
  · intro x hx
    rw [hk.next] at hx
    by_cases hxn : x = s.next
    · rw [hxn, hk.child, hself]
    · rw [(hk.same hxn).1, htid x hxn]
      exact h.link.tid x (by omega)
  · intro q hq
    by_cases hqn : q = s.next
    · subst hqn
      have hnil : F.kids s.next = [] := by
        refine List.eq_nil_iff_forall_not_mem.mpr ?_
        intro x hx
        exact (h.ne_next hwf hx).1 rfl
      simp [hk.child, born, update_of_ne hpn.symm, hnil]
    · rw [hfate q hqn] at hq
      have hold := hdesc q (h.link.children q hq)
      by_cases hqp : q = p
      · subst hqp
        simp only [hk.forker, born, update_self]
        refine List.rel_append hold (.cons ⟨hself.symm, fun _ => hborn, by simp⟩ .nil)
      · rw [hk.others q hqp hqn]
        simp only [born, update_of_ne hqp]
        exact hold
  · intro x hx
    by_cases hxn : x = s.next
    · subst hxn
      rw [hk.child]
      refine ⟨p, Family.mem_kids_born.mpr (.inr ⟨rfl, rfl⟩), ?_⟩
      rw [htid p hpn, h.link.tid p hp]
    rw [hfate x hxn] at hx
    rw [(hk.same hxn).2.1]
    refine (h.link.parent x hx).congr ?_ fun q hq => htid q (h.ne_next hwf hq).1
    intro q
    rw [Family.mem_kids_born]
    exact or_iff_left fun hn => hxn hn.1

theorem Sim.fork_kind (hf : MayFork s p func) : KindSim s' (F.born p s.next tid) := by
  have hpn : p ≠ s.next := Nat.ne_of_lt hp
  have hmenu : (0 : Nat) ≠ s.next := Nat.ne_of_lt h.kind.menu.1
  have hnu : (s.thread p).func = .kernel → (s.thread p).user = false := by
    intro hfk
    cases hu : (s.thread p).user with
    | false => rfl
    | true => exact (h.kind.func p hp hu hfk).elim
  refine ⟨⟨by rw [hk.next]; omega, (hk.same hmenu).2.2.1.trans h.kind.menu.2⟩, ?_, ?_, ?_, ?_, ?_⟩
  · intro x hx hr
    by_cases hxn : x = s.next
    · subst hxn
      rw [hk.child] at hr
      cases hr
    · rw [(hk.same hxn).2.1] at hr
      rw [hk.next] at hx
      exact h.kind.root x (by omega) hr
  · intro x hx hu
    by_cases hxn : x = s.next
    · subst hxn
      rw [hk.child] at hu ⊢
      rw [beq_iff_eq.mp hu]
      simp
    · rw [(hk.same hxn).2.2.2.1] at hu
      rw [(hk.same hxn).2.2.1]
      rw [hk.next] at hx
      exact h.kind.func x (by omega) hu
  · intro q x hx hu
    rcases Family.mem_kids_born.mp hx with hq | ⟨rfl, rfl⟩
    · obtain ⟨hqn, hxn⟩ := h.ne_next hwf hq
      rw [(hk.same hqn).2.2.2.1] at hu
      rw [(hk.same hxn).2.2.2.1]
      exact h.kind.kids q x hq hu
    rw [(hk.same hpn).2.2.2.1] at hu
    rw [hk.child]
    cases func with
    | forkentry => rfl
    | prog =>
      rw [show q = 0 from hf] at hu hnu
      rw [hnu h.kind.menu.2] at hu
      cases hu
    | kernel =>
      rw [hnu hf] at hu
      cases hu
  · intro q x hx hfx
    rcases Family.mem_kids_born.mp hx with hq | ⟨rfl, rfl⟩
    · obtain ⟨hqn, hxn⟩ := h.ne_next hwf hq
      rw [(hk.same hxn).2.2.1] at hfx
      rw [(hk.same hqn).2.2.2.1]
      exact h.kind.forker q x hq hfx
    rw [(hk.same hpn).2.2.2.1]
    rw [hk.child] at hfx
    cases func with
    | forkentry => exact .inl hf
    | prog => exact .inr hf
    | kernel => exact (hfx rfl).elim
  · intro q hq
    by_cases hqp : q = p
    · subst hqp
      rw [(hk.same hpn).2.2.2.1, (hk.same hpn).2.2.1]
      cases func with
      | forkentry => exact .inl hf
      | prog =>
        rw [show q = 0 from hf]
        exact .inr h.kind.menu.2
      | kernel => exact .inr hf
    · simp only [born, update_of_ne hqp] at hq
      obtain ⟨x, hx⟩ := List.exists_mem_of_ne_nil _ hq
      obtain ⟨hqn, _⟩ := h.ne_next hwf hx
      rw [(hk.same hqn).2.2.2.1, (hk.same hqn).2.2.1]
      exact h.kind.childless q hq

theorem Sim.fork_status (hr : (s.thread p).status = .running) :
    StatusSim s' (F.born p s.next tid) := by
  have hc : F.fate s.next = .unborn := (h.link.unborn s.next).mpr (Nat.le_refl _)
  have hfate : ∀ x, x ≠ s.next → (F.born p s.next tid).fate x = F.fate x :=
    fun x hx => update_of_ne hx ..
  have hborn : (F.born p s.next tid).fate s.next = .alive := update_self ..
  have hmenu : (0 : Nat) ≠ s.next := Nat.ne_of_lt h.kind.menu.1
  have hsleeper : ∀ q, (s'.thread q).status ≠ .running → q ≠ s.next ∧
      s'.thread q = s.thread q ∧ (F.born p s.next tid).kids q = F.kids q := by
    intro q hq
    have hqn : q ≠ s.next := by
      rintro rfl
      rw [hk.child] at hq
      exact hq rfl
    have hqp : q ≠ p := by
      rintro rfl
      rw [(hk.same hqn).2.2.2.2] at hq
      exact hq hr
    exact ⟨hqn, hk.others q hqp hqn, update_of_ne hqp ..⟩
  have hkid : ∀ q x i, (F.kids q)[i]? = some x → x ≠ s.next :=
    fun q x i hx => (hwf.kid q x (List.mem_of_getElem? hx)).2.ne hc
  refine ⟨?_, ?_, ?_, ?_, ?_⟩
  · intro x hx
    by_cases hxn : x = s.next
    · subst hxn
      rw [hk.child, hborn]
      simp [Thread.Gone, Status.Gone]
    · rw [hk.next] at hx
      rw [hfate x hxn, h.status.ends x (by omega)]
      simp only [Thread.Gone, (hk.same hxn).2.2.2.1, (hk.same hxn).2.2.2.2]
  · simp only [Thread.Gone, (hk.same hmenu).2.2.2.2]
    exact h.status.menu
  · intro x hx
    rw [hk.next] at hx
    rw [(hk.same (by omega)).2.2.2.2]
    exact h.status.fresh x (by omega)
  · intro q a i hq
    obtain ⟨_, hth, hkids⟩ := hsleeper q (by rw [hq]; simp)
    rw [hth] at hq ⊢
    obtain ⟨hu, x, hx, hxa, ha⟩ := h.status.asleep q a i hq
    exact ⟨hu, x, hkids ▸ hx, (hfate x (hkid q x i hx)).trans hxa, ha⟩
  · intro q i hq
    obtain ⟨_, hth, hkids⟩ := hsleeper q (by rw [hq]; simp)
    rw [hth] at hq ⊢
    obtain ⟨hu, x, r, hx, hxe⟩ := h.status.woken q i hq
    exact ⟨hu, x, r, hkids ▸ hx, (hfate x (hkid q x i hx)).trans hxe⟩

theorem Sim.fork (hr : (s.thread p).status = .running) (hf : MayFork s p func) :
    Family.Step F (.fork p s.next tid) (F.born p s.next tid) ∧ Sim s' (F.born p s.next tid) := by
  have hc : F.fate s.next = .unborn := (h.link.unborn s.next).mpr (Nat.le_refl _)
  have hpa := h.alive_of_running hp (not_gone_of_running hr)
  refine ⟨.fork hpa hc fun x hx => h.table.free hk.free hx, ?_, h.fork_link hwf hp hk hpa,
    h.fork_kind hwf hp hk hf, h.fork_status hwf hp hk hr⟩
  rw [hk.table]
  exact h.table.fork hk.free hc

end

section
variable {α β : Type} {R : α → β → Prop} {l : List α} {l' : List β} {a : α}

theorem forall₂_getElem? (h : List.Forall₂ R l l') (ha : l[i]? = some a) :
    ∃ b, l'[i]? = some b ∧ R a b := by
  induction h generalizing i with
  | nil => simp at ha
  | cons hr _ ih =>
    cases i with
    | zero =>
      cases ha
      exact ⟨_, rfl, hr⟩
    | succ i => exact ih ha

theorem forall₂_modify {g : α → α} (h : List.Forall₂ R l l')
    (hg : ∀ a b, l[i]? = some a → R a b → R (g a) b) : List.Forall₂ R (l.modify i g) l' := by
  induction h generalizing i with
  | nil => simp
  | cons hr ht ih =>
    cases i with
    | zero => exact .cons (hg _ _ rfl hr) ht
    | succ i => exact .cons hr (ih fun a b ha => hg a b ha)

theorem forall₂_eraseIdx (h : List.Forall₂ R l l') :
    List.Forall₂ R (l.eraseIdx i) (l'.eraseIdx i) := by
  induction h generalizing i with
  | nil => simp
  | cons hr ht ih =>
    cases i with
    | zero => exact ht
    | succ i => exact .cons hr ih

end

theorem KindSim.mono (h : KindSim s F) (hn : s'.next = s.next)
    (hk : ∀ q x, x ∈ G.kids q → x ∈ F.kids q)
    (hsame : ∀ x, (s'.thread x).func = (s.thread x).func ∧ (s'.thread x).user = (s.thread x).user ∧
      ((s'.thread x).parent = .root → (s.thread x).parent = .root)) : KindSim s' G := by
  have hf := fun x => (hsame x).1
  have hu := fun x => (hsame x).2.1
  refine ⟨?_, ?_, ?_, ?_, ?_, ?_⟩
  · rw [hn, hf]
    exact h.menu
  · intro x hx hr
    exact h.root x (hn ▸ hx) ((hsame x).2.2 hr)
  · intro x hx
    rw [hu, hf]
    exact h.func x (hn ▸ hx)
  · intro q x hx
    rw [hu, hu]
    exact h.kids q x (hk q x hx)
  · intro q x hx
    rw [hu, hf]
    exact h.forker q x (hk q x hx)
  · intro q hq
    rw [hu, hf]
    obtain ⟨x, hx⟩ := List.exists_mem_of_ne_nil _ hq
    exact h.childless q (List.ne_nil_of_mem (hk q x hx))

theorem thread_relist (s : Threads) (p : Nat) (l : List ChildInfo) (st : Status) (x : Nat) :
    ((s.set p { s.thread p with childList := l, status := st }).thread x)
      = { s.thread x with
          childList := if x = p then l else (s.thread x).childList
          status := if x = p then st else (s.thread x).status } := by
  by_cases hx : x = p
  · subst hx
    simp [Threads.set]
  · simp [Threads.set, hx]

/-- The caller of `sys_wait` has a new list and status, and the other threads' children have the
fates they had. -/
theorem StatusSim.relist {l : List ChildInfo} (h : StatusSim s F)
    (hn : s'.next = s.next) (hth : ∀ x, s'.thread x = { s.thread x with
      childList := if x = p then l else (s.thread x).childList
      status := if x = p then st else (s.thread x).status })
    (hp : p < s.next) (hg : ¬ (s.thread p).Gone) (hst : ¬ st.Gone)
    (halive : ∀ x, G.fate x = .alive ↔ F.fate x = .alive)
    (hkids : ∀ q, q ≠ p → G.kids q = F.kids q ∧ ∀ x, x ∈ F.kids q → G.fate x = F.fate x)
    (hasleep : ∀ a i, st = .asleep a (.wait i) → (s.thread p).user = true ∧
      ∃ x, (G.kids p)[i]? = some x ∧ F.fate x = .alive ∧ a = some x)
    (hwoken : ∀ i, st ≠ .woken (.wait i)) : StatusSim s' G := by
  have hgone : ∀ x, (s'.thread x).Gone ↔ (s.thread x).Gone := by
    intro x
    rw [hth]
    by_cases hx : x = p
    · subst hx
      simp only [Thread.Gone, if_true]
      exact iff_of_false hst hg
    · simp only [Thread.Gone, if_neg hx]
  have hother : ∀ q, q ≠ p → (s'.thread q).status = (s.thread q).status := by
    intro q hq
    rw [hth]
    exact if_neg hq
  have hself : (s'.thread p).status = st := by
    rw [hth]
    exact if_pos rfl
  have huser : ∀ q, (s'.thread q).user = (s.thread q).user := by
    intro q
    rw [hth]
  refine ⟨?_, ?_, ?_, ?_, ?_⟩
  · intro x hx
    rw [hn] at hx
    rw [halive, h.ends x hx, hgone, huser]
  · rw [hgone]
    exact h.menu
  · intro x hx
    rw [hn] at hx
    rw [hother x (by omega)]
    exact h.fresh x hx
  · intro q a i hq
    rw [huser]
    by_cases hqp : q = p
    · subst hqp
      obtain ⟨hu, x, hx, hxa, ha⟩ := hasleep a i (hself.symm.trans hq)
      exact ⟨hu, x, hx, (halive x).mpr hxa, ha⟩
    · rw [hother q hqp] at hq
      obtain ⟨hu, x, hx, hxa, ha⟩ := h.asleep q a i hq
      exact ⟨hu, x, (hkids q hqp).1 ▸ hx, (halive x).mpr hxa, ha⟩
  · intro q i hq
    rw [huser]
    by_cases hqp : q = p
    · subst hqp
      exact (hwoken i (hself.symm.trans hq)).elim
    rw [hother q hqp] at hq
    obtain ⟨hu, x, r, hx, hxr⟩ := h.woken q i hq
    refine ⟨hu, x, r, (hkids q hqp).1 ▸ hx, ?_⟩
    rw [(hkids q hqp).2 x (List.mem_of_getElem? hx)]
    exact hxr

theorem childTid_of_findChild {index : Nat} (hc : s.findChild p tid = some index)
    (hi : (s.thread p).childList[index]? = some item) : item.childTid = tid := by
  obtain ⟨hlt, hp, _⟩ := List.findIdx?_eq_some_iff_getElem.mp hc
  rw [List.getElem?_eq_getElem hlt] at hi
  cases hi
  exact beq_iff_eq.mp hp

section
variable {index : Nat} (h : Sim s F) (hpa : F.fate p = .alive) (hg : ¬ (s.thread p).Gone)
  (hi : (s.thread p).childList[index]? = some item)
include h hpa hg hi

theorem Sim.join (hu : (s.thread p).user = true) (hd : item.status ≠ .dead) :
    Sim (s.join p item.childTid index) F := by
  have hnext : s.join p item.childTid index = s.set p { s.thread p with
      childList := (s.thread p).childList.modify index fun item => { item with status := .joined }
      status := .asleep (s.table.htRetrieveElementByIndex item.childTid) (.wait index) } := rfl
  obtain ⟨x, hx, hdesc⟩ := forall₂_getElem? (h.link.children p hpa) hi
  have hxa := hdesc.alive hd
  obtain ⟨key, hkey⟩ := h.table.alive x hxa
  have haddr : s.table.htRetrieveElementByIndex item.childTid = some x := by
    rw [Hashtable.htRetrieveElementByIndex, hdesc.tid, hkey]
  rw [haddr] at hnext
  have hth := thread_relist s p
    ((s.thread p).childList.modify index fun item => { item with status := .joined })
    (.asleep (some x) (.wait index))
  rw [hnext]
  refine ⟨h.table, ⟨h.link.unborn, ?_, ?_, ?_⟩, h.kind.mono rfl (fun _ _ hq => hq) ?_, ?_⟩
  · intro y hy
    rw [hth]
    exact h.link.tid y hy
  · intro q hq
    rw [hth]
    by_cases hqp : q = p
    · subst hqp
      simp only [if_true]
      refine forall₂_modify (h.link.children q hq) ?_
      intro item' y hi' hd'
      rw [hi] at hi'
      cases hi'
      exact ⟨hd'.tid, fun _ => hd'.alive hd, by simp⟩
    · simp only [if_neg hqp]
      exact h.link.children q hq
  · intro y hy
    rw [hth]
    exact h.link.parent y hy
  · intro y
    rw [hth]
    exact ⟨rfl, rfl, id⟩
  · refine h.status.relist rfl hth (h.lt_next (.inl hpa)) hg (by simp [Status.Gone])
      (fun _ => Iff.rfl) (fun _ _ => ⟨rfl, fun _ _ => rfl⟩) ?_ (by simp)
    rintro a i ⟨⟩
    exact ⟨hu, x, hx, hxa, rfl⟩

end

section
variable {index : Nat} (h : Sim s F) (hwf : F.WF) (hx : (F.kids p)[index]? = some c)
  (hc : F.fate c = .exited ret)
include h hwf hx hc

theorem Sim.reap_link : LinkSim (s.reap p item.childTid index) (F.reap p c) := by
  have hck : c ∈ F.kids p := List.mem_of_getElem? hx
  have hth : ∀ x, ((s.reap p item.childTid index).thread x) = _ :=
    thread_relist s p ((s.thread p).childList.eraseIdx index) .running
  refine ⟨?_, ?_, ?_, ?_⟩
  · intro x
    by_cases hxc : x = c
    · rw [hxc, Family.fate_reap_self]
      exact iff_of_false (by simp) (Nat.not_le.mpr (h.lt_next (.inr ⟨ret, hc⟩)))
    · rw [fate_reap hxc]
      exact h.link.unborn x
  · intro x hlt
    rw [hth]
    exact h.link.tid x hlt
  · intro q hq
    have hold := h.link.children q ((reap_alive hc).mp hq)
    rw [hth]
    have hnew : List.Forall₂ (Describes F)
        (if q = p then (s.thread p).childList.eraseIdx index else (s.thread q).childList)
        ((F.reap p c).kids q) := by
      by_cases hqp : q = p
      · subst hqp
        have hkids : (F.reap q c).kids q = (F.kids q).eraseIdx index := by
          obtain ⟨hlt, hget⟩ := List.getElem?_eq_some_iff.mp hx
          rw [← (hwf.nodup q).erase_getElem index hlt, hget]
          exact update_self ..
        rw [if_pos rfl, hkids]
        exact forall₂_eraseIdx hold
      · have hkids : (F.reap p c).kids q = F.kids q := update_of_ne hqp ..
        rw [if_neg hqp, hkids]
        exact hold
    exact forall₂_imp_mem hnew fun _ x hxk hd =>
      hd.congr rfl (fate_reap (hwf.ne_of_mem_reap hck hxk))
  · intro x hxa
    have hxc : x ≠ c := by
      rintro rfl
      rw [Family.fate_reap_self] at hxa
      cases hxa
    rw [hth]
    refine (h.link.parent x ((reap_alive hc).mp hxa)).congr ?_ fun _ _ => rfl
    intro q
    rw [Family.mem_kids_reap (hwf.nodup p)]
    exact and_iff_left fun hn => hxc hn.2

theorem Sim.reap (hpa : F.fate p = .alive) (hg : ¬ (s.thread p).Gone)
    (ht : item.childTid = F.tid c) : Sim (s.reap p item.childTid index) (F.reap p c) := by
  have hck : c ∈ F.kids p := List.mem_of_getElem? hx
  have hth : ∀ x, ((s.reap p item.childTid index).thread x) = _ :=
    thread_relist s p ((s.thread p).childList.eraseIdx index) .running
  refine ⟨?_, h.reap_link hwf hx hc, h.kind.mono rfl ?_ ?_, ?_⟩
  · rw [ht]
    exact h.table.reap hwf hc
  · exact fun q x hq => ((Family.mem_kids_reap (hwf.nodup p)).mp hq).1
  · intro x
    rw [hth]
    exact ⟨rfl, rfl, id⟩
  refine h.status.relist rfl hth (h.lt_next (.inl hpa)) hg (by simp [Status.Gone])
    (fun _ => reap_alive hc) ?_ (by simp) (by simp)
  intro q hqp
  refine ⟨update_of_ne hqp .., fun x hxk => fate_reap ?_⟩
  rintro rfl
  exact hqp (hwf.one q p x hxk hck)

end

end OS161
