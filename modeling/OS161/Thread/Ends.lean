import OS161.Thread.Refine

/-! The two ends of a thread: `sys_exit`, and `thread_exit` alone. -/
namespace OS161

open Threads
open Status (Gone)
open Lts (Run Restrict)

variable {s s' : Threads} {F : Processes} {a : ThreadEvent} {es : List ThreadEvent}
  {p c x tid : Nat}
  {found : Option Nat} {st st' : Status}

/-- What a step can do to the status of a thread. -/
inductive StatusMove : ThreadEvent → Nat → Status → Status → Prop where
  | stay {a : ThreadEvent} {x : Nat} {st : Status}
      (h : ∀ y ret k, a = .exit y ret → st ≠ .asleep (some y) k) : StatusMove a x st st
  | launch {x c tid : Nat} : StatusMove (.fork x c tid) x .running (.launched c)
  | sleep {x c : Nat} : StatusMove (.progSleep x c) x (.launched c) (.asleep (some c) .prog)
  | join {x tid i : Nat} {addr : Option Nat} :
    StatusMove (.waitSleep x tid) x .running (.asleep addr (.wait i))
  | awake {a : ThreadEvent} {x : Nat} {st : Status} (h : ¬ st.Gone) : StatusMove a x st .running
  | wake {x y : Nat} {ret : Word} {k : Cont} :
    StatusMove (.exit y ret) x (.asleep (some y) k) (.woken k)
  | exit {x : Nat} {ret : Word} : StatusMove (.exit x ret) x .running .leaving
  | finish {x : Nat} : StatusMove (.finish x) x .running .leaving
  | zombie {x : Nat} : StatusMove (.zombie x) x .leaving .zombie
  | freed {x : Nat} : StatusMove .exorcise x .zombie .freed

/-- What a step can do to a thread, apart from its lists. -/
structure ThreadMove (s : Threads) (a : ThreadEvent) (s' : Threads) (x : Nat) : Prop where
  func : (s'.thread x).func = (s.thread x).func
  user : (s.thread x).user = true → (s'.thread x).user = true
  status : StatusMove a x (s.thread x).status (s'.thread x).status

theorem ThreadMove.of_eq (h : s'.thread x = s.thread x) (ha : ∀ y ret, a ≠ .exit y ret) :
    ThreadMove s a s' x := by
  refine ⟨by rw [h], fun hu => by rw [h]; exact hu, ?_⟩
  rw [h]
  exact .stay fun y ret _ he => (ha y ret he).elim

theorem ThreadMove.setStatus (ha : ∀ y ret, a ≠ .exit y ret)
    (h : StatusMove a p (s.thread p).status st) : ThreadMove s a (s.setStatus p st) x := by
  by_cases hx : x = p
  · subst hx
    exact ⟨by simp [Threads.setStatus, Threads.set], by simp [Threads.setStatus, Threads.set],
      by simpa [Threads.setStatus, Threads.set] using h⟩
  · exact .of_eq (by simp [Threads.setStatus, Threads.set, hx]) ha

theorem ThreadMove.relist {l : List ChildInfo} (ha : ∀ y ret, a ≠ .exit y ret)
    (h : StatusMove a p (s.thread p).status st)
    (hth : ∀ x, s'.thread x = { s.thread x with
      childList := if x = p then l else (s.thread x).childList
      status := if x = p then st else (s.thread x).status }) : ThreadMove s a s' x := by
  refine ⟨by rw [hth], fun hu => by rw [hth]; exact hu, ?_⟩
  rw [hth]
  by_cases hx : x = p
  · subst hx
    simpa using h
  · simpa [hx] using StatusMove.stay fun y ret _ he => (ha y ret he).elim

theorem Sim.threadMove (h : Sim s F) (hwf : F.WF) (hs : ThreadStep s a s') (hok : CleanFork s a)
    (hx : x < s.next) : ThreadMove s a s' x := by
  have hxn : x ≠ s.next := Nat.ne_of_lt hx
  cases hs with
  | @fork t p _ _ func _ hr hp hf hfork =>
    have hk := threadFork_some hp hfork
    obtain ⟨_, _, hfunc, huser, hst⟩ := hk.same hxn
    split
    · by_cases hxp : x = p
      · subst hxp
        refine ⟨by simpa [Threads.setStatus, Threads.set] using hfunc, ?_, ?_⟩
        · simp [Threads.setStatus, Threads.set, huser]
        · rw [hr]
          simpa [Threads.setStatus, Threads.set] using StatusMove.launch
      · have hth := hk.others x hxp hxn
        exact .of_eq (by simpa [Threads.setStatus, Threads.set, hxp] using hth) (by simp)
    · refine ⟨hfunc, fun hu => huser.trans hu, ?_⟩
      rw [hst]
      exact .stay (by simp)
  | forkFailed hr hp hf hfork =>
    rcases threadFork_none (hok _ _ rfl) hfork with rfl | ⟨i, _, rfl⟩
    · exact .of_eq rfl (by simp)
    · exact .of_eq rfl (by simp)
  | @enterUser p hr hp hf =>
    by_cases hxp : x = p
    · subst hxp
      refine ⟨by simp [Threads.set], fun _ => by simp [Threads.set], ?_⟩
      have hst : StatusMove (.enterUser x) x (s.thread x).status (s.thread x).status :=
        .stay (by simp)
      simpa [Threads.set] using hst
    · exact .of_eq (by simp [Threads.set, hxp]) (by simp)
  | progSleep hl hp => exact .setStatus (by simp) (hl ▸ .sleep)
  | progWake hw hp => exact .setStatus (by simp) (.awake (by rw [hw]; simp [Gone]))
  | waitFailed hr hp hu hc => exact .of_eq rfl (by simp)
  | waitSleep hr hp hu hc hi hd => exact .relist (by simp) (hr ▸ .join) (thread_relist s _ _ _)
  | waitNow hr hp hu hc hi hd =>
    exact .relist (by simp) (.awake (by rw [hr]; simp [Gone])) (thread_relist s _ _ _)
  | waitEnd hw hp hi =>
    exact .relist (by simp) (.awake (by rw [hw]; simp [Gone])) (thread_relist s _ _ _)
  | @exit _ p ret hr hp hu hexit =>
    obtain ⟨s₁, hrun, he⟩ := h.sysExit_ok hp hu hwf hr ret
    rw [hexit] at hrun
    cases hrun
    obtain ⟨_, hfunc, huser⟩ := he.fields x
    refine ⟨hfunc, fun hu' => huser.trans hu', ?_⟩
    rw [he.status x]
    split
    · rename_i hxp
      subst hxp
      rw [hr]
      exact .exit
    rcases (s.thread x).status.wakeup_cases p with ⟨k, hst, hw⟩ | ⟨hw, hne⟩
    · rw [hw, hst]
      exact .wake
    rw [hw]
    refine .stay ?_
    intro y ret' k heq
    cases heq
    exact hne k
  | finish hr hp hu hm => exact .setStatus (by simp) (hr ▸ .finish)
  | zombie hl hp => exact .setStatus (by simp) (hl ▸ .zombie)
  | exorcise =>
    refine ⟨rfl, id, ?_⟩
    show StatusMove .exorcise x (s.thread x).status (s.thread x).status.exorcise
    rcases (s.thread x).status.exorcise_cases with ⟨hz, he⟩ | he
    · rw [he, hz]
      exact .freed
    · rw [he]
      exact .stay (by simp)

/-- A thread ends by `sys_exit` or by returning. -/
theorem StatusMove.gone (h : StatusMove a x st st') (hg : st'.Gone) :
    st.Gone ∨ (∃ ret, a = .exit x ret) ∨ a = .finish x := by
  cases h with
  | stay _ => exact .inl hg
  | launch | sleep | join | awake | wake => simp [Gone] at hg
  | exit => exact .inr (.inl ⟨_, rfl⟩)
  | finish => exact .inr (.inr rfl)
  | zombie => exact .inl (.inl rfl)
  | freed => exact .inl (.inr (.inl rfl))

/-- A step adds one thread at most, which is running then. -/
theorem Sim.next_cases (h : Sim s F) (hwf : F.WF) (hs : ThreadStep s a s') (hok : CleanFork s a) :
    s'.next = s.next ∨ s'.next = s.next + 1 ∧ (s'.thread s.next).status = .running := by
  cases hs with
  | @fork t p _ _ func _ hr hp hf hfork =>
    have hk := threadFork_some hp hfork
    have hne : s.next ≠ p := Nat.ne_of_gt hp
    right
    split
    · exact ⟨hk.next, by simp [Threads.setStatus, Threads.set, hne, hk.child]⟩
    · exact ⟨hk.next, by rw [hk.child]⟩
  | forkFailed hr hp hf hfork =>
    rcases threadFork_none (hok _ _ rfl) hfork with rfl | ⟨i, _, rfl⟩
    · exact .inl rfl
    · exact .inl rfl
  | @exit _ p ret hr hp hu hexit =>
    obtain ⟨s₁, hrun, he⟩ := h.sysExit_ok hp hu hwf hr ret
    rw [hexit] at hrun
    cases hrun
    exact .inl he.next
  | enterUser | progSleep | progWake | waitFailed | waitSleep | waitNow | waitEnd | finish
  | zombie | exorcise => exact .inl rfl

/-- An invariant of the threads, with the processes that the run comes to. -/
theorem sim_invariant {Ok : Threads → ThreadEvent → Prop} {P : Threads → Prop}
    (hclean : ∀ s a, Ok s a → CleanFork s a) (hboot : P (threadBootstrap found))
    (hstep : ∀ s a s' F G, F.WF → Sim s F → Sim s' G → ThreadStep s a s' → Ok s a → P s → P s')
    (h : Run (Restrict ThreadStep Ok) (threadBootstrap found) es s) :
    (∃ F, F.WF ∧ Sim s F) ∧ P s := by
  refine h.invariant (fun s => (∃ F, F.WF ∧ Sim s F) ∧ P s) ?_ ?_
  · rintro s a s' ⟨hs, hok⟩ ⟨⟨F, hwf, hsim⟩, hp⟩
    obtain ⟨G, hG, hsim'⟩ := step_refines hs (hclean s a hok) hwf hsim
    exact ⟨⟨G, hwf.step hG, hsim'⟩, hstep s a s' F G hwf hsim hsim' hs hok hp⟩
  · have hrun : Run (Restrict ThreadStep CleanFork) (threadBootstrap found) []
        (threadBootstrap found) := .refl
    obtain ⟨F, ht, hsim, _⟩ := run_refines hrun
    exact ⟨⟨F, ht.wf, hsim⟩, hboot⟩

/-- In such a run only processes that have exited are gone. -/
def EndedUser (s : Threads) : Prop := ∀ x, x < s.next → (s.thread x).Gone → (s.thread x).user = true

theorem EndedUser.step (he : EndedUser s) (h : Sim s F) (hwf : F.WF) (hs : ThreadStep s a s')
    (hok : EndsByExit s a) : EndedUser s' := by
  intro x hx hg
  by_cases hn : x < s.next
  · have hmove := h.threadMove hwf hs hok.1 hn
    rcases hmove.status.gone hg with hgone | ⟨ret, rfl⟩ | rfl
    · exact hmove.user (he x hn hgone)
    · cases hs with
      | exit _ _ hu _ => exact hmove.user hu
    · exact (hok.2 x rfl).elim
  · rcases h.next_cases hwf hs hok.1 with heq | ⟨heq, hr⟩
    · exact (hn (heq ▸ hx)).elim
    · obtain rfl : x = s.next := by omega
      exact (not_gone_of_running hr hg).elim

theorem endedUser_reachable
    (h : Run (Restrict ThreadStep EndsByExit) (threadBootstrap found) es s) :
    (∃ F, F.WF ∧ Sim s F) ∧ EndedUser s := by
  refine sim_invariant (fun _ _ hok => hok.1) ?_
    (fun _ _ _ _ _ hwf hsim _ hs hok he => he.step hsim hwf hs hok) h
  intro x _ hg
  rw [threadBootstrap_eq] at hg
  simp [bootThread, Thread.Gone, Gone] at hg

/-- Where every thread ends through `sys_exit` and no fork fails with its slot taken, the process
table holds only threads that still exist, and `sys_exit` and `sys_wait` get no other from it. -/
theorem table_never_dangles
    (h : Run (Restrict ThreadStep EndsByExit) (threadBootstrap found) es s) :
    (∀ i key x, s.table.table i = .entry key x → x < s.next ∧ (s.thread x).status ≠ .freed) ∧
    (∀ p ret, p < s.next → (s.thread p).status = .running → (s.thread p).user = true →
      ∃ s', s.sysExit p ret = .ok s') ∧
    (∀ p tid index item, p < s.next → (s.thread p).status = .running →
      s.findChild p tid = some index →
      (s.thread p).childList[index]? = some item → item.status ≠ .dead →
      ∃ x, s.table.htRetrieveElementByIndex tid = some x ∧ x < s.next ∧
        (s.thread x).status ≠ .freed) := by
  obtain ⟨⟨F, hwf, hsim⟩, hended⟩ := endedUser_reachable h
  have hlive : ∀ x, F.fate x = .alive → x < s.next ∧ (s.thread x).status ≠ .freed := by
    intro x hx
    have hlt := hsim.lt_next (.inl hx)
    refine ⟨hlt, ?_⟩
    intro hf
    have hg : (s.thread x).Gone := .inr (.inr hf)
    exact (hsim.status.ends x hlt).mp hx ⟨hg, hended x hlt hg⟩
  refine ⟨?_, ?_, ?_⟩
  · intro i key x hi
    exact hlive x (hsim.table.entry i key x hi).1
  · intro p ret hp hr hu
    obtain ⟨s', hs', _⟩ := hsim.sysExit_ok hp hu hwf hr ret
    exact ⟨s', hs'⟩
  intro p tid index item hp hr hc hi hd
  have hpa := hsim.alive_of_running hp (not_gone_of_running hr)
  obtain ⟨x, _, hdesc⟩ := forall₂_getElem? (hsim.link.children p hpa) hi
  have hxa := hdesc.alive hd
  obtain ⟨key, hkey⟩ := hsim.table.alive x hxa
  refine ⟨x, ?_, hlive x hxa⟩
  rw [Hashtable.htRetrieveElementByIndex, ← childTid_of_findChild hc hi, hdesc.tid, hkey]

namespace Launch

/-- The program of the earlier run exits in its turn. -/
theorem table_never_dangles_exit : ∃ s', (afterExit doubled 2 7#32).sysExit 1 0#32 = .ok s' :=
  (table_never_dangles run_history).2.1 1 0#32 (by decide +kernel) (by decide +kernel)
    (by decide +kernel)

def finished : Threads := ((launched.setStatus 1 .leaving).setStatus 1 .zombie).exorcise

/-- A program that cannot be loaded: its thread returns, and its slot still points to it when it is
destroyed. -/
theorem failed_launch_dangles :
    Run ThreadStep booted [.fork 0 1 35, .finish 1, .zombie 1, .exorcise] finished ∧
      finished.table.table 35 = .entry (some (addrKey 1)) 1 ∧
      (finished.thread 1).status = .freed := by
  have hfinish : ThreadStep launched (.finish 1) (launched.setStatus 1 .leaving) :=
    .finish (by decide +kernel) (by decide +kernel) (by decide +kernel) (by decide)
  have hzombie : ThreadStep (launched.setStatus 1 .leaving) (.zombie 1)
      ((launched.setStatus 1 .leaving).setStatus 1 .zombie) :=
    .zombie (by decide +kernel) (by decide +kernel)
  refine ⟨?_, by decide +kernel, by decide +kernel⟩
  exact .head step_launched <| .head hfinish <| .head hzombie <| .single .exorcise

end Launch

/-- No thread sleeps on one that has ended. -/
def NoStaleSleeper (s : Threads) : Prop :=
  ∀ p x k, (s.thread p).status = .asleep (some x) k → ¬ (s.thread x).Gone

/-- The steps of a run in which no program fails to load and none exits before the menu has gone to
sleep on it. -/
def Orderly (s : Threads) (a : ThreadEvent) : Prop :=
  CleanFork s a ∧ (∀ c, a = .finish c → (s.thread c).func ≠ .prog) ∧
    ∀ c ret, a = .exit c ret → ∀ p, (s.thread p).status ≠ .launched c

/-- The program is there and has not ended. -/
def Threads.Program (s : Threads) (c : Nat) : Prop :=
  c < s.next ∧ ¬ (s.thread c).Gone ∧ (s.thread c).func = .prog

/-- What the menu is about to sleep on, or sleeps on. -/
structure MenuInv (s : Threads) : Prop where
  launched : ∀ p c, (s.thread p).status = .launched c → s.Program c
  asleep : ∀ p addr, (s.thread p).status = .asleep addr .prog → ∃ c, addr = some c ∧ s.Program c

theorem Sim.program_step (h : Sim s F) (hwf : F.WF) (hs : ThreadStep s a s') (hok : Orderly s a)
    (hc : s.Program c) (hex : ∀ ret, a ≠ .exit c ret) : s'.Program c := by
  obtain ⟨hlt, hg, hf⟩ := hc
  have hmove := h.threadMove hwf hs hok.1 hlt
  have hnext : s.next ≤ s'.next := by
    rcases h.next_cases hwf hs hok.1 with heq | ⟨heq, _⟩ <;> omega
  refine ⟨Nat.lt_of_lt_of_le hlt hnext, ?_, hmove.func.trans hf⟩
  intro hg'
  rcases hmove.status.gone hg' with hg' | ⟨ret, rfl⟩ | rfl
  · exact hg hg'
  · exact hex ret rfl
  · exact hok.2.1 c rfl hf

theorem program_launched (hs : ThreadStep s (.fork p c tid) s')
    (hl : (s'.thread p).status = .launched c) : s'.Program c := by
  cases hs with
  | @fork t _ _ _ func _ hr hp hf hfork =>
    have hk := threadFork_some hp hfork
    have hne : s.next ≠ p := Nat.ne_of_gt hp
    by_cases hprog : func = .prog
    · subst hprog
      have hth : (t.setStatus p (.launched s.next)).thread s.next = t.thread s.next := by
        simp [Threads.setStatus, Threads.set, hne]
      rw [if_pos rfl]
      refine ⟨?_, ?_, ?_⟩
      · show s.next < t.next
        rw [hk.next]
        exact Nat.lt_succ_self _
      · rw [hth, hk.child]
        simp [Thread.Gone, Gone]
      · rw [hth, hk.child]
    · rw [if_neg hprog, (hk.same hne.symm).2.2.2.2, hr] at hl
      cases hl

theorem MenuInv.step {G : Processes} (hm : MenuInv s) (h : Sim s F) (hwf : F.WF)
    (hs : ThreadStep s a s') (hok : Orderly s a) (h' : Sim s' G) : MenuInv s' := by
  have hold : ∀ p, (s'.thread p).status ≠ .running → p < s.next := by
    intro p hp
    by_contra hge
    by_cases hlt : p < s'.next
    · rcases h.next_cases hwf hs hok.1 with heq | ⟨heq, hr⟩
      · omega
      · obtain rfl : p = s.next := by omega
        exact hp hr
    · exact hp (h'.status.fresh p (Nat.le_of_not_lt hlt))
  refine ⟨?_, ?_⟩
  · intro p c hp
    have hlt := hold p (by rw [hp]; simp)
    have hmove := (h.threadMove hwf hs hok.1 hlt).status
    rw [hp] at hmove
    generalize hst : (s.thread p).status = st at hmove
    cases hmove with
    | stay _ =>
      exact h.program_step hwf hs hok (hm.launched p c hst) fun ret ha => hok.2.2 c ret ha p hst
    | launch => exact program_launched hs hp
  · intro p addr hp
    have hlt := hold p (by rw [hp]; simp)
    have hmove := (h.threadMove hwf hs hok.1 hlt).status
    rw [hp] at hmove
    generalize hst : (s.thread p).status = st at hmove
    cases hmove with
    | stay hne =>
      obtain ⟨c, rfl, hc⟩ := hm.asleep p addr hst
      exact ⟨c, rfl, h.program_step hwf hs hok hc fun ret ha => hne c ret _ ha rfl⟩
    | @sleep _ c =>
      exact ⟨c, rfl, h.program_step hwf hs hok (hm.launched p c hst) (by simp)⟩

/-- In a run without failed loads and without programs that exit before the menu sleeps, a thread
that sleeps on another, in `common_prog` or in `sys_wait`, sleeps on one that has not ended. -/
theorem sleepers_alive
    (h : Run (Restrict ThreadStep Orderly) (threadBootstrap found) es s) : NoStaleSleeper s := by
  have hboot : MenuInv (threadBootstrap found) := by
    rw [threadBootstrap_eq]
    exact ⟨by rintro _ _ ⟨⟩, by rintro _ _ ⟨⟩⟩
  obtain ⟨⟨F, hwf, hsim⟩, hm⟩ := sim_invariant (fun _ _ hok => hok.1) hboot
    (fun _ _ _ _ _ hwf hsim hsim' hs hok hm => hm.step hsim hwf hs hok hsim') h
  intro p x k hp
  cases k with
  | prog =>
    obtain ⟨c, hc, hprog⟩ := hm.asleep p _ hp
    cases hc
    exact hprog.2.1
  | wait i =>
    obtain ⟨hu, y, hy, hya, heq⟩ := hsim.status.asleep p _ i hp
    cases heq
    have hxu := hsim.kind.kids p x (List.mem_of_getElem? hy) hu
    exact fun hg => (hsim.status.ends x (hsim.lt_next (.inl hya))).mp hya ⟨hg, hxu⟩

namespace Launch

def menuAsleep : Threads := launched.setStatus 0 (.asleep (some 1) .prog)

theorem step_menuAsleep : ThreadStep launched (.progSleep 0 1) menuAsleep :=
  .progSleep (by decide +kernel) (by decide +kernel)

/-- The menu sleeps on the program it has started. -/
theorem sleepers_alive_menu :
    (menuAsleep.thread 0).status = .asleep (some 1) .prog ∧ ¬ (menuAsleep.thread 1).Gone := by
  have hasleep : (menuAsleep.thread 0).status = .asleep (some 1) .prog := by decide +kernel
  have hrun : Run (Restrict ThreadStep Orderly) booted [.fork 0 1 35, .progSleep 0 1]
      menuAsleep :=
    .head ⟨step_launched, cleanFork_of_ne (by simp), by simp, by simp⟩
      (.single ⟨step_menuAsleep, cleanFork_of_ne (by simp), by simp, by simp⟩)
  exact ⟨hasleep, sleepers_alive hrun 0 1 .prog hasleep⟩

/-- The menu sleeps for good on a program that could not be loaded, and on one that has exited
before the menu got to sleep. -/
theorem menu_sleeps_on_ended :
    Run ThreadStep booted [.fork 0 1 35, .progSleep 0 1, .finish 1]
      (menuAsleep.setStatus 1 .leaving) ∧
    ¬ NoStaleSleeper (menuAsleep.setStatus 1 .leaving) ∧
    Run ThreadStep booted [.fork 0 1 35, .enterUser 1, .exit 1 0#32, .progSleep 0 1]
      ((afterExit entered 1 0#32).setStatus 0 (.asleep (some 1) .prog)) ∧
    ¬ NoStaleSleeper ((afterExit entered 1 0#32).setStatus 0 (.asleep (some 1) .prog)) := by
  have hfinish : ThreadStep menuAsleep (.finish 1) (menuAsleep.setStatus 1 .leaving) :=
    .finish (by decide +kernel) (by decide +kernel) (by decide +kernel) (by decide)
  have henter : ThreadStep launched (.enterUser 1) entered :=
    .enterUser (by decide +kernel) (by decide +kernel) (by decide +kernel)
  have hexit : ThreadStep entered (.exit 1 0#32) (afterExit entered 1 0#32) :=
    step_afterExit entered 1 0#32 (by decide +kernel) (by decide +kernel) (by decide +kernel)
      (by decide +kernel)
  have hsleep : ThreadStep (afterExit entered 1 0#32) (.progSleep 0 1)
      ((afterExit entered 1 0#32).setStatus 0 (.asleep (some 1) .prog)) :=
    .progSleep (by decide +kernel) (by decide +kernel)
  refine ⟨.head step_launched (.head step_menuAsleep (.single hfinish)), ?_,
    .head step_launched (.head henter (.head hexit (.single hsleep))), ?_⟩
  · intro h
    exact h 0 1 .prog (by decide +kernel) (by decide +kernel)
  · intro h
    exact h 0 1 .prog (by decide +kernel) (by decide +kernel)

end Launch

end OS161
