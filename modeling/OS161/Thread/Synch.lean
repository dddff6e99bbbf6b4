import OS161.Thread.Switch

/-! `synch.c`: interrupts are off inside the calls, so each is atomic between its sleeps. -/
namespace OS161

open Function (update_self update_of_ne update)
open Lts (Run Restrict)

/-- What threads sleep on: a semaphore, a lock, a thread or another object of the kernel. -/
inductive WaitAddr where
  | sem (i : Nat) | lock (l : Nat) | thread (t : Tid) | other (n : Nat)
  deriving DecidableEq, Repr

/-- Where a thread is inside the calls of `synch.c`. -/
inductive SynchCont where
  /-- In none of them. -/
  | none
  /-- Asleep in the loop of `P`. -/
  | p (i : Nat)
  /-- Asleep in the loop of `lock_acquire`, which `cv_wait` may have called. -/
  | acquire (l : Nat) (cv : Option Nat)
  /-- Asleep in `cv_wait`. -/
  | cvSleep (c l : Nat)
  /-- In `cv_wait` between `splx` and `lock_acquire`. -/
  | cvWoken (c l : Nat)
  deriving DecidableEq, Repr

/-- What happened, in order. -/
inductive Note where
  | p (i : Nat)
  | v (i : Nat)
  | acquired (t : Tid) (l : Nat)
  | released (t : Tid) (l : Nat)
  | waits (t : Tid) (c l : Nat)
  | signalled (t : Tid) (c : Nat)
  | returned (t : Tid) (c l : Nat)
  deriving DecidableEq, Repr

/-- The notes of the condition variables. -/
def Note.IsCv : Note → Prop
  | .waits .. | .signalled .. | .returned .. => True
  | .p _ | .v _ | .acquired .. | .released .. => False

structure Synch where
  sched : Sched WaitAddr
  count : Nat → Word
  busy : Nat → Option Tid
  sleptThreads : Nat → Queue Tid
  cont : Tid → SynchCont

namespace Synch

/-- Semaphores with these counts; `cv_create` makes queues of ten slots. -/
def boot (initialCount : Nat → Word) : Synch where
  sched := .boot
  count := initialCount
  busy _ := none
  sleptThreads _ := qCreate 10
  cont _ := .none

variable (s : Synch)

/-- `thread_sleep` in the thread `t`, which goes on from `k`. -/
def sleepIn (t : Tid) (addr : WaitAddr) (k : SynchCont) (mem : Bool) : Except Crash Synch := do
  let sched ← s.sched.threadSleep addr mem
  .ok { s with sched := sched, cont := update s.cont t k }

def wakeup (addr : WaitAddr) (mem : Bool) : Except Crash Synch := do
  let sched ← s.sched.threadWakeup addr mem
  .ok { s with sched := sched }

/-- The loop of `P` up to the next sleep or to the end of the call. -/
def p (t : Tid) (i : Nat) (mem : Bool) : Except Crash (Synch × List Note) :=
  if s.count i = 0 then do
    let s ← s.sleepIn t (.sem i) (.p i) mem
    .ok (s, [])
  else if 0 < (s.count i).toInt then
    .ok ({ s with
      count := update s.count i (s.count i - 1)
      cont := update s.cont t .none }, [.p i])
  else .error .assertion

def v (i : Nat) (mem : Bool) : Except Crash (Synch × List Note) :=
  if 0 < (s.count i + 1).toInt then do
    let s ← wakeup { s with count := update s.count i (s.count i + 1) } (.sem i) mem
    .ok (s, [.v i])
  else .error .assertion

/-- The loop of `lock_acquire`, called by `cv_wait` where a condition variable is given. -/
def lockAcquire (t : Tid) (l : Nat) (cv : Option Nat) (mem : Bool) :
    Except Crash (Synch × List Note) :=
  if s.busy l ≠ none then do
    let s ← s.sleepIn t (.lock l) (.acquire l cv) mem
    .ok (s, [])
  else
    .ok ({ s with
      busy := update s.busy l (some t)
      cont := update s.cont t .none },
      .acquired t l :: (cv.map fun c => Note.returned t c l).toList)

def lockRelease (t : Tid) (l : Nat) (mem : Bool) : Except Crash (Synch × List Note) := do
  let s ← wakeup { s with busy := update s.busy l none } (.lock l) mem
  .ok (s, [.released t l])

def lockDoIHold (l : Nat) : Bool := s.busy l = s.sched.curthread

/-- `cv_wait` up to its sleep. The result of `q_addtail` is not looked at. -/
def cvWait (t : Tid) (c l : Nat) (mem : Nat → Bool) : Except Crash (Synch × List Note) := do
  let queue ← (s.sleptThreads c).qAddtail t (mem 0)
  let s := { s with
    sleptThreads := update s.sleptThreads c (queue.getD (s.sleptThreads c)) }
  let (s, notes) ← s.lockRelease t l (mem 1)
  let s ← s.sleepIn t (.thread t) (.cvSleep c l) (mem 2)
  .ok (s, .waits t c l :: notes)

def cvSignal (c : Nat) (mem : Bool) : Except Crash (Synch × List Note) := do
  let (t, queue) ← (s.sleptThreads c).qRemhead
  let s ← wakeup { s with sleptThreads := update s.sleptThreads c queue } (.thread t) mem
  .ok (s, [.signalled t c])

/-- The loop of `cv_broadcast`, whose body is that of `cv_signal`. -/
def broadcastLoop (c : Nat) (mem : Bool) : Nat → Synch → Except Crash (Synch × List Note)
  | 0, s => if (s.sleptThreads c).qEmpty then .ok (s, []) else .error .hang
  | n + 1, s =>
    if (s.sleptThreads c).qEmpty then .ok (s, [])
    else do
      let (s, notes) ← s.cvSignal c mem
      let (s, notes') ← broadcastLoop c mem n s
      .ok (s, notes ++ notes')

def cvBroadcast (c : Nat) (mem : Bool) : Except Crash (Synch × List Note) :=
  broadcastLoop c mem (s.sleptThreads c).size s

/-- The thread `t` goes on from where it slept. -/
def resume (t : Tid) (mem : Bool) : Except Crash (Synch × List Note) :=
  match s.cont t with
  | .none | .cvWoken .. => .ok (s, [])
  | .p i => s.p t i mem
  | .acquire l cv => s.lockAcquire t l cv mem
  | .cvSleep c l => .ok ({ s with cont := update s.cont t (.cvWoken c l) }, [])

def dispatch (mem : Bool) : Except Crash (Synch × List Note) := do
  let sched ← s.sched.dispatch
  match sched.curthread with
  | some t => resume { s with sched := sched } t mem
  | none => .error .nullDeref

/-- `cv_wait` calls `lock_acquire`. -/
def reacquire (t : Tid) (mem : Bool) : Except Crash (Synch × List Note) :=
  match s.cont t with
  | .cvWoken c l => s.lockAcquire t l (some c) mem
  | _ => .ok (s, [])

end Synch

/-- `sched` stands for what threads and interrupts do outside `synch.c`. -/
inductive SynchEvent where
  | sched (e : SchedEvent WaitAddr)
  | p (i : Nat) (mem : Bool)
  | v (i : Nat) (mem : Bool)
  | lockAcquire (l : Nat) (mem : Bool)
  | lockRelease (l : Nat) (mem : Bool)
  | cvWait (c l : Nat) (mem : Nat → Bool)
  | cvSignal (c l : Nat) (mem : Bool)
  | cvBroadcast (c l : Nat) (mem : Bool)
  | reacquire (mem : Bool)
  | dispatch (mem : Bool)

/-- The scheduler's calls that sleep on and wake other objects only. -/
def SchedEvent.Plain : SchedEvent WaitAddr → Prop
  | .fork .. | .yield _ | .exit _ => True
  | .sleep addr _ | .wakeup addr _ => ∃ n, addr = .other n
  | .hardclock lbolt _ => ∀ addr, lbolt = some addr → ∃ n, addr = .other n
  | .dispatch => False

/-- The calls made by a running thread. -/
def SchedEvent.IsCall {A : Type} : SchedEvent A → Prop
  | .fork .. | .yield _ | .exit _ | .sleep .. => True
  | .wakeup .. | .hardclock .. | .dispatch => False

namespace Synch

/-- A thread runs, and is in no call of `synch.c`. -/
def Free (s : Synch) : Prop := ∃ t, s.sched.curthread = some t ∧ s.cont t = .none

end Synch

def SynchEvent.Enabled (s : Synch) : SynchEvent → Prop
  | .sched e => e.Enabled s.sched ∧ e.Plain ∧ (e.IsCall → s.Free)
  | .p .. | .lockAcquire .. | .lockRelease .. | .cvWait .. | .cvSignal ..
  | .cvBroadcast .. => s.Free
  | .v .. => True
  | .reacquire _ => ∃ t c l, s.sched.curthread = some t ∧ s.cont t = .cvWoken c l
  | .dispatch _ => SchedEvent.dispatch.Enabled s.sched

namespace Synch

def exec (s : Synch) : SynchEvent → Except Crash (Synch × List Note)
  | .sched e => do
    let sched ← s.sched.exec e
    .ok ({ s with sched := sched }, [])
  | .v i mem => s.v i mem
  | .dispatch mem => s.dispatch mem
  | .p i mem => onCurrent fun t => s.p t i mem
  | .lockAcquire l mem => onCurrent fun t => s.lockAcquire t l none mem
  | .lockRelease l mem => onCurrent fun t => s.lockRelease t l mem
  | .cvWait c l mem => onCurrent fun t => s.cvWait t c l mem
  | .cvSignal c _ mem => onCurrent fun _ => s.cvSignal c mem
  | .cvBroadcast c _ mem => onCurrent fun _ => s.cvBroadcast c mem
  | .reacquire mem => onCurrent fun t => s.reacquire t mem
where
  onCurrent (f : Tid → Except Crash (Synch × List Note)) : Except Crash (Synch × List Note) :=
    match s.sched.curthread with
    | some t => f t
    | none => .error .nullDeref

end Synch

/-- The thread is in the loop of `P` or of `lock_acquire`: it slept there, or the event is its call
of the function. -/
def SynchEvent.Calls (s : Synch) (e : SynchEvent) (t : Tid) : SynchCont → Prop
  | .p i => s.cont t = .p i ∨ s.sched.curthread = some t ∧ ∃ mem, e = .p i mem
  | .acquire l none =>
    s.cont t = .acquire l none ∨ s.sched.curthread = some t ∧ ∃ mem, e = .lockAcquire l mem
  | .acquire l (some c) =>
    s.cont t = .acquire l (some c) ∨ s.cont t = .cvWoken c l ∧ ∃ mem, e = .reacquire mem
  | .none | .cvSleep .. | .cvWoken .. => False

/-- It returns from that call. -/
def SynchEvent.Returns (s : Synch) (e : SynchEvent) (s' : Synch) (t : Tid) (k : SynchCont) : Prop :=
  e.Calls s t k ∧ s'.cont t = .none

/-- It calls `lock_release`, which `cv_wait` does too. -/
def SynchEvent.Releases (s : Synch) (e : SynchEvent) (t : Tid) (l : Nat) : Prop :=
  s.sched.curthread = some t ∧ ((∃ mem, e = .lockRelease l mem) ∨ ∃ c mem, e = .cvWait c l mem)

/-- The functions in whose loop a running thread can be. -/
def SynchEvent.IsLoop : SynchEvent → Prop
  | .p .. | .lockAcquire .. => True
  | _ => False

/-- The functions that give something back. -/
def SynchEvent.Gives : SynchEvent → Prop
  | .v .. | .lockRelease .. | .cvWait .. => True
  | _ => False

/-- A state with what happened up to it. -/
structure History where
  state : Synch
  trace : List Note

def History.boot (initialCount : Nat → Word) : History := ⟨.boot initialCount, []⟩

/-- One call, interrupt or return of the scheduler. -/
def History.Step (x : History) (e : SynchEvent) (y : History) : Prop :=
  e.Enabled x.state ∧ ∃ notes, x.state.exec e = .ok (y.state, notes) ∧ y.trace = x.trace ++ notes

namespace Sched
variable {A : Type} {s s' : Sched A} {ready : List Tid} {t u : Tid} {a addr : A} {mem : Bool}

/-- The thread sleeps on the address. -/
def Asleep (s : Sched A) (t : Tid) (a : A) : Prop := t ∈ s.sleepers.items ∧ s.sleepaddr t = some a

section
variable (h : s.Ok ready)
include h

theorem Ok.running_not_asleep (hcur : s.curthread = some t) : ¬ s.Asleep t a :=
  fun ht => (h.running_notMem hcur).2.1 ht.1

theorem Ok.asleep_sleep (hcur : s.curthread = some t) (hrun : s.threadSleep addr mem = .ok s') :
    s'.Ok ready ∧ s'.curthread = none ∧ s'.created = s.created ∧
      s'.sleepers.items = s.sleepers.items ++ [t] ∧
      ∀ u a, s'.Asleep u a ↔ s.Asleep u a ∨ u = t ∧ a = addr := by
  have hnot := (h.running_notMem hcur).2.1
  obtain ⟨k, rfl, hk, -⟩ := returned (h.threadSleep hcur addr mem) hrun
  refine ⟨h.slept hcur hk, rfl, rfl, rfl, fun u a => ?_⟩
  simp only [Asleep, Sched.slept, List.mem_append, List.mem_singleton]
  by_cases hut : u = t
  · subst hut
    simp [hnot, eq_comm]
  · simp [hut]

theorem Ok.asleep_wakeup [DecidableEq A] (hrun : s.threadWakeup addr mem = .ok s') :
    s'.Ok (ready ++ s.sleepers.items.filter (onAddr s.sleepaddr addr)) ∧
      s'.curthread = s.curthread ∧ s'.created = s.created ∧
      s'.sleepers.items = s.sleepers.items.filter (! onAddr s.sleepaddr addr ·) ∧
      ∀ u a, s'.Asleep u a ↔ s.Asleep u a ∧ a ≠ addr := by
  obtain ⟨q, rfl, hq, -⟩ := returned (h.threadWakeup addr mem) hrun
  refine ⟨h.woken hq, rfl, rfl, rfl, fun u a => ?_⟩
  simp only [Asleep, Sched.woken, List.mem_filter, onAddr, Bool.not_eq_true',
    decide_eq_false_iff_not]
  constructor
  · rintro ⟨⟨hu, hne⟩, ha⟩
    refine ⟨⟨hu, ha⟩, ?_⟩
    rintro rfl
    exact hne ha
  · rintro ⟨⟨hu, ha⟩, hne⟩
    refine ⟨⟨hu, fun ha' => ?_⟩, ha⟩
    rw [ha] at ha'
    exact hne (Option.some.inj ha')

/-- What leaves the sleepers and their addresses alone. -/
structure Awake (s s' : Sched A) : Prop where
  ok : ∃ ready, s'.Ok ready
  running : ∀ t, s'.curthread = some t → s.curthread = some t
  created : s.created ≤ s'.created
  asleep : ∀ u a, s'.Asleep u a ↔ s.Asleep u a

theorem Ok.awake_yield (hrun : s.threadYield mem = .ok s') : s.Awake s' := by
  cases hcur : s.curthread with
  | none =>
    rw [Sched.threadYield, miSwitch, hcur] at hrun
    cases hrun
    exact ⟨⟨ready, h⟩, fun _ ht => ht, le_rfl, fun _ _ => .rfl⟩
  | some t =>
    obtain ⟨q, rfl, hq, -⟩ := returned (h.threadYield hcur mem) hrun
    exact ⟨⟨_, h.yielded hcur hq⟩, by simp [Sched.yielded], le_rfl, fun _ _ => .rfl⟩

theorem Ok.awake_exit (hcur : s.curthread = some t)
    (hrun : s.threadExit mem = .ok s') : s.Awake s' := by
  obtain ⟨k, rfl, hk, -⟩ := returned (h.threadExit hcur mem) hrun
  exact ⟨⟨_, h.exited hcur hk⟩, by simp [Sched.exited], le_rfl, fun _ _ => .rfl⟩

theorem Ok.awake_fork (hcur : s.curthread = some t) {setup : Bool}
    {mem : Nat → Bool} {ret : Option Tid} (hrun : s.threadFork setup mem = .ok (ret, s')) :
    s.Awake s' := by
  obtain ⟨k, m, q, hk, hm, -, -, ⟨-, hq, hrun'⟩ | ⟨-, -, -, hq, hrun'⟩⟩ :=
    h.threadFork hcur setup mem
  · rw [hrun] at hrun'
    cases hrun'
    exact ⟨⟨_, h.resize hk hm hq⟩, fun _ ht => ht, le_rfl, fun _ _ => .rfl⟩
  rw [hrun] at hrun'
  cases hrun'
  refine ⟨⟨_, (h.resize hk hm h.queue).addThread hq⟩, fun _ ht => ht, Nat.le_succ _, ?_⟩
  intro u a
  refine and_congr_right fun hu => ?_
  have hmem : u ∈ s.sleepers.items := hu
  have hne : u ≠ s.created := Nat.ne_of_lt (h.mem_iff.mp (by simp [placed, hmem]))
  simp [Sched.addThread, Sched.resize, update_of_ne hne]

theorem Ok.asleep_dispatch (he : SchedEvent.dispatch.Enabled s) (hrun : s.dispatch = .ok s') :
    ∃ t rest, ready = t :: rest ∧ s'.Ok rest ∧ s'.curthread = some t ∧ s'.created = s.created ∧
      ∀ u a, s'.Asleep u a ↔ s.Asleep u a := by
  obtain ⟨t, rest, rfl⟩ := h.exists_ready he.2
  obtain ⟨s₁, hrun₁, h₁, hd⟩ := h.dispatch he.1
  rw [hrun] at hrun₁
  cases hrun₁
  refine ⟨t, rest, rfl, h₁, hd.curthread, hd.created, fun u a => ?_⟩
  rw [Asleep, Asleep, hd.sleepers, hd.sleepaddr]
  refine and_congr_right fun hu => ?_
  have hne : u ≠ t := by
    rintro rfl
    exact (h₁.running_notMem hd.curthread).2.1 (hd.sleepers ▸ hu)
  split
  · rw [update_of_ne hne]
  · rfl

end

end Sched

namespace Sched
variable {s s' : Sched WaitAddr} {ready : List Tid} {e : SchedEvent WaitAddr}

/-- What threads and interrupts do outside `synch.c`. -/
structure PlainMove (s s' : Sched WaitAddr) (call : Prop) : Prop where
  ok : ∃ ready, s'.Ok ready
  running : ∀ t, s'.curthread = some t → s.curthread = some t
  created : s.created ≤ s'.created
  asleep : ∀ u a, (∀ n, a ≠ .other n) → (s'.Asleep u a ↔ s.Asleep u a)
  other : ∀ u n, s'.Asleep u (.other n) → s.Asleep u (.other n) ∨ call ∧ s.curthread = some u

theorem Awake.plainMove {call : Prop} (h : s.Awake s') : s.PlainMove s' call :=
  ⟨h.ok, h.running, h.created, fun u a _ => h.asleep u a, fun u _ hu => .inl ((h.asleep u _).mp hu)⟩

theorem PlainMove.trans {s₁ s₂ s₃ : Sched WaitAddr} {call : Prop} (h : s₁.PlainMove s₂ call)
    (h' : s₂.PlainMove s₃ call) : s₁.PlainMove s₃ call := by
  refine ⟨h'.ok, fun t ht => h.running t (h'.running t ht), h.created.trans h'.created,
    fun u a ha => (h'.asleep u a ha).trans (h.asleep u a ha), fun u n hu => ?_⟩
  rcases h'.other u n hu with hu | ⟨hcall, hu⟩
  · exact h.other u n hu
  · exact .inr ⟨hcall, h.running u hu⟩

theorem Ok.plainMove_wakeup (h : s.Ok ready) (call : Prop) {n : Nat} {mem : Bool}
    (hrun : s.threadWakeup (.other n) mem = .ok s') : s.PlainMove s' call := by
  obtain ⟨hok, hcur, hcreated, -, hasleep⟩ := h.asleep_wakeup hrun
  refine ⟨⟨_, hok⟩, fun t ht => hcur ▸ ht, hcreated.ge, fun u a ha => ?_, fun u m hu => ?_⟩
  · rw [hasleep, and_iff_left (ha n)]
  · exact .inl ((hasleep u _).mp hu).1

theorem Ok.plainMove (h : s.Ok ready) (hp : e.Plain) (hstep : s.Step e s') :
    s.PlainMove s' e.IsCall := by
  obtain ⟨he, hrun⟩ := hstep
  cases e with
  | fork setup mem =>
    obtain ⟨t, hcur⟩ := Option.ne_none_iff_exists'.mp he
    rw [Sched.exec] at hrun
    cases hfork : s.threadFork setup mem with
    | error c =>
      rw [hfork] at hrun
      cases hrun
    | ok r =>
      rw [hfork] at hrun
      cases hrun
      exact (h.awake_fork hcur hfork).plainMove
  | yield mem => exact (h.awake_yield hrun).plainMove
  | sleep addr mem =>
    obtain ⟨t, hcur⟩ := Option.ne_none_iff_exists'.mp he
    obtain ⟨n, rfl⟩ := hp
    obtain ⟨hok, hnone, hcreated, -, hasleep⟩ := h.asleep_sleep hcur hrun
    refine ⟨⟨_, hok⟩, by simp [hnone], hcreated.ge, fun u a ha => ?_, fun u m hu => ?_⟩
    · rw [hasleep]
      exact or_iff_left fun heq => ha n heq.2
    · rcases (hasleep u _).mp hu with hu | ⟨rfl, -⟩
      · exact .inl hu
      · exact .inr ⟨trivial, hcur⟩
  | wakeup addr mem =>
    obtain ⟨n, rfl⟩ := hp
    exact h.plainMove_wakeup _ hrun
  | exit mem =>
    obtain ⟨t, hcur⟩ := Option.ne_none_iff_exists'.mp he
    exact (h.awake_exit hcur hrun).plainMove
  | hardclock lbolt mem =>
    cases lbolt with
    | none => exact (h.awake_yield hrun).plainMove
    | some addr =>
      obtain ⟨n, rfl⟩ := hp addr rfl
      obtain ⟨s₁, hwake, hyield⟩ := bind_eq_ok.mp hrun
      have hmove := h.plainMove_wakeup False hwake
      obtain ⟨ready₁, h₁⟩ := hmove.ok
      exact hmove.trans (h₁.awake_yield hyield).plainMove
  | dispatch => exact hp.elim

end Sched

namespace Synch
variable {s s' : Synch} {e : SynchEvent} {notes : List Note} {t : Tid} {i l c : Nat}
  {addr : WaitAddr} {k : SynchCont} {mem : Bool}

theorem sleepIn_ok (h : s.sleepIn t addr k mem = .ok s') :
    ∃ sched, s.sched.threadSleep addr mem = .ok sched ∧
      s' = { s with sched := sched, cont := update s.cont t k } := by
  obtain ⟨sched, hsched, h⟩ := bind_eq_ok.mp h
  cases h
  exact ⟨sched, hsched, rfl⟩

theorem wakeup_ok (h : s.wakeup addr mem = .ok s') :
    ∃ sched, s.sched.threadWakeup addr mem = .ok sched ∧ s' = { s with sched := sched } := by
  obtain ⟨sched, hsched, h⟩ := bind_eq_ok.mp h
  cases h
  exact ⟨sched, hsched, rfl⟩

theorem p_ok (h : s.p t i mem = .ok (s', notes)) :
    (s.count i = 0 ∧ s.sleepIn t (.sem i) (.p i) mem = .ok s' ∧ notes = []) ∨
      (0 < (s.count i).toInt ∧ notes = [.p i] ∧ s' = { s with
        count := update s.count i (s.count i - 1)
        cont := update s.cont t .none }) := by
  unfold p at h
  split at h
  · rename_i hzero
    obtain ⟨s₁, hsleep, h⟩ := bind_eq_ok.mp h
    cases h
    exact .inl ⟨hzero, hsleep, rfl⟩
  · split at h
    · rename_i hpos
      cases h
      exact .inr ⟨hpos, rfl, rfl⟩
    · cases h

theorem v_ok (h : s.v i mem = .ok (s', notes)) :
    0 < (s.count i + 1).toInt ∧ notes = [.v i] ∧
      wakeup { s with count := update s.count i (s.count i + 1) } (.sem i) mem =
        .ok s' := by
  unfold v at h
  split at h
  · rename_i hpos
    obtain ⟨s₁, hwake, h⟩ := bind_eq_ok.mp h
    cases h
    exact ⟨hpos, rfl, hwake⟩
  · cases h

theorem lockAcquire_ok {cv : Option Nat} (h : s.lockAcquire t l cv mem = .ok (s', notes)) :
    (s.busy l ≠ none ∧ s.sleepIn t (.lock l) (.acquire l cv) mem = .ok s' ∧ notes = []) ∨
      (s.busy l = none ∧
        notes = .acquired t l :: (cv.map fun c => Note.returned t c l).toList ∧ s' = { s with
          busy := update s.busy l (some t)
          cont := update s.cont t .none }) := by
  unfold lockAcquire at h
  split at h
  · rename_i hbusy
    obtain ⟨s₁, hsleep, h⟩ := bind_eq_ok.mp h
    cases h
    exact .inl ⟨hbusy, hsleep, rfl⟩
  · rename_i hfree
    cases h
    exact .inr ⟨not_not.mp hfree, rfl, rfl⟩

theorem lockRelease_ok (h : s.lockRelease t l mem = .ok (s', notes)) :
    notes = [.released t l] ∧
      wakeup { s with busy := update s.busy l none } (.lock l) mem = .ok s' := by
  obtain ⟨s₁, hwake, h⟩ := bind_eq_ok.mp h
  cases h
  exact ⟨rfl, hwake⟩

theorem cvWait_ok {mem : Nat → Bool} (h : s.cvWait t c l mem = .ok (s', notes)) :
    ∃ queue s₁, (s.sleptThreads c).qAddtail t (mem 0) = .ok queue ∧
      wakeup { s with
        sleptThreads := update s.sleptThreads c (queue.getD (s.sleptThreads c))
        busy := update s.busy l none } (.lock l) (mem 1) = .ok s₁ ∧
      s₁.sleepIn t (.thread t) (.cvSleep c l) (mem 2) = .ok s' ∧
      notes = [.waits t c l, .released t l] := by
  obtain ⟨queue, hadd, h⟩ := bind_eq_ok.mp h
  obtain ⟨⟨s₁, notes₁⟩, hrel, h⟩ := bind_eq_ok.mp h
  obtain ⟨s₂, hsleep, h⟩ := bind_eq_ok.mp h
  obtain ⟨rfl, hwake⟩ := lockRelease_ok hrel
  cases h
  exact ⟨queue, s₁, hadd, hwake, hsleep, rfl⟩

theorem cvSignal_ok (h : s.cvSignal c mem = .ok (s', notes)) :
    ∃ t queue, (s.sleptThreads c).qRemhead = .ok (t, queue) ∧ notes = [.signalled t c] ∧
      wakeup { s with sleptThreads := update s.sleptThreads c queue } (.thread t) mem =
        .ok s' := by
  obtain ⟨⟨t, queue⟩, hrem, h⟩ := bind_eq_ok.mp h
  obtain ⟨s₁, hwake, h⟩ := bind_eq_ok.mp h
  cases h
  exact ⟨t, queue, hrem, rfl, hwake⟩

theorem broadcastLoop_inv {R : List Note → Synch → Prop} {n : Nat} (h0 : R [] s)
    (hs : ∀ ns s₁ s₂ ns', R ns s₁ → s₁.cvSignal c mem = .ok (s₂, ns') → R (ns ++ ns') s₂)
    (h : broadcastLoop c mem n s = .ok (s', notes)) :
    R notes s' ∧ (s'.sleptThreads c).qEmpty = true := by
  have hloop : ∀ n ns s notes, R ns s → broadcastLoop c mem n s = .ok (s', notes) →
      R (ns ++ notes) s' ∧ (s'.sleptThreads c).qEmpty = true := by
    clear h0 h
    intro n
    induction n with
    | zero =>
      intro ns s notes hR h
      rw [broadcastLoop] at h
      split at h
      · rename_i hempty
        cases h
        exact ⟨by simpa using hR, hempty⟩
      · cases h
    | succ n ih =>
      intro ns s notes hR h
      rw [broadcastLoop] at h
      split at h
      · rename_i hempty
        cases h
        exact ⟨by simpa using hR, hempty⟩
      obtain ⟨⟨s₁, ns₁⟩, hsig, h⟩ := bind_eq_ok.mp h
      obtain ⟨⟨s₂, ns₂⟩, hrest, h⟩ := bind_eq_ok.mp h
      cases h
      rw [← List.append_assoc]
      exact ih _ _ _ (hs _ _ _ _ hR hsig) hrest
  exact hloop n [] s notes h0 h

theorem dispatch_ok (h : s.dispatch mem = .ok (s', notes)) :
    ∃ sched t, s.sched.dispatch = .ok sched ∧ sched.curthread = some t ∧
      resume { s with sched := sched } t mem = .ok (s', notes) := by
  obtain ⟨sched, hsched, h⟩ := bind_eq_ok.mp h
  split at h
  · rename_i t hcur
    exact ⟨sched, t, hsched, hcur, h⟩
  · cases h

/-- What an event is to the semaphores and locks, by the threads' calls and where they are in them:
a `V`, the end of a `P` or of a `lock_acquire`, a `lock_release`, or nothing. -/
structure Acts (s : Synch) (e : SynchEvent) (s' : Synch) (a : Option Note) : Prop where
  v : ∀ i, (∃ mem, e = .v i mem) ↔ a = some (.v i)
  p : ∀ i, (∃ t, e.Returns s s' t (.p i)) ↔ a = some (.p i)
  acquired : ∀ t l, (∃ cv, e.Returns s s' t (.acquire l cv)) ↔ a = some (.acquired t l)
  released : ∀ t l, e.Releases s t l ↔ a = some (.released t l)

theorem calls_running (h : e.Calls s t k) (hnone : s.cont t = .none) :
    s.sched.curthread = some t ∧ e.IsLoop := by
  cases k with
  | p i =>
    rcases h with h | ⟨hcur, mem, rfl⟩
    · cases hnone.symm.trans h
    · exact ⟨hcur, trivial⟩
  | acquire l cv =>
    cases cv with
    | none =>
      rcases h with h | ⟨hcur, mem, rfl⟩
      · cases hnone.symm.trans h
      · exact ⟨hcur, trivial⟩
    | some c => rcases h with h | ⟨h, -⟩ <;> cases hnone.symm.trans h
  | _ => exact h.elim

variable {r : Synch × List Note} {u : Tid}

theorem not_returns (hloop : ¬ e.IsLoop)
    (hcont : ∀ u, s'.cont u = .none → s.cont u = .none) : ¬ e.Returns s s' u k :=
  fun h => hloop (calls_running h.1 (hcont u h.2)).2

/-- A step that moves the thread `t` only. -/
theorem returns_iff {j : SynchCont} (hcont : s'.cont = update s.cont t j)
    (hcur : ∀ u, s.sched.curthread = some u → u = t) :
    e.Returns s s' u k ↔ u = t ∧ j = .none ∧ e.Calls s t k := by
  by_cases hut : u = t
  · subst hut
    rw [SynchEvent.Returns, hcont, update_self]
    tauto
  · rw [SynchEvent.Returns, hcont, update_of_ne hut]
    exact iff_of_false (fun h => hut (hcur u (calls_running h.1 h.2).1)) fun h => hut h.1

theorem not_gives (h : ¬ e.Gives) : (∀ i mem, e ≠ .v i mem) ∧ ∀ t l, ¬ e.Releases s t l := by
  refine ⟨?_, ?_⟩
  · rintro i mem rfl
    exact h trivial
  · rintro t l ⟨-, ⟨mem, rfl⟩ | ⟨c, mem, rfl⟩⟩ <;> exact h trivial

theorem acts_none (hg : ¬ e.Gives) (hret : ∀ u k, ¬ e.Returns s s' u k) : s.Acts e s' none := by
  obtain ⟨hv, hr⟩ := not_gives (s := s) hg
  refine ⟨?_, ?_, ?_, ?_⟩ <;> simp_all

/-- What a call does to the counts and the locks, with the notes it leaves. -/
inductive Effect (s : Synch) (e : SynchEvent) (notes : List Note) (s' : Synch) : Prop where
  | quiet (hcount : s'.count = s.count) (hbusy : s'.busy = s.busy)
      (hnotes : ∀ n ∈ notes, ∃ t c, n = .signalled t c) (hacts : s.Acts e s' none)
  | p (i : Nat) (hpos : 0 < (s.count i).toInt) (hbusy : s'.busy = s.busy)
      (hcount : s'.count = update s.count i (s.count i - 1)) (hnotes : notes = [.p i])
      (hacts : s.Acts e s' (some (.p i)))
  | v (i : Nat) (hpos : 0 < (s.count i + 1).toInt) (hbusy : s'.busy = s.busy)
      (hcount : s'.count = update s.count i (s.count i + 1)) (hnotes : notes = [.v i])
      (hacts : s.Acts e s' (some (.v i)))
  | acquired (t : Tid) (l : Nat) (cv : Option Nat) (hfree : s.busy l = none)
      (hcount : s'.count = s.count) (hbusy : s'.busy = update s.busy l (some t))
      (hnotes : notes = .acquired t l :: (cv.map fun c => Note.returned t c l).toList)
      (hacts : s.Acts e s' (some (.acquired t l)))
  | released (t : Tid) (l : Nat) (hcur : s.sched.curthread = some t)
      (hcall : (∃ mem, e = .lockRelease l mem) ∨ ∃ c mem, e = .cvWait c l mem)
      (hcount : s'.count = s.count) (hbusy : s'.busy = update s.busy l none)
      (hnotes : notes = [.released t l] ∨ ∃ c, notes = [.waits t c l, .released t l])
      (hacts : s.Acts e s' (some (.released t l)))

section
variable {sched : Sched WaitAddr} (hcur : ∀ u, s.sched.curthread = some u → u = t)
  (hg : ¬ e.Gives)
include hcur hg

theorem p_effect (h : p { s with sched := sched } t i mem = .ok (s', notes))
    (hk : ∀ k, e.Calls s t k ↔ k = .p i) : s.Effect e notes s' := by
  rcases p_ok h with ⟨-, hsleep, rfl⟩ | ⟨hpos, hnotes, hs'⟩
  · obtain ⟨sched, -, rfl⟩ := sleepIn_ok hsleep
    refine .quiet rfl rfl (by simp) (acts_none hg fun u k => ?_)
    rw [returns_iff rfl hcur]
    simp
  obtain ⟨hv, hr⟩ := not_gives (s := s) hg
  have hret : ∀ u k, e.Returns s s' u k ↔ u = t ∧ k = .p i := fun u k => by
    rw [returns_iff (j := .none) (by rw [hs']) hcur, hk]
    simp
  refine .p i hpos (by rw [hs']) (by rw [hs']) hnotes ⟨?_, ?_, ?_, ?_⟩ <;>
    simp [hv, hr, hret, eq_comm]

theorem lockAcquire_effect {cv : Option Nat}
    (h : lockAcquire { s with sched := sched } t l cv mem = .ok (s', notes))
    (hk : ∀ k, e.Calls s t k ↔ k = .acquire l cv) : s.Effect e notes s' := by
  rcases lockAcquire_ok h with ⟨-, hsleep, rfl⟩ | ⟨hfree, hnotes, hs'⟩
  · obtain ⟨sched, -, rfl⟩ := sleepIn_ok hsleep
    refine .quiet rfl rfl (by simp) (acts_none hg fun u k => ?_)
    rw [returns_iff rfl hcur]
    simp
  obtain ⟨hv, hr⟩ := not_gives (s := s) hg
  have hret : ∀ u k, e.Returns s s' u k ↔ u = t ∧ k = .acquire l cv := fun u k => by
    rw [returns_iff (j := .none) (by rw [hs']) hcur, hk]
    simp
  refine .acquired t l cv hfree (by rw [hs']) (by rw [hs']) hnotes ⟨?_, ?_, ?_, ?_⟩ <;>
    simp [hv, hr, hret, eq_comm]

end

theorem resume_effect {sched : Sched WaitAddr} {mem' : Bool} (hcur : s.sched.curthread = none)
    (h : resume { s with sched := sched } t mem = .ok (s', notes)) :
    s.Effect (.dispatch mem') notes s' := by
  have hrun : ∀ u, s.sched.curthread = some u → u = t := by simp [hcur]
  have hg : ¬ (SynchEvent.dispatch mem').Gives := id
  have hquiet : ∀ s', (∀ u, s'.cont u = .none → s.cont u = .none) →
      s.Acts (.dispatch mem') s' none := fun s' hcont =>
    acts_none hg fun u k => not_returns id hcont
  unfold resume at h
  split at h
  · cases h
    exact .quiet rfl rfl (by simp) (hquiet _ fun _ h => h)
  · cases h
    exact .quiet rfl rfl (by simp) (hquiet _ fun _ h => h)
  · rename_i i hi
    refine p_effect hrun hg h fun k => ?_
    replace hi : s.cont t = .p i := hi
    rcases k with _ | j | ⟨l, _ | c⟩ | _ | _ <;> simp [SynchEvent.Calls, hi, eq_comm]
  · rename_i l cv hl
    refine lockAcquire_effect hrun hg h fun k => ?_
    replace hl : s.cont t = .acquire l cv := hl
    rcases k with _ | j | ⟨l, _ | c⟩ | _ | _ <;> simp [SynchEvent.Calls, hl, eq_comm]
  cases h
  refine .quiet rfl rfl (by simp) (hquiet _ fun u hu => ?_)
  by_cases hut : u = t
  · subst hut
    simp at hu
  · simpa [update_of_ne hut] using hu

theorem onCurrent_ok
    (h : exec.onCurrent s f = .ok r) : ∃ t, s.sched.curthread = some t ∧ f t = .ok r := by
  unfold exec.onCurrent at h
  split at h
  · rename_i t hcur
    exact ⟨t, hcur, h⟩
  · cases h

/-- A thread that makes a call is not inside another one. -/
theorem onCurrent_free
    (hfree : s.Free) (h : exec.onCurrent s f = .ok r) :
    ∃ t, s.sched.curthread = some t ∧ s.cont t = .none ∧ f t = .ok r := by
  obtain ⟨t, hcur, h⟩ := onCurrent_ok h
  obtain ⟨u, hcur', hnone⟩ := hfree
  obtain rfl : t = u := Option.some.inj (hcur.symm.trans hcur')
  exact ⟨t, hcur, hnone, h⟩

theorem exec_effect (he : e.Enabled s) (h : s.exec e = .ok (s', notes)) : s.Effect e notes s' := by
  have hstill : ∀ s₁ : Synch, ¬ e.IsLoop → s₁.cont = s.cont → ∀ u k, ¬ e.Returns s s₁ u k :=
    fun s₁ hloop hcont u k => not_returns hloop fun u hu => hcont ▸ hu
  cases e with
  | sched e =>
    obtain ⟨sched, -, h⟩ := bind_eq_ok.mp h
    cases h
    exact .quiet rfl rfl (by simp) (acts_none id (hstill _ id rfl))
  | p i mem =>
    obtain ⟨t, hcur, hnone, h⟩ := onCurrent_free he h
    refine p_effect (by simp [hcur]) id h fun k => ?_
    rcases k with _ | j | ⟨l, _ | c⟩ | _ | _ <;> simp [SynchEvent.Calls, hnone, hcur, eq_comm]
  | v i mem =>
    obtain ⟨hpos, hnotes, hwake⟩ := v_ok h
    obtain ⟨sched, -, hs'⟩ := wakeup_ok hwake
    have hret := hstill s' id (by rw [hs'])
    refine .v i hpos (by rw [hs']) (by rw [hs']) hnotes ⟨?_, ?_, ?_, ?_⟩ <;>
      simp [hret, SynchEvent.Releases, eq_comm]
  | lockAcquire l mem =>
    obtain ⟨t, hcur, hnone, h⟩ := onCurrent_free he h
    refine lockAcquire_effect (by simp [hcur]) id h fun k => ?_
    rcases k with _ | j | ⟨l, _ | c⟩ | _ | _ <;> simp [SynchEvent.Calls, hnone, hcur, eq_comm]
  | lockRelease l mem =>
    obtain ⟨t, hcur, h⟩ := onCurrent_ok h
    obtain ⟨hnotes, hwake⟩ := lockRelease_ok h
    obtain ⟨sched, -, hs'⟩ := wakeup_ok hwake
    have hret := hstill s' id (by rw [hs'])
    refine .released t l hcur (.inl ⟨mem, rfl⟩) (by rw [hs']) (by rw [hs']) (.inl hnotes)
      ⟨?_, ?_, ?_, ?_⟩ <;> simp [hret, SynchEvent.Releases, hcur]
  | cvWait c l mem =>
    obtain ⟨t, hcur, h⟩ := onCurrent_ok h
    obtain ⟨queue, s₁, -, hwake, hsleep, rfl⟩ := cvWait_ok h
    obtain ⟨sched₁, -, rfl⟩ := wakeup_ok hwake
    obtain ⟨sched, -, hs'⟩ := sleepIn_ok hsleep
    have hret : ∀ u k, ¬ (SynchEvent.cvWait c l mem).Returns s s' u k := fun u k => by
      rw [returns_iff (t := t) (j := .cvSleep c l) (by rw [hs']) (by simp [hcur])]
      simp
    refine .released t l hcur (.inr ⟨c, mem, rfl⟩) (by rw [hs']) (by rw [hs']) (.inr ⟨c, rfl⟩)
      ⟨?_, ?_, ?_, ?_⟩ <;> simp [hret, SynchEvent.Releases, hcur]
  | cvSignal c l mem =>
    obtain ⟨t, -, h⟩ := onCurrent_ok h
    obtain ⟨u, queue, -, rfl, hwake⟩ := cvSignal_ok h
    obtain ⟨sched, -, rfl⟩ := wakeup_ok hwake
    exact .quiet rfl rfl (by simp) (acts_none id (hstill _ id rfl))
  | cvBroadcast c l mem =>
    obtain ⟨t, -, h⟩ := onCurrent_ok h
    have hinv := broadcastLoop_inv
      (R := fun ns s₁ => s₁.count = s.count ∧ s₁.busy = s.busy ∧ s₁.cont = s.cont ∧
        ∀ n ∈ ns, ∃ t c, n = .signalled t c)
      ⟨rfl, rfl, rfl, by simp⟩ ?_ h
    · obtain ⟨⟨hcount, hbusy, hcont, hns⟩, -⟩ := hinv
      exact .quiet hcount hbusy hns (acts_none id (hstill _ id hcont))
    rintro ns s₁ s₂ ns' ⟨hcount, hbusy, hcont, hns⟩ hsig
    obtain ⟨u, queue, -, rfl, hwake⟩ := cvSignal_ok hsig
    obtain ⟨sched, -, rfl⟩ := wakeup_ok hwake
    refine ⟨hcount, hbusy, hcont, fun n hn => ?_⟩
    rcases List.mem_append.mp hn with hn | hn
    · exact hns n hn
    · exact ⟨u, c, List.mem_singleton.mp hn⟩
  | reacquire mem =>
    obtain ⟨t, hcur, h⟩ := onCurrent_ok h
    obtain ⟨u, c, l, hcur', hwoken⟩ := he
    obtain rfl : t = u := Option.some.inj (hcur.symm.trans hcur')
    simp only [reacquire, hwoken] at h
    refine lockAcquire_effect (by simp [hcur]) id h fun k => ?_
    rcases k with _ | j | ⟨l, _ | c⟩ | _ | _ <;> simp [SynchEvent.Calls, hwoken, eq_comm, and_comm]
  | dispatch mem =>
    obtain ⟨sched, t, -, -, h⟩ := dispatch_ok h
    exact resume_effect he.1 h

/-- What is slept on cannot be had. -/
def Closed (s : Synch) : WaitAddr → Prop
  | .sem i => s.count i = 0
  | .lock l => s.busy l ≠ none
  | .thread _ | .other _ => True

/-- Nothing but counts and lock words matters for that. -/
theorem Closed.congr (h : s.Closed addr) (hcount : s'.count = s.count) (hbusy : s'.busy = s.busy) :
    s'.Closed addr := by
  cases addr with
  | sem i => exact (congrFun hcount i).trans h
  | lock l => exact fun hl => h ((congrFun hbusy l).symm.trans hl)
  | thread | other => trivial

structure NoLost (s : Synch) : Prop where
  ok : ∃ ready, s.sched.Ok ready
  closed : ∀ u a, s.sched.Asleep u a → s.Closed a

theorem NoLost.boot (init : Nat → Word) : (boot init).NoLost :=
  ⟨⟨[], .boot⟩, fun _ _ h => absurd h.1 List.not_mem_nil⟩

section
variable (h : s.NoLost)
include h

theorem NoLost.sleepIn (hcur : s.sched.curthread = some t)
    (hrun : s.sleepIn t addr k mem = .ok s') (ha : s.Closed addr) : s'.NoLost := by
  obtain ⟨ready, hok⟩ := h.ok
  obtain ⟨sched, hsched, rfl⟩ := sleepIn_ok hrun
  obtain ⟨hok', -, -, -, hasleep⟩ := hok.asleep_sleep hcur hsched
  refine ⟨⟨ready, hok'⟩, fun u a hu => ?_⟩
  rcases (hasleep u a).mp hu with hu | ⟨-, rfl⟩
  · exact (h.closed u a hu).congr rfl rfl
  · exact ha.congr rfl rfl

omit h in
/-- After a wakeup nothing has to be closed for the address woken. -/
theorem NoLost.wakeup (hrun : s.wakeup addr mem = .ok s') (hok : ∃ ready, s.sched.Ok ready)
    (hclosed : ∀ u a, s.sched.Asleep u a → a ≠ addr → s.Closed a) : s'.NoLost := by
  obtain ⟨ready, hok⟩ := hok
  obtain ⟨sched, hsched, rfl⟩ := wakeup_ok hrun
  obtain ⟨hok', -, -, -, hasleep⟩ := hok.asleep_wakeup hsched
  refine ⟨⟨_, hok'⟩, fun u a hu => ?_⟩
  obtain ⟨hu, hne⟩ := (hasleep u a).mp hu
  exact (hclosed u a hu hne).congr rfl rfl

theorem NoLost.p (hcur : s.sched.curthread = some t)
    (hrun : s.p t i mem = .ok (s', notes)) : s'.NoLost := by
  rcases p_ok hrun with ⟨hzero, hsleep, -⟩ | ⟨hpos, -, rfl⟩
  · exact h.sleepIn hcur hsleep hzero
  refine ⟨h.ok, fun u a hu => ?_⟩
  have hclosed := h.closed u a hu
  cases a with
  | sem j =>
    have hne : j ≠ i := by
      rintro rfl
      have hzero : s.count j = 0 := hclosed
      rw [hzero] at hpos
      exact absurd hpos (by decide)
    simpa [Closed, update_of_ne hne] using hclosed
  | _ => exact hclosed

theorem NoLost.v (hrun : s.v i mem = .ok (s', notes)) : s'.NoLost := by
  obtain ⟨-, -, hwake⟩ := v_ok hrun
  refine NoLost.wakeup hwake h.ok fun u a hu hne => ?_
  have hclosed := h.closed u a hu
  cases a with
  | sem j =>
    have hji : j ≠ i := fun hji => hne (hji ▸ rfl)
    simpa [Closed, update_of_ne hji] using hclosed
  | _ => exact hclosed

theorem NoLost.lockAcquire (hcur : s.sched.curthread = some t) {cv : Option Nat}
    (hrun : s.lockAcquire t l cv mem = .ok (s', notes)) : s'.NoLost := by
  rcases lockAcquire_ok hrun with ⟨hbusy, hsleep, -⟩ | ⟨-, -, rfl⟩
  · exact h.sleepIn hcur hsleep hbusy
  refine ⟨h.ok, fun u a hu => ?_⟩
  have hclosed := h.closed u a hu
  cases a with
  | lock k =>
    by_cases hkl : k = l
    · simp [Closed, hkl]
    · simpa [Closed, update_of_ne hkl] using hclosed
  | _ => exact hclosed

/-- The wakeup of `lock_release`, also where `cv_wait` calls it. -/
theorem NoLost.release {slept : Nat → Queue Tid}
    (hrun : Synch.wakeup { s with sleptThreads := slept, busy := update s.busy l none }
      (.lock l) mem = .ok s') : s'.NoLost := by
  refine NoLost.wakeup hrun h.ok fun u a hu hne => ?_
  have hclosed := h.closed u a hu
  cases a with
  | lock k =>
    have hkl : k ≠ l := fun hkl => hne (hkl ▸ rfl)
    simpa [Closed, update_of_ne hkl] using hclosed
  | _ => exact hclosed

theorem NoLost.cvSignal (hrun : s.cvSignal c mem = .ok (s', notes)) : s'.NoLost := by
  obtain ⟨u, queue, -, -, hwake⟩ := cvSignal_ok hrun
  exact NoLost.wakeup hwake h.ok fun u a hu _ => (h.closed u a hu).congr rfl rfl

theorem NoLost.cvWait (hcur : s.sched.curthread = some t) {mem : Nat → Bool}
    (hrun : s.cvWait t c l mem = .ok (s', notes)) : s'.NoLost := by
  obtain ⟨queue, s₁, -, hwake, hsleep, -⟩ := cvWait_ok hrun
  obtain ⟨ready, hok⟩ := h.ok
  obtain ⟨sched, hsched, hs₁⟩ := wakeup_ok hwake
  have hcur₁ : s₁.sched.curthread = some t := by
    rw [hs₁, ← hcur]
    exact (hok.asleep_wakeup hsched).2.1
  exact (h.release hwake).sleepIn hcur₁ hsleep trivial

theorem NoLost.resume (hcur : s.sched.curthread = some t)
    (hrun : s.resume t mem = .ok (s', notes)) : s'.NoLost := by
  unfold Synch.resume at hrun
  split at hrun
  · cases hrun
    exact h
  · cases hrun
    exact h
  · exact h.p hcur hrun
  · exact h.lockAcquire hcur hrun
  · cases hrun
    exact ⟨h.ok, fun u a hu => (h.closed u a hu).congr rfl rfl⟩

theorem NoLost.sched {sched : Sched WaitAddr} (hok : ∃ ready, sched.Ok ready)
    (hasleep : ∀ u a, (∀ n, a ≠ .other n) → (sched.Asleep u a ↔ s.sched.Asleep u a)) :
    NoLost { s with sched := sched } := by
  refine ⟨hok, fun u a hu => ?_⟩
  cases a with
  | sem i => exact h.closed u (.sem i) ((hasleep u (.sem i) fun _ => by simp).mp hu)
  | lock l => exact h.closed u (.lock l) ((hasleep u (.lock l) fun _ => by simp).mp hu)
  | _ => trivial

theorem NoLost.exec (he : e.Enabled s) (hrun : s.exec e = .ok (s', notes)) : s'.NoLost := by
  cases e with
  | sched e =>
    obtain ⟨sched, hsched, hrun⟩ := bind_eq_ok.mp hrun
    cases hrun
    obtain ⟨ready, hok⟩ := h.ok
    have hmove := hok.plainMove he.2.1 ⟨he.1, hsched⟩
    exact h.sched hmove.ok hmove.asleep
  | p i mem =>
    obtain ⟨t, hcur, hrun⟩ := onCurrent_ok hrun
    exact h.p hcur hrun
  | v i mem => exact h.v hrun
  | lockAcquire l mem =>
    obtain ⟨t, hcur, hrun⟩ := onCurrent_ok hrun
    exact h.lockAcquire hcur hrun
  | lockRelease l mem =>
    obtain ⟨t, -, hrun⟩ := onCurrent_ok hrun
    exact h.release (lockRelease_ok hrun).2
  | cvWait c l mem =>
    obtain ⟨t, hcur, hrun⟩ := onCurrent_ok hrun
    exact h.cvWait hcur hrun
  | cvSignal c l mem =>
    obtain ⟨t, -, hrun⟩ := onCurrent_ok hrun
    exact h.cvSignal hrun
  | cvBroadcast c l mem =>
    obtain ⟨t, -, hrun⟩ := onCurrent_ok hrun
    exact (broadcastLoop_inv (R := fun _ s => s.NoLost) h (fun _ _ _ _ h₁ => h₁.cvSignal) hrun).1
  | reacquire mem =>
    obtain ⟨t, hcur, hrun⟩ := onCurrent_ok hrun
    unfold Synch.reacquire at hrun
    split at hrun
    · exact h.lockAcquire hcur hrun
    · cases hrun
      exact h
  | dispatch mem =>
    obtain ⟨sched, t, hsched, hcur, hrun⟩ := dispatch_ok hrun
    obtain ⟨ready, hok⟩ := h.ok
    obtain ⟨u, rest, -, hok', -, -, hasleep⟩ := hok.asleep_dispatch he hsched
    exact (h.sched ⟨rest, hok'⟩ fun u a _ => hasleep u a).resume hcur hrun

end

end Synch

namespace History
variable {x y : History} {e : SynchEvent} {es : List SynchEvent} {init : Nat → Word}

/-- The count is the initial one with every `V` added and every completed `P` taken off. -/
def Counted (init : Nat → Word) (x : History) : Prop :=
  ∀ i, (x.state.count i).toInt =
      (init i).toInt + (x.trace.count (.v i) : Int) - (x.trace.count (.p i) : Int) ∧
    0 ≤ (x.state.count i).toInt

variable {notes trace : List Note} {s s' : Synch} {w : Word}

theorem toInt_sub_one (h : 0 < w.toInt) : (w - 1).toInt = w.toInt - 1 := by
  have := w.toInt_lt
  rw [BitVec.toInt_sub, show (1 : Word).toInt = 1 from rfl]
  rw [Int.bmod_def]
  omega

theorem toInt_add_one (h : 0 ≤ w.toInt) (h' : 0 < (w + 1).toInt) : (w + 1).toInt = w.toInt + 1 := by
  have := w.toInt_lt
  rw [BitVec.toInt_add, show (1 : Word).toInt = 1 from rfl] at h' ⊢
  rw [Int.bmod_def] at h' ⊢
  omega

theorem isCv_of_signalled (h : ∀ n ∈ notes, ∃ t c, n = .signalled t c) : ∀ n ∈ notes, n.IsCv := by
  intro n hn
  obtain ⟨t, c, rfl⟩ := h n hn
  trivial

theorem count_cv (h : ∀ n ∈ notes, n.IsCv) (i : Nat) :
    notes.count (.p i) = 0 ∧ notes.count (.v i) = 0 :=
  ⟨List.count_eq_zero.mpr fun hn => h _ hn, List.count_eq_zero.mpr fun hn => h _ hn⟩

theorem Counted.step (h : x.Counted init) (hstep : x.Step e y) : y.Counted init := by
  obtain ⟨he, notes, hrun, htrace⟩ := hstep
  intro i
  obtain ⟨heq, hpos⟩ := h i
  rw [htrace, List.count_append, List.count_append]
  cases Synch.exec_effect he hrun with
  | quiet hcount hbusy hnotes =>
    obtain ⟨hp, hv⟩ := count_cv (isCv_of_signalled hnotes) i
    rw [hcount, hp, hv]
    omega
  | p j hj hbusy hcount hnotes =>
    rw [hcount, hnotes]
    by_cases hij : i = j
    · subst hij
      have hp : [Note.p i].count (.p i) = 1 := by simp
      have hv : [Note.p i].count (.v i) = 0 := by simp
      rw [update_self, toInt_sub_one hj, hp, hv]
      omega
    · have hp : [Note.p j].count (.p i) = 0 := by simp [Ne.symm hij]
      have hv : [Note.p j].count (.v i) = 0 := by simp
      rw [update_of_ne hij, hp, hv]
      exact ⟨heq, hpos⟩
  | v j hj hbusy hcount hnotes =>
    rw [hcount, hnotes]
    by_cases hij : i = j
    · subst hij
      have hp : [Note.v i].count (.p i) = 0 := by simp
      have hv : [Note.v i].count (.v i) = 1 := by simp
      rw [update_self, toInt_add_one hpos hj, hp, hv]
      omega
    · have hp : [Note.v j].count (.p i) = 0 := by simp
      have hv : [Note.v j].count (.v i) = 0 := by simp [Ne.symm hij]
      rw [update_of_ne hij, hp, hv]
      exact ⟨heq, hpos⟩
  | acquired t l cv hfree hcount hbusy hnotes =>
    rw [hcount, hnotes]
    cases cv <;> simp <;> omega
  | released t l hcur hcall hcount hbusy hnotes =>
    rw [hcount]
    rcases hnotes with rfl | ⟨c, rfl⟩ <;> simp <;> omega

/-- A step counts as a `V` if it is a call of `V`, and as a `P` if a thread returns from `P`. -/
theorem notes_step (hstep : x.Step e y) (i : Nat) : ∃ notes, y.trace = x.trace ++ notes ∧
    (.v i ∈ notes ↔ ∃ mem, e = .v i mem) ∧
    (.p i ∈ notes ↔ ∃ t, e.Returns x.state y.state t (.p i)) := by
  obtain ⟨he, notes, hrun, htrace⟩ := hstep
  refine ⟨notes, htrace, ?_⟩
  cases Synch.exec_effect he hrun with
  | quiet _ _ hnotes hacts =>
    have hno := isCv_of_signalled hnotes
    rw [hacts.v, hacts.p]
    exact ⟨iff_of_false (fun hn => hno _ hn) (by simp), iff_of_false (fun hn => hno _ hn) (by simp)⟩
  | p j _ _ _ hnotes hacts | v j _ _ _ hnotes hacts => simp [hacts.v, hacts.p, hnotes, eq_comm]
  | acquired t l cv _ _ _ hnotes hacts =>
    cases cv <;> simp [hacts.v, hacts.p, hnotes]
  | released t l _ _ _ _ hnotes hacts =>
    rcases hnotes with rfl | ⟨c, rfl⟩ <;> simp [hacts.v, hacts.p]

theorem noLost_run (h : Run Step (boot init) es x) : x.state.NoLost := by
  refine h.invariant (fun x => x.state.NoLost) ?_ (.boot init)
  rintro x e y ⟨he, _, hrun, _⟩ hx
  exact hx.exec he hrun

theorem run_cons (he : e.Enabled s)
    (hrun : s.exec e = .ok (s', notes)) (h : Run Step ⟨s', trace ++ notes⟩ es y) :
    Run Step ⟨s, trace⟩ (e :: es) y :=
  .head ⟨he, notes, hrun, rfl⟩ h

theorem restrict_cons {ok : History → SynchEvent → Prop}
    (he : e.Enabled s) (hrun : s.exec e = .ok (s', notes)) (hok : ok ⟨s, trace⟩ e)
    (h : Run (Restrict Step ok) ⟨s', trace ++ notes⟩ es y) :
    Run (Restrict Step ok) ⟨s, trace⟩ (e :: es) y :=
  .head ⟨⟨he, notes, hrun, rfl⟩, hok⟩ h

end History

open History

/-- Whatever the threads do, a semaphore's count is what the `V`s and the completed `P`s make of
its initial value and is not negative, and nobody sleeps on it while it is positive. Every call of
`V` and every return from `P` is counted, and nothing else. -/
theorem semaphore_sound {init : Nat → Word} (hinit : ∀ i, 0 ≤ (init i).toInt)
    {es : List SynchEvent} {x : History} (h : Run Step (boot init) es x) (i : Nat) :
    (x.state.count i).toInt =
        (init i).toInt + (x.trace.count (.v i) : Int) - (x.trace.count (.p i) : Int) ∧
      0 ≤ (x.state.count i).toInt ∧
      (0 < (x.state.count i).toInt → ∀ t, ¬ x.state.sched.Asleep t (.sem i)) ∧
      ∀ e y, x.Step e y → ∃ notes, y.trace = x.trace ++ notes ∧
        (.v i ∈ notes ↔ ∃ mem, e = .v i mem) ∧
        (.p i ∈ notes ↔ ∃ t, e.Returns x.state y.state t (.p i)) := by
  have hcounted : x.Counted init :=
    h.invariant (Counted init) (fun _ _ _ hstep hx => hx.step hstep)
      (fun i => ⟨by simp [boot, Synch.boot], hinit i⟩)
  refine ⟨(hcounted i).1, (hcounted i).2, fun hpos t ht => ?_, fun e y hy => notes_step hy i⟩
  have hzero : x.state.count i = 0 := (noLost_run h).closed t (.sem i) ht
  rw [hzero] at hpos
  exact absurd hpos (by decide)

/-- A semaphore with count 0: the thread sleeps in `P` until the other one calls `V`. -/
theorem semaphore_sound_handover :
    ∃ x, Run Step (boot fun _ => 0)
        [.sched (.fork true fun _ => true), .p 0 true, .dispatch true, .v 0 true,
          .sched (.yield true), .dispatch true] x ∧
      x.trace = [.v 0, .p 0] ∧ (x.state.count 0).toInt = 0 := by
  refine Lts.exists_run_and ⟨_,
    run_cons ⟨Option.some_ne_none _, trivial, fun _ => ⟨0, rfl, rfl⟩⟩ rfl
      (run_cons ⟨0, rfl, rfl⟩ rfl (run_cons ⟨rfl, rfl⟩ rfl (run_cons trivial rfl
      (run_cons ⟨Option.some_ne_none _, trivial, fun _ => ⟨1, rfl, rfl⟩⟩ rfl
      (run_cons ⟨rfl, rfl⟩ rfl .refl))))), rfl⟩ fun x hrun htrace => ?_
  rw [(semaphore_sound (fun _ => le_rfl) hrun 0).1, htrace]
  rfl

/-- The thread has returned from `lock_acquire` and not called `lock_release` since. -/
def holds (l : Nat) (t : Tid) (trace : List Note) : Bool :=
  trace.foldl (fun held n =>
    match n with
    | .acquired u k => if u = t ∧ k = l then true else held
    | .released u k => if u = t ∧ k = l then false else held
    | .p _ | .v _ | .waits .. | .signalled .. | .returned .. => held) false

/-- Locks are released, and the condition variables called, by a thread that holds the lock, and
no thread acquires a lock it holds. -/
def SynchEvent.Proper (x : History) : SynchEvent → Prop
  | .lockRelease l _ | .cvWait _ l _ | .cvSignal _ l _ | .cvBroadcast _ l _ =>
    ∀ t, x.state.sched.curthread = some t → holds l t x.trace = true
  | .lockAcquire l _ => ∀ t, x.state.sched.curthread = some t → holds l t x.trace = false
  | .sched _ | .p .. | .v .. | .reacquire _ | .dispatch _ => True

namespace History
variable {x y : History} {e : SynchEvent} {l k : Nat} {t u : Tid} {trace notes : List Note}

theorem holds_cv (h : ∀ n ∈ notes, n.IsCv) : holds l t (trace ++ notes) = holds l t trace := by
  induction notes generalizing trace with
  | nil => rw [List.append_nil]
  | cons n notes ih =>
    have hn := h n (by simp)
    rw [List.append_cons, ih fun m hm => h m (by simp [hm]), holds, List.foldl_append]
    cases n <;> first | rfl | exact hn.elim

theorem holds_acquired : holds l t (trace ++ [.acquired u k]) =
    if u = t ∧ k = l then true else holds l t trace := by
  rw [holds, List.foldl_append]
  rfl

theorem holds_released : holds l t (trace ++ [.released u k]) =
    if u = t ∧ k = l then false else holds l t trace := by
  rw [holds, List.foldl_append]
  rfl

theorem holds_sem {n : Note} (h : (∃ i, n = .p i) ∨ ∃ i, n = .v i) :
    holds l t (trace ++ [n]) = holds l t trace := by
  rw [holds, List.foldl_append]
  rcases h with ⟨i, rfl⟩ | ⟨i, rfl⟩ <;> rfl

/-- The lock's word names the thread that holds it. -/
def Owned (x : History) : Prop := ∀ l t, x.state.busy l = some t ↔ holds l t x.trace = true

/-- A step makes a thread hold a lock if it returns from `lock_acquire`, and ends that if it calls
`lock_release`. -/
theorem holds_step (hstep : x.Step e y) : holds l t y.trace = true ↔
    (∃ cv, e.Returns x.state y.state t (.acquire l cv)) ∨
      holds l t x.trace = true ∧ ¬ e.Releases x.state t l := by
  obtain ⟨he, notes, hrun, htrace⟩ := hstep
  rw [htrace]
  cases Synch.exec_effect he hrun with
  | quiet _ _ hnotes hacts =>
    rw [holds_cv (isCv_of_signalled hnotes), hacts.acquired, hacts.released]
    simp
  | p i _ _ _ hnotes hacts =>
    rw [hnotes, holds_sem (.inl ⟨i, rfl⟩), hacts.acquired, hacts.released]
    simp
  | v i _ _ _ hnotes hacts =>
    rw [hnotes, holds_sem (.inr ⟨i, rfl⟩), hacts.acquired, hacts.released]
    simp
  | acquired u k cv _ _ _ hnotes hacts =>
    rw [hnotes, List.append_cons, holds_cv (by cases cv <;> simp [Note.IsCv]), holds_acquired,
      hacts.acquired, hacts.released]
    by_cases hut : u = t ∧ k = l <;> simp [hut]
  | released u k _ _ _ _ hnotes hacts =>
    have hend : holds l t (x.trace ++ notes) = holds l t (x.trace ++ [.released u k]) := by
      rcases hnotes with rfl | ⟨c, rfl⟩
      · rfl
      · rw [List.append_cons, holds_released, holds_released, holds_cv (by simp [Note.IsCv])]
    rw [hend, holds_released, hacts.acquired, hacts.released]
    by_cases hut : u = t ∧ k = l <;> simp [hut]

theorem Owned.step (h : x.Owned) (hstep : x.Step e y) (hp : e.Proper x) : y.Owned := by
  intro l t
  rw [holds_step hstep]
  obtain ⟨he, notes, hrun, -⟩ := hstep
  cases Synch.exec_effect he hrun with
  | quiet _ hbusy _ hacts | p i _ hbusy _ _ hacts | v i _ hbusy _ _ hacts =>
    rw [hbusy, h l t, hacts.acquired, hacts.released]
    simp
  | acquired u k cv hfree _ hbusy _ hacts =>
    rw [hbusy, hacts.acquired, hacts.released, ← h l t]
    by_cases hlk : l = k
    · subst hlk
      simp [hfree]
    · simp [update_of_ne hlk, Ne.symm hlk]
  | released u k hcur hcall _ hbusy _ hacts =>
    have hheld : holds k u x.trace = true := by
      rcases hcall with ⟨mem, rfl⟩ | ⟨c, mem, rfl⟩ <;> exact hp u hcur
    rw [hbusy, hacts.acquired, hacts.released, ← h l t]
    by_cases hlk : l = k
    · subst hlk
      simp [(h l u).mpr hheld]
    · simp [update_of_ne hlk, Ne.symm hlk]

end History

/-- With locks used so, at most one thread holds a lock, `lock_do_i_hold` is true for that thread
only, and nobody sleeps on a lock that is free. A thread holds a lock from its return from
`lock_acquire` to its next call of `lock_release`. -/
theorem lock_exclusive {init : Nat → Word} {es : List SynchEvent} {x : History}
    (h : Run (Restrict Step fun x e => e.Proper x) (boot init) es x) (l : Nat) :
    (∀ t u, holds l t x.trace = true → holds l u x.trace = true → t = u) ∧
      (∀ t, x.state.sched.curthread = some t →
        (x.state.lockDoIHold l = true ↔ holds l t x.trace = true)) ∧
      ((∀ t, holds l t x.trace = false) → ∀ t, ¬ x.state.sched.Asleep t (.lock l)) ∧
      ∀ e y t, x.Step e y → (holds l t y.trace = true ↔
        (∃ cv, e.Returns x.state y.state t (.acquire l cv)) ∨
          holds l t x.trace = true ∧ ¬ e.Releases x.state t l) := by
  have howned : x.Owned :=
    h.invariant Owned (fun _ _ _ hstep hx => hx.step hstep.1 hstep.2)
      (fun l t => by simp [boot, Synch.boot, holds])
  refine ⟨fun t u ht hu => ?_, fun t hcur => ?_, fun hfree t ht => ?_, fun e y t => holds_step⟩
  · rw [← howned l] at ht hu
    rw [ht] at hu
    exact Option.some.inj hu
  · rw [← howned l t, Synch.lockDoIHold, hcur, decide_eq_true_iff]
  have hbusy : x.state.busy l ≠ none :=
    (noLost_run (h.mono fun _ _ _ hstep => hstep.1)).closed t (.lock l) ht
  obtain ⟨u, hu⟩ := Option.ne_none_iff_exists'.mp hbusy
  rw [howned l u, hfree u] at hu
  cases hu

/-- The second thread sleeps on the lock that the first one holds, and gets it when it is
released. -/
theorem lock_exclusive_contended :
    ∃ x y, Run (Restrict Step fun x e => e.Proper x) (boot fun _ => 0)
        [.sched (.fork true fun _ => true), .lockAcquire 0 true, .sched (.yield true),
          .dispatch true, .lockAcquire 0 true, .dispatch true] x ∧
      x.state.sched.Asleep 1 (.lock 0) ∧ holds 0 0 x.trace = true ∧
      (∀ t, holds 0 t x.trace = true → t = 0) ∧
      Run (Restrict Step fun x e => e.Proper x) x
        [.lockRelease 0 true, .sched (.yield true), .dispatch true] y ∧
      ∀ t, holds 0 t y.trace = true ↔ t = 1 := by
  obtain ⟨x, y, hrun, hasleep, hholds, hrun', hend⟩ :
      ∃ x y, Run (Restrict Step fun x e => e.Proper x) (boot fun _ => 0)
        [.sched (.fork true fun _ => true), .lockAcquire 0 true, .sched (.yield true),
          .dispatch true, .lockAcquire 0 true, .dispatch true] x ∧
      x.state.sched.Asleep 1 (.lock 0) ∧ holds 0 0 x.trace = true ∧
      Run (Restrict Step fun x e => e.Proper x) x
        [.lockRelease 0 true, .sched (.yield true), .dispatch true] y ∧
      holds 0 1 y.trace = true := by
    refine ⟨_, _, restrict_cons ⟨Option.some_ne_none _, trivial, fun _ => ⟨0, rfl, rfl⟩⟩ rfl trivial
      (restrict_cons ⟨0, rfl, rfl⟩ rfl ?_
      (restrict_cons ⟨Option.some_ne_none _, trivial, fun _ => ⟨0, rfl, rfl⟩⟩ rfl trivial
      (restrict_cons ⟨rfl, rfl⟩ rfl trivial (restrict_cons ⟨1, rfl, rfl⟩ rfl ?_
      (restrict_cons ⟨rfl, rfl⟩ rfl trivial .refl))))), ⟨by decide, rfl⟩, rfl,
      restrict_cons ⟨0, rfl, rfl⟩ rfl ?_
      (restrict_cons ⟨Option.some_ne_none _, trivial, fun _ => ⟨0, rfl, rfl⟩⟩ rfl trivial
      (restrict_cons ⟨rfl, rfl⟩ rfl trivial .refl)), rfl⟩ <;>
    · rintro t ⟨rfl⟩
      rfl
  refine ⟨x, y, hrun, hasleep, hholds, fun t ht => (lock_exclusive hrun 0).1 t 0 ht hholds, hrun',
    fun t => ⟨fun ht => (lock_exclusive (hrun.append hrun') 0).1 t 1 ht hend, ?_⟩⟩
  rintro rfl
  exact hend

end OS161
