import OS161.Lib.Run
import OS161.Thread.Hashtable

/-! Threads and the process table. The steps are what runs with interrupts off. -/
namespace OS161

/-- The field `parent`: -2, -1 or a tid. -/
inductive Parent where
  | root
  | orphan
  | of (tid : Nat)
  deriving DecidableEq

inductive ChildStatus where
  | free | joined | dead
  deriving DecidableEq

structure ChildInfo where
  childTid : Nat
  ret : Word
  status : ChildStatus
  deriving DecidableEq

/-- What a thread was forked to run: `md_forkentry`, `cmd_progthread` or another function of the
kernel. -/
inductive Func where
  | forkentry | prog | kernel
  deriving DecidableEq

/-- Where a thread goes on after `thread_sleep`: in `common_prog`, or in `sys_wait` with the index
of the child it asked for. -/
inductive Cont where
  | prog
  | wait (index : Nat)
  deriving DecidableEq

inductive Status where
  /-- At a point where it may make any call. -/
  | running
  /-- In `common_prog`, where `thread_fork` has just returned. -/
  | launched (c : Nat)
  | asleep (addr : Option Nat) (k : Cont)
  | woken (k : Cont)
  /-- In `thread_exit`, where it may have to wait for `tlb_lock`. -/
  | leaving
  | zombie
  | freed
  deriving DecidableEq

/-- What `thread_wakeup` does to a thread in `sleepers`. -/
def Status.wakeup (addr : Nat) : Status → Status
  | .asleep (some a) k => if a = addr then .woken k else .asleep (some a) k
  | st => st

/-- What `exorcise` does to a thread in `zombies`. -/
def Status.exorcise : Status → Status
  | .zombie => .freed
  | st => st

def Status.Gone (st : Status) : Prop := st = .leaving ∨ st = .zombie ∨ st = .freed

instance (st : Status) : Decidable st.Gone := inferInstanceAs (Decidable (_ ∨ _ ∨ _))

/-- The fields of `struct thread` in question, and whether the thread has entered user mode. -/
structure Thread where
  tid : Nat
  parent : Parent
  childList : List ChildInfo
  func : Func
  user : Bool
  status : Status
  deriving DecidableEq

/-- The thread has exited or returned. -/
def Thread.Gone (t : Thread) : Prop := t.status.Gone

instance (t : Thread) : Decidable t.Gone := inferInstanceAs (Decidable t.status.Gone)

structure Threads where
  table : Hashtable Nat
  thread : Nat → Thread
  next : Nat

/-- The points at which `thread_fork` may fail: before `ht_add_element`, in it, and after. -/
inductive ForkMem where
  | early
  | noEntry
  | noKey (found : Nat)
  | noItem
  | noList
  | late
  | enough
  deriving DecidableEq

def ForkMem.add : ForkMem → AddMem Nat
  | .noEntry => .noEntry
  | .noKey found => .noKey found
  | _ => .enough

/-- The failures that leave a slot of the process table behind. -/
def ForkMem.takesSlot : ForkMem → Bool
  | .noKey _ => true
  | .noItem => true
  | .noList => true
  | .late => true
  | _ => false

def ptbSize : Nat := 200

namespace Threads
variable (s : Threads) (p : Nat)

def set (t : Thread) : Threads := { s with thread := Function.update s.thread p t }

def setStatus (st : Status) : Threads := s.set p { s.thread p with status := st }

def mapStatus (g : Nat → Status → Status) : Threads :=
  { s with thread := fun q => { s.thread q with status := g q (s.thread q).status } }

def setSlot (i : Nat) (x : Slot Nat) : Threads := { s with table := s.table.set i x }

def addChild (item : ChildInfo) : Threads :=
  s.set p { s.thread p with childList := (s.thread p).childList ++ [item] }

/-- `thread_fork`, as one step also where the menu calls it with interrupts on; `ret` is what
`kmalloc` found in the new `child_info`. -/
def threadFork (key : List Byte) (func : Func) (ret : Word) (mem : ForkMem) :
    Option Nat × Threads :=
  if mem = .early then (none, s)
  else
    match s.table.htAddElement key s.next mem.add with
    | (none, table) => (none, { s with table := table })
    | (some tid, table) =>
      let child : Thread :=
        ⟨tid, .of (s.thread p).tid, [], func, func == .forkentry, .running⟩
      let s' : Threads :=
        { table := table, thread := Function.update s.thread s.next child, next := s.next + 1 }
      match mem with
      | .noItem => (none, s'.setStatus s.next .freed)
      | .noList => (none, s'.setStatus s.next .freed)
      | .late => (none, (s'.addChild p ⟨tid, ret, .free⟩).setStatus s.next .freed)
      | _ => (some tid, s'.addChild p ⟨tid, ret, .free⟩)

def threadWakeup (addr : Nat) : Threads := s.mapStatus fun _ => Status.wakeup addr

/-- A pointer that is about to be followed. -/
def deref (x : Nat) : Except Crash Unit :=
  if x < s.next ∧ (s.thread x).status ≠ .freed then .ok () else .error .useAfterFree

/-- The body of the first loop of `sys_exit`. -/
def disownOne (item : ChildInfo) : Except Crash Threads :=
  if item.status = .dead then .ok (s.setSlot item.childTid .deleted)
  else
    match s.table.htRetrieveElementByIndex item.childTid with
    | none => .ok s
    | some x => do
      s.deref x
      return s.set x { s.thread x with parent := .orphan }

/-- The body of the second loop of `sys_exit`, which stops at the first match. -/
def markDead (tid : Nat) (ret : Word) : List ChildInfo → List ChildInfo
  | [] => []
  | item :: l =>
    if item.childTid = tid then { item with status := .dead, ret := ret } :: l
    else item :: markDead tid ret l

/-- The second loop of `sys_exit`, in the list of the parent. -/
def report (ret : Word) : Except Crash Threads :=
  match (s.thread p).parent with
  | .orphan => .ok s
  | .root => .error .outOfBounds
  | .of tid =>
    match s.table.htRetrieveElementByIndex tid with
    | none => .error .nullDeref
    | some q => do
      s.deref q
      return s.set q { s.thread q with
        childList := markDead (s.thread p).tid ret (s.thread q).childList }

def vacate : Threads :=
  s.setSlot (s.thread p).tid (if (s.thread p).parent = .orphan then .deleted else .reserved)

/-- `sys_exit`, up to the call of `thread_exit`. -/
def sysExit (ret : Word) : Except Crash Threads := do
  let s ← (s.thread p).childList.foldlM disownOne s
  let s ← s.report p ret
  return ((s.vacate p).threadWakeup p).setStatus p .leaving

/-- The search of `sys_wait` for a child. -/
def findChild (tid : Nat) : Option Nat :=
  (s.thread p).childList.findIdx? (·.childTid == tid)

/-- `sys_wait` for a child that is not dead. -/
def join (tid index : Nat) : Threads :=
  s.set p { s.thread p with
    childList := (s.thread p).childList.modify index fun item => { item with status := .joined }
    status := .asleep (s.table.htRetrieveElementByIndex tid) (.wait index) }

/-- The end of `sys_wait`. -/
def reap (tid index : Nat) : Threads :=
  (s.setSlot tid .deleted).set p { s.thread p with
    childList := (s.thread p).childList.eraseIdx index, status := .running }

def exorcise : Threads := s.mapStatus fun _ => Status.exorcise

/-- `thread_bootstrap`: the table, and the thread that is to run the menu. -/
def bootKey : List Byte := [60, 98, 111, 111, 116, 47, 109, 101, 110, 117, 62]

def bootThread (tid : Nat) : Thread := ⟨tid, .root, [], .kernel, false, .running⟩

def threadBootstrap (found : Option Nat) : Threads :=
  let table := (Hashtable.htCreate ptbSize found).set 0 .reserved
  match table.htAddElement bootKey 0 .enough with
  | (some tid, table) => ⟨table, fun _ => bootThread tid, 1⟩
  | (none, table) => ⟨table, fun _ => bootThread 0, 1⟩

end Threads

/-- Which thread forks which kind: a user process by `sys_fork`, the menu by `common_prog`, and
functions of the kernel each other. -/
def MayFork (s : Threads) (p : Nat) : Func → Prop
  | .forkentry => (s.thread p).user = true
  | .prog => p = 0
  | .kernel => (s.thread p).func = .kernel

inductive ThreadEvent where
  | fork (p c tid : Nat)
  | forkFailed (p : Nat) (mem : ForkMem)
  | enterUser (p : Nat)
  | progSleep (p c : Nat)
  | progWake (p : Nat)
  | waitFailed (p tid : Nat)
  | waitSleep (p tid : Nat)
  | waited (p tid : Nat) (ret : Word) (copied : Bool)
  | exit (p : Nat) (ret : Word)
  | finish (p : Nat)
  | zombie (p : Nat)
  | exorcise

inductive ThreadStep : Threads → ThreadEvent → Threads → Prop where
  | fork {s s' : Threads} {p tid : Nat} {key : List Byte} {func : Func} {ret : Word}
      (hr : (s.thread p).status = .running) (hp : p < s.next) (hf : MayFork s p func)
      (h : s.threadFork p key func ret .enough = (some tid, s')) :
    ThreadStep s (.fork p s.next tid)
      (if func = .prog then s'.setStatus p (.launched s.next) else s')
  | forkFailed {s s' : Threads} {p : Nat} {key : List Byte} {func : Func} {ret : Word}
      {mem : ForkMem}
      (hr : (s.thread p).status = .running) (hp : p < s.next) (hf : MayFork s p func)
      (h : s.threadFork p key func ret mem = (none, s')) : ThreadStep s (.forkFailed p mem) s'
  /-- `runprogram` goes to user mode. -/
  | enterUser {s : Threads} {p : Nat} (hr : (s.thread p).status = .running) (hp : p < s.next)
      (hf : (s.thread p).func = .prog) :
    ThreadStep s (.enterUser p) (s.set p { s.thread p with user := true })
  | progSleep {s : Threads} {p c : Nat} (hl : (s.thread p).status = .launched c) (hp : p < s.next) :
    ThreadStep s (.progSleep p c) (s.setStatus p (.asleep (some c) .prog))
  | progWake {s : Threads} {p : Nat} (hw : (s.thread p).status = .woken .prog) (hp : p < s.next) :
    ThreadStep s (.progWake p) (s.setStatus p .running)
  | waitFailed {s : Threads} {p tid : Nat} (hr : (s.thread p).status = .running) (hp : p < s.next)
      (hu : (s.thread p).user = true) (hc : s.findChild p tid = none) :
    ThreadStep s (.waitFailed p tid) s
  | waitSleep {s : Threads} {p tid index : Nat} {item : ChildInfo}
      (hr : (s.thread p).status = .running) (hp : p < s.next) (hu : (s.thread p).user = true)
      (hc : s.findChild p tid = some index) (hi : (s.thread p).childList[index]? = some item)
      (hd : item.status ≠ .dead) : ThreadStep s (.waitSleep p tid) (s.join p tid index)
  /-- `sys_wait` for a child that is dead already; `copied` says whether `copyout` succeeds. -/
  | waitNow {s : Threads} {p tid index : Nat} {item : ChildInfo} {copied : Bool}
      (hr : (s.thread p).status = .running) (hp : p < s.next) (hu : (s.thread p).user = true)
      (hc : s.findChild p tid = some index) (hi : (s.thread p).childList[index]? = some item)
      (hd : item.status = .dead) :
    ThreadStep s (.waited p tid item.ret copied) (s.reap p item.childTid index)
  /-- `sys_wait` goes on after its sleep. -/
  | waitEnd {s : Threads} {p index : Nat} {item : ChildInfo} {copied : Bool}
      (hw : (s.thread p).status = .woken (.wait index)) (hp : p < s.next)
      (hi : (s.thread p).childList[index]? = some item) :
    ThreadStep s (.waited p item.childTid item.ret copied) (s.reap p item.childTid index)
  | exit {s s' : Threads} {p : Nat} {ret : Word} (hr : (s.thread p).status = .running)
      (hp : p < s.next) (hu : (s.thread p).user = true) (h : s.sysExit p ret = .ok s') :
    ThreadStep s (.exit p ret) s'
  /-- The function of a thread returns, or calls `thread_exit`; the menu's never does. -/
  | finish {s : Threads} {p : Nat} (hr : (s.thread p).status = .running) (hp : p < s.next)
      (hu : (s.thread p).user = false) (hm : p ≠ 0) :
    ThreadStep s (.finish p) (s.setStatus p .leaving)
  | zombie {s : Threads} {p : Nat} (hl : (s.thread p).status = .leaving) (hp : p < s.next) :
    ThreadStep s (.zombie p) (s.setStatus p .zombie)
  | exorcise {s : Threads} : ThreadStep s .exorcise s.exorcise

end OS161
