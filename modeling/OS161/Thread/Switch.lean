import Mathlib.Data.Finset.Card
import Mathlib.Data.List.Perm.Lattice
import OS161.Kern.Containers
import OS161.Lib.Run

/-! `thread.c` and `scheduler.c`. While the scheduler looks for a thread `curthread` is `NULL`. -/
namespace OS161

open Function (update update_of_ne)
open Option (toList_some toList_none some_ne_none)
open List (count_nil mem_append length_nil length_cons count_append length_append mem_singleton)

abbrev Tid := Nat

/-- `threadstate_t`. -/
inductive ThreadState where
  | run | ready | sleep | zomb
  deriving DecidableEq, Repr

/-- The scheduler's data, with sleep addresses in `A`. -/
structure Sched (A : Type) where
  curthread : Option Tid
  runqueue : Queue Tid
  sleepers : Arr Tid
  zombies : Arr Tid
  numthreads : Nat
  sleepaddr : Tid → Option A
  /-- Where the thread goes on when it is switched to: at `mi_threadstart`, or inside the call of
  `mi_switch` with this argument. -/
  pcb : Tid → Option ThreadState
  created : Nat
  destroyed : List Tid

namespace Sched
variable {A : Type}

/-- After `thread_bootstrap` and `scheduler_bootstrap`. -/
def boot : Sched A where
  curthread := some 0
  runqueue := qCreate 32
  sleepers := arrayCreate
  zombies := arrayCreate
  numthreads := 1
  sleepaddr _ := none
  pcb _ := none
  created := 1
  destroyed := []

variable (s : Sched A)

def makeRunnable (t : Tid) (mem : Bool) : Except Crash (Option (Sched A)) :=
  Option.map (fun q => { s with runqueue := q }) <$> s.runqueue.qAddtail t mem

/-- The part of `mi_switch` that puts the thread on the list it is to go on. -/
def stash (cur : Tid) (nextstate : ThreadState) (mem : Bool) : Except Crash (Sched A) := do
  let result ← match nextstate with
    | .ready => s.makeRunnable cur mem
    | .sleep => Option.map (fun a => { s with sleepers := a }) <$> s.sleepers.arrayAdd cur mem
    | .zomb => Option.map (fun a => { s with zombies := a }) <$> s.zombies.arrayAdd cur mem
    | .run => .error .assertion
  match result with
  | some s => .ok s
  | none => .error .assertion

/-- `mi_switch` up to the call of `scheduler`. -/
def miSwitch (nextstate : ThreadState) (mem : Bool) : Except Crash (Sched A) :=
  match s.curthread with
  | none => .ok s
  | some cur => do
    let s ← stash { s with curthread := none } cur nextstate mem
    .ok { s with pcb := update s.pcb cur (some nextstate) }

/-- The loop of `exorcise`, with the assertions of `thread_destroy`. -/
def destroyAll : List Tid → Sched A → Except Crash (Sched A)
  | [], s => .ok s
  | z :: zs, s =>
    if s.curthread = some z then .error .assertion
    else destroyAll zs { s with destroyed := s.destroyed ++ [z] }

def exorcise : Except Crash (Sched A) := do
  let s ← destroyAll s.zombies.items s
  match ← s.zombies.arraySetsize 0 false with
  | some zombies => .ok { s with zombies := zombies }
  | none => .error .assertion

/-- The return of `scheduler` once a thread is ready, and the rest of `mi_switch` in the thread
switched to. A new thread starts in `mi_threadstart` and skips that rest. -/
def dispatch : Except Crash (Sched A) := do
  let (next, runqueue) ← s.runqueue.qRemhead
  let s := { s with runqueue := runqueue, curthread := some next }
  match s.pcb next with
  | none => .ok s
  | some state => do
    let s ← s.exorcise
    match state with
    | .sleep => .ok { s with sleepaddr := update s.sleepaddr next none }
    | .zomb => .error .panic
    | _ => .ok s

def threadYield (mem : Bool) : Except Crash (Sched A) := s.miSwitch .ready mem

def threadSleep (addr : A) (mem : Bool) : Except Crash (Sched A) :=
  match s.curthread with
  | none => .error .nullDeref
  | some t => miSwitch { s with sleepaddr := update s.sleepaddr t (some addr) } .sleep mem

/-- `thread_exit` from where the address space and the directory are given back. -/
def threadExit (mem : Bool) : Except Crash (Sched A) :=
  if s.curthread = none then .error .nullDeref
  else if s.numthreads = 0 then .error .assertion
  else miSwitch { s with numthreads := s.numthreads - 1 } .zomb mem

/-- The loop of `thread_wakeup` from index `i` on; it looks at the same index again after it has
removed a thread. -/
def wakeupFrom [DecidableEq A] (addr : A) (mem : Bool) :
    Nat → Nat → Sched A → Except Crash (Sched A)
  | 0, _, s => .ok s
  | n + 1, i, s =>
    match s.sleepers.items[i]? with
    | none => .ok s
    | some t =>
      if s.sleepaddr t = some addr then do
        let sleepers ← s.sleepers.arrayRemove i
        match ← makeRunnable { s with sleepers := sleepers } t mem with
        | some s => wakeupFrom addr mem n i s
        | none => .error .assertion
      else wakeupFrom addr mem n (i + 1) s

def threadWakeup [DecidableEq A] (addr : A) (mem : Bool) : Except Crash (Sched A) :=
  wakeupFrom addr mem s.sleepers.items.length 0 s

/-- `hardclock`, with `lbolt` given once a second. -/
def hardclock [DecidableEq A] (lbolt : Option A) (mem : Bool) : Except Crash (Sched A) := do
  let s ← match lbolt with
    | some addr => s.threadWakeup addr mem
    | none => .ok s
  s.threadYield mem

/-- `thread_fork`. `setup` tells whether the child was set up, up to its pcb, and `mem` which of
the allocations after that succeed. A child that is not handed over is freed. -/
def threadFork (setup : Bool) (mem : Nat → Bool) : Except Crash (Option Tid × Sched A) :=
  if s.curthread = none then .error .nullDeref
  else if setup then do
    match ← s.sleepers.arrayPreallocate (s.numthreads + 1) (mem 0) with
    | none => .ok (none, s)
    | some sleepers => do
      let s := { s with sleepers := sleepers }
      match ← s.zombies.arrayPreallocate (s.numthreads + 1) (mem 1) with
      | none => .ok (none, s)
      | some zombies => do
        let s := { s with zombies := zombies }
        match ← s.runqueue.qPreallocate (s.numthreads + 1) (mem 2) with
        | none => .ok (none, s)
        | some runqueue => do
          let s := { s with runqueue := runqueue }
          match ← s.makeRunnable s.created (mem 3) with
          | none => .ok (none, s)
          | some s =>
            .ok (some s.created,
              { s with
                numthreads := s.numthreads + 1
                created := s.created + 1
                pcb := update s.pcb s.created none
                sleepaddr := update s.sleepaddr s.created none })
  else .ok (none, s)

/-- The threads in the four places, with the run queue as a list. -/
def placed (ready : List Tid) : List Tid :=
  s.curthread.toList ++ ready ++ s.sleepers.items ++ s.zombies.items

/-- The threads created and not destroyed. -/
def existing : Finset Tid := (Finset.range s.created).filter (· ∉ s.destroyed)

/-- What every call preserves, for the run queue as a list. -/
structure Ok (s : Sched A) (ready : List Tid) : Prop where
  queue : s.runqueue.Holds ready
  sleepers_fit : s.sleepers.items.length ≤ s.sleepers.max
  zombies_fit : s.zombies.items.length ≤ s.zombies.max
  places : (s.placed ready ++ s.destroyed).Perm (List.range s.created)
  count : s.numthreads = (s.curthread.toList ++ ready ++ s.sleepers.items).length
  returns : ∀ t, t ∈ ready ++ s.sleepers.items → s.pcb t ≠ some .zomb
  addressed : ∀ t, t ∈ s.sleepers.items → s.sleepaddr t ≠ none

/-- The running thread goes to the end of the run queue, -/
def yielded (t : Tid) (q : Queue Tid) : Sched A :=
  { s with curthread := none, runqueue := q, pcb := update s.pcb t (some .ready) }

/-- to sleep, -/
def slept (t : Tid) (addr : A) (k : Nat) : Sched A :=
  { s with
    curthread := none
    sleepers := ⟨s.sleepers.items ++ [t], k⟩
    sleepaddr := update s.sleepaddr t (some addr)
    pcb := update s.pcb t (some .sleep) }

/-- or to the zombies. -/
def exited (t : Tid) (k : Nat) : Sched A :=
  { s with
    curthread := none
    zombies := ⟨s.zombies.items ++ [t], k⟩
    numthreads := s.numthreads - 1
    pcb := update s.pcb t (some .zomb) }

variable {s} {s' : Sched A} {ready : List Tid} {t : Tid} {addr : A} {mem : Bool} {q : Queue Tid}

/-- What a call that may fail has returned. -/
theorem returned {α β : Type} {f : α → β} {P : α → Prop} {a b : Prop} {r : Except Crash β} {y : β}
    {c : Crash} (h : (∃ x, r = .ok (f x) ∧ P x) ∨ a ∧ b ∧ r = .error c) (hr : r = .ok y) :
    ∃ x, y = f x ∧ P x := by
  rcases h with ⟨x, hx, hP⟩ | ⟨-, -, he⟩
  · cases hr.symm.trans hx
    exact ⟨x, rfl, hP⟩
  · cases hr.symm.trans he

/-- A call keeps every thread in its place and destroys threads only while none is running, or fails
an assertion, for which there is this reason. -/
def Keeps (s : Sched A) (why : Prop) (r : Except Crash (Sched A)) : Prop :=
  (∃ s' ready, r = .ok s' ∧ s'.Ok ready ∧ (s'.destroyed = s.destroyed ∨ s.curthread = none)) ∨
    why ∧ r = .error .assertion

theorem Ok.boot : (boot : Sched A).Ok [] :=
  ⟨Queue.holds_qCreate (by decide), Nat.le_refl 0, Nat.le_refl 0, .refl _, rfl,
    fun _ ht => absurd ht List.not_mem_nil, fun _ ht => absurd ht List.not_mem_nil⟩

section
variable (h : s.Ok ready)
include h

theorem Ok.nodup : (s.placed ready ++ s.destroyed).Nodup :=
  h.places.nodup_iff.mpr List.nodup_range

theorem Ok.mem_iff : t ∈ s.placed ready ++ s.destroyed ↔ t < s.created := by
  rw [h.places.mem_iff, List.mem_range]

omit h in
theorem mem_iff_of_disjoint {a b : List Tid} (h : a.Disjoint b) : t ∈ a ↔ t ∈ a ++ b ∧ t ∉ b := by
  rw [mem_append]
  constructor
  · intro ht
    exact ⟨.inl ht, h ht⟩
  · rintro ⟨ht | ht, hnot⟩
    · exact ht
    · exact absurd ht hnot

theorem Ok.mem_placed : t ∈ s.placed ready ↔ t ∈ s.existing := by
  rw [existing, Finset.mem_filter, Finset.mem_range, ← h.mem_iff]
  exact mem_iff_of_disjoint (List.disjoint_of_nodup_append h.nodup)

theorem Ok.exists_ready (hne : s.runqueue.qEmpty = false) : ∃ t rest, ready = t :: rest := by
  refine List.exists_cons_of_ne_nil fun hnil => ?_
  rw [h.queue.empty_iff.mpr hnil] at hne
  cases hne

/-- The running thread is in no other place. -/
theorem Ok.running_notMem (hcur : s.curthread = some t) :
    t ∉ ready ∧ t ∉ s.sleepers.items ∧ t ∉ s.zombies.items ∧ t ∉ s.destroyed := by
  have hnd := h.nodup
  simp only [placed, hcur, toList_some, List.cons_append, List.nil_append,
    List.nodup_cons, mem_append, not_or] at hnd
  tauto

/-- A thread that switches away, or is new, is no zombie either. -/
theorem Ok.returns_update {st : Option ThreadState} {u : Tid}
    (hst : st ≠ some .zomb) (hu : u = t ∨ u ∈ ready ++ s.sleepers.items) :
    update s.pcb t st u ≠ some .zomb := by
  by_cases hut : u = t
  · rw [hut, Function.update_self]
    exact hst
  · rw [update_of_ne hut]
    exact h.returns u (hu.resolve_left hut)

/-- `numthreads` leaves out the zombies. -/
theorem Ok.numthreads_eq : s.numthreads = (s.existing.filter (· ∉ s.zombies.items)).card := by
  have hnd : (s.placed ready).Nodup := (List.nodup_append.mp h.nodup).1
  obtain ⟨hlive, -, hdisj⟩ := List.nodup_append'.mp hnd
  rw [h.count, ← List.toFinset_card_of_nodup hlive]
  congr 1
  ext t
  rw [List.mem_toFinset, Finset.mem_filter, ← h.mem_placed]
  exact mem_iff_of_disjoint hdisj

end

section
variable (h : s.Ok ready)
include h

section
variable (hcur : s.curthread = some t)
include hcur

theorem Ok.threadYield (mem : Bool) :
    (∃ q, s.threadYield mem = .ok (s.yielded t q) ∧ q.Holds (ready ++ [t]) ∧
      (ready.length + 1 < s.runqueue.size → q.size = s.runqueue.size)) ∨
      mem = false ∧ ready.length + 1 = s.runqueue.size ∧ s.threadYield mem = .error .assertion := by
  simp only [Sched.threadYield, miSwitch, hcur, stash, Sched.makeRunnable]
  rcases h.queue.qAddtail t mem with ⟨q, hrun, hq, -, hsize⟩ | ⟨hmem, hfull, hrun⟩
  · exact .inl ⟨q, by rw [hrun]; rfl, hq, hsize⟩
  · exact .inr ⟨hmem, hfull, by rw [hrun]; rfl⟩

theorem Ok.yielded (hq : q.Holds (ready ++ [t])) : (s.yielded t q).Ok (ready ++ [t]) := by
  refine ⟨hq, h.sleepers_fit, h.zombies_fit, ?_, ?_, ?_, h.addressed⟩
  · refine .trans ?_ h.places
    simp only [placed, Sched.yielded, hcur, List.perm_iff_count, count_append, toList_some,
      toList_none, count_nil]
    omega
  · simp only [Sched.yielded, h.count, hcur, toList_some, toList_none, length_append, length_nil]
    omega
  intro u hu
  refine h.returns_update (by simp) ?_
  simp only [Sched.yielded, mem_append, mem_singleton] at hu ⊢
  tauto

omit hcur in
theorem Ok.yield (mem : Bool) : s.Keeps (mem = false) (s.threadYield mem) := by
  cases hcur : s.curthread with
  | none => exact .inl ⟨s, ready, by rw [Sched.threadYield, miSwitch, hcur], h, .inl rfl⟩
  | some t =>
    rcases h.threadYield hcur mem with ⟨q, hrun, hq, -⟩ | ⟨hmem, -, hrun⟩
    · exact .inl ⟨_, _, hrun, h.yielded hcur hq, .inl rfl⟩
    · exact .inr ⟨hmem, hrun⟩

theorem Ok.threadSleep (addr : A) (mem : Bool) :
    (∃ k, s.threadSleep addr mem = .ok (s.slept t addr k) ∧ s.sleepers.items.length + 1 ≤ k ∧
      (s.sleepers.items.length < s.sleepers.max → k = s.sleepers.max)) ∨
      mem = false ∧ s.sleepers.items.length = s.sleepers.max ∧
        s.threadSleep addr mem = .error .assertion := by
  simp only [Sched.threadSleep, miSwitch, hcur, stash]
  rcases Arr.arrayAdd_cases h.sleepers_fit t mem with ⟨k, hrun, hk⟩ | ⟨hmem, hfull, hrun⟩
  · exact .inl ⟨k, by rw [hrun]; rfl, hk⟩
  · exact .inr ⟨hmem, hfull, by rw [hrun]; rfl⟩

theorem Ok.slept {k : Nat} (hk : s.sleepers.items.length + 1 ≤ k) :
    (s.slept t addr k).Ok ready := by
  refine ⟨h.queue, by simpa [Sched.slept] using hk, h.zombies_fit, ?_, ?_, ?_, ?_⟩
  · refine .trans ?_ h.places
    simp only [placed, Sched.slept, hcur, List.perm_iff_count, count_append, toList_some,
      toList_none, count_nil]
    omega
  · simp only [Sched.slept, h.count, hcur, toList_some, toList_none, length_append,
      length_nil, List.length_singleton]
    omega
  · intro u hu
    refine h.returns_update (by simp) ?_
    simp only [Sched.slept, mem_append, mem_singleton] at hu ⊢
    tauto
  intro u hu
  by_cases hut : u = t
  · simp [Sched.slept, hut]
  have hmem : u ∈ s.sleepers.items := by
    simpa [Sched.slept, hut] using hu
  simpa [Sched.slept, update_of_ne hut] using h.addressed u hmem

theorem Ok.threadExit (mem : Bool) :
    (∃ k, s.threadExit mem = .ok (s.exited t k) ∧ s.zombies.items.length + 1 ≤ k ∧
      (s.zombies.items.length < s.zombies.max → k = s.zombies.max)) ∨
      mem = false ∧ s.zombies.items.length = s.zombies.max ∧
        s.threadExit mem = .error .assertion := by
  have hpos : s.numthreads ≠ 0 := by
    rw [h.count, hcur]
    simp
  simp only [Sched.threadExit, miSwitch, hcur, stash, if_neg hpos, reduceCtorEq, if_false]
  rcases Arr.arrayAdd_cases h.zombies_fit t mem with ⟨k, hrun, hk⟩ | ⟨hmem, hfull, hrun⟩
  · exact .inl ⟨k, by rw [hrun]; rfl, hk⟩
  · exact .inr ⟨hmem, hfull, by rw [hrun]; rfl⟩

theorem Ok.exited {k : Nat} (hk : s.zombies.items.length + 1 ≤ k) : (s.exited t k).Ok ready := by
  obtain ⟨hready, hsleep, -⟩ := h.running_notMem hcur
  refine ⟨h.queue, h.sleepers_fit, by simpa [Sched.exited] using hk, ?_, ?_, ?_, h.addressed⟩
  · refine .trans ?_ h.places
    simp only [placed, Sched.exited, hcur, List.perm_iff_count, count_append, toList_some,
      toList_none, count_nil]
    omega
  · simp only [Sched.exited, h.count, hcur, toList_some, toList_none, length_append,
      length_nil, List.length_singleton]
    omega
  intro u hu
  have hut : u ≠ t := by
    rintro rfl
    simp_all [Sched.exited]
  simpa [Sched.exited, update_of_ne hut] using h.returns u hu

end

end

section wakeup
variable [DecidableEq A]

/-- The test in the loop of `thread_wakeup`. -/
def onAddr (sleepaddr : Tid → Option A) (addr : A) (t : Tid) : Bool := sleepaddr t = some addr

/-- The sleepers on the address are ready. -/
def woken (s : Sched A) (addr : A) (q : Queue Tid) : Sched A :=
  { s with
    runqueue := q
    sleepers := ⟨s.sleepers.items.filter (! onAddr s.sleepaddr addr ·), s.sleepers.max⟩ }

theorem wakeupFrom_cases (before : List Tid) {rest : List Tid} (hq : s.runqueue.Holds ready)
    (hitems : s.sleepers.items = before ++ rest)
    (hfit : s.sleepers.items.length ≤ s.sleepers.max) (addr : A) (mem : Bool) :
    (∃ q, wakeupFrom addr mem rest.length before.length s = .ok { s with
        runqueue := q
        sleepers := ⟨before ++ rest.filter (! onAddr s.sleepaddr addr ·), s.sleepers.max⟩ } ∧
      q.Holds (ready ++ rest.filter (onAddr s.sleepaddr addr)) ∧
      (ready.length + (rest.filter (onAddr s.sleepaddr addr)).length < s.runqueue.size →
        q.size = s.runqueue.size)) ∨
      mem = false ∧
        s.runqueue.size ≤ ready.length + (rest.filter (onAddr s.sleepaddr addr)).length ∧
        wakeupFrom addr mem rest.length before.length s = .error .assertion := by
  induction rest generalizing s before ready with
  | nil =>
    refine .inl ⟨s.runqueue, ?_, by simpa using hq, fun _ => rfl⟩
    simp only [length_nil, wakeupFrom, List.filter_nil, ← hitems]
  | cons t rest ih =>
    have hget : s.sleepers.items[before.length]? = some t := by
      rw [hitems]
      simp
    simp only [length_cons, wakeupFrom, hget]
    by_cases ht : s.sleepaddr t = some addr
    · have hon : onAddr s.sleepaddr addr t = true := by simpa [onAddr] using ht
      have hremove : s.sleepers.arrayRemove before.length =
          .ok { s.sleepers with items := before ++ rest } := by
        rw [Arr.arrayRemove, if_pos, hitems]
        · simp [List.eraseIdx_append_of_length_le]
        rw [hitems] at hfit ⊢
        simp at hfit ⊢
        omega
      simp only [if_pos ht, hremove, bind, Except.bind, makeRunnable]
      rcases hq.qAddtail t mem with ⟨q, hadd, hq', hle, hsize⟩ | ⟨hmem, hfull, hadd⟩
      · simp only [hadd, Functor.map, Except.map, Option.map]
        have hfit' : (before ++ rest).length ≤ s.sleepers.max := by
          rw [hitems] at hfit
          simp at hfit ⊢
          omega
        rcases ih (s := { s with
            runqueue := q, sleepers := { s.sleepers with items := before ++ rest } })
          before hq' rfl hfit'
          with ⟨q', hrun, hholds, hsize'⟩ | ⟨hmem, hlong, hrun⟩
        · refine .inl ⟨q', by simpa [hon] using hrun, by simpa [hon] using hholds, ?_⟩
          intro hlt
          rw [List.filter_cons_of_pos hon, length_cons] at hlt
          have hq1 := hsize (by omega)
          simp only [length_append, List.length_singleton] at hsize'
          exact (hsize' (by omega)).trans hq1
        · simp only [length_append, List.length_singleton] at hlong
          rw [List.filter_cons_of_pos hon, length_cons]
          exact .inr ⟨hmem, by omega, hrun⟩
      · rw [List.filter_cons_of_pos hon, length_cons]
        exact .inr ⟨hmem, by omega, by rw [hadd]; rfl⟩
    · have hon : onAddr s.sleepaddr addr t = false := by simpa [onAddr] using ht
      have hskip : (t :: rest).filter (onAddr s.sleepaddr addr) =
          rest.filter (onAddr s.sleepaddr addr) := List.filter_cons_of_neg (by simp [hon])
      rw [if_neg ht]
      rcases ih (before ++ [t]) hq (by simpa using hitems) hfit with
        ⟨q, hrun, hholds, hsize⟩ | ⟨hmem, hlong, hrun⟩
      · refine .inl ⟨q, by simpa [hon] using hrun, by simpa [hon] using hholds, ?_⟩
        rw [hskip]
        exact hsize
      · rw [hskip]
        exact .inr ⟨hmem, hlong, by simpa using hrun⟩

/-- `thread_wakeup` moves every sleeper on the address to the run queue, in order. -/
theorem Ok.threadWakeup (h : s.Ok ready) (addr : A) (mem : Bool) :
    (∃ q, s.threadWakeup addr mem = .ok (s.woken addr q) ∧
      q.Holds (ready ++ s.sleepers.items.filter (onAddr s.sleepaddr addr)) ∧
      (ready.length + s.sleepers.items.length < s.runqueue.size →
        q.size = s.runqueue.size)) ∨
      mem = false ∧ s.runqueue.size ≤ ready.length + s.sleepers.items.length ∧
        s.threadWakeup addr mem = .error .assertion := by
  have hle := List.length_filter_le (onAddr s.sleepaddr addr) s.sleepers.items
  rcases wakeupFrom_cases [] h.queue
    (show s.sleepers.items = [] ++ s.sleepers.items from rfl) h.sleepers_fit addr mem with
    ⟨q, hrun, hq, hsize⟩ | ⟨hmem, hlong, hrun⟩
  · exact .inl ⟨q, hrun, hq, fun hlt => hsize (by omega)⟩
  · exact .inr ⟨hmem, by omega, hrun⟩

/-- `thread_wakeup` wakes all sleepers on the address and no others. It returns whenever the run
queue can take them. -/
theorem wakeup_all_and_only (hq : s.runqueue.Holds ready)
    (hfit : s.sleepers.items.length ≤ s.sleepers.max) (addr : A) (mem : Bool) :
    (mem = true ∨ ready.length + (s.sleepers.items.filter (onAddr s.sleepaddr addr)).length <
        s.runqueue.size → ∃ s', s.threadWakeup addr mem = .ok s') ∧
      ∀ s', s.threadWakeup addr mem = .ok s' →
        s'.sleepers.items = s.sleepers.items.filter (! onAddr s.sleepaddr addr ·) ∧
        s'.runqueue.Holds (ready ++ s.sleepers.items.filter (onAddr s.sleepaddr addr)) ∧
        s' = { s with runqueue := s'.runqueue, sleepers := s'.sleepers } := by
  rcases wakeupFrom_cases [] hq
    (show s.sleepers.items = [] ++ s.sleepers.items from rfl) hfit addr mem with
    ⟨q, hrun, hholds, -⟩ | ⟨hmem, hlong, hrun⟩
  · refine ⟨fun _ => ⟨_, hrun⟩, fun s' hs' => ?_⟩
    cases hs'.symm.trans hrun
    exact ⟨rfl, hholds, rfl⟩
  refine ⟨?_, fun s' hs' => (by cases hs'.symm.trans hrun)⟩
  rintro (hmem' | hroom)
  · rw [hmem] at hmem'
    cases hmem'
  · omega

def fourSleepers : Sched Nat :=
  { (boot : Sched Nat) with
    sleepers := ⟨[1, 2, 3, 4], 6⟩
    sleepaddr := fun t => if t = 3 then some 8 else some 7 }

/-- Three of them are on the address, two side by side. -/
theorem wakeup_all_and_only_four :
    ∃ s', fourSleepers.threadWakeup 7 false = .ok s' ∧ s'.sleepers.items = [3] ∧
      s'.runqueue.Holds [1, 2, 4] := by
  obtain ⟨hreturns, hresult⟩ := wakeup_all_and_only (s := fourSleepers)
    (Queue.holds_qCreate (by decide)) (by decide) 7 false
  obtain ⟨s', hs'⟩ := hreturns (.inr (by decide))
  obtain ⟨hsleepers, hready, -⟩ := hresult s' hs'
  exact ⟨s', hs', hsleepers, hready⟩

theorem Ok.woken (h : s.Ok ready)
    (hq : q.Holds (ready ++ s.sleepers.items.filter (onAddr s.sleepaddr addr))) :
    (s.woken addr q).Ok (ready ++ s.sleepers.items.filter (onAddr s.sleepaddr addr)) := by
  have hsplit := List.filter_append_perm (onAddr s.sleepaddr addr) s.sleepers.items
  refine ⟨hq, (List.length_filter_le _ _).trans h.sleepers_fit, h.zombies_fit, ?_, ?_, ?_,
    fun t ht => h.addressed t (List.mem_filter.mp ht).1⟩
  · refine .trans ?_ h.places
    rw [List.perm_iff_count] at hsplit ⊢
    intro x
    have := hsplit x
    simp only [placed, Sched.woken, count_append] at this ⊢
    omega
  · have := hsplit.length_eq
    simp only [Sched.woken, h.count, length_append] at this ⊢
    omega
  · intro t ht
    refine h.returns t ?_
    simp only [Sched.woken, mem_append, List.mem_filter] at ht ⊢
    tauto

end wakeup

/-- What a switch to the thread `t` does to the rest. -/
structure Dispatched (s : Sched A) (t : Tid) (s' : Sched A) : Prop where
  curthread : s'.curthread = some t
  sleepers : s'.sleepers = s.sleepers
  numthreads : s'.numthreads = s.numthreads
  created : s'.created = s.created
  pcb : s'.pcb = s.pcb
  queueSize : s'.runqueue.size = s.runqueue.size
  sleepaddr : s'.sleepaddr =
    if s.pcb t = some .sleep then update s.sleepaddr t none else s.sleepaddr
  zombies : s'.zombies =
    if s.pcb t = none then s.zombies else ⟨[], if 16 < s.zombies.max then 0 else s.zombies.max⟩
  destroyed : s'.destroyed =
    if s.pcb t = none then s.destroyed else s.destroyed ++ s.zombies.items

theorem destroyAll_ok {zs : List Tid} (h : ∀ z, z ∈ zs → s.curthread ≠ some z) :
    destroyAll zs s = .ok { s with destroyed := s.destroyed ++ zs } := by
  induction zs generalizing s with
  | nil => simp [destroyAll]
  | cons z zs ih =>
    rw [destroyAll, if_neg (h z (by simp)), ih]
    · simp
    · intro y hy
      exact h y (by simp [hy])

theorem exorcise_ok (h : ∀ z, z ∈ s.zombies.items → s.curthread ≠ some z)
    (hfit : s.zombies.items.length ≤ s.zombies.max) :
    s.exorcise = .ok { s with
      destroyed := s.destroyed ++ s.zombies.items
      zombies := ⟨[], if 16 < s.zombies.max then 0 else s.zombies.max⟩ } := by
  simp only [exorcise, destroyAll_ok h, bind, Except.bind, Arr.arraySetsize_zero hfit]

/-- The scheduler returns the first thread of the run queue. -/
theorem Ok.dispatch (h : s.Ok (t :: ready)) (hcur : s.curthread = none) :
    ∃ s', s.dispatch = .ok s' ∧ s'.Ok ready ∧ s.Dispatched t s' := by
  obtain ⟨q, hrun, hq, hsize⟩ := h.queue.qRemhead
  have hreturns := h.returns t (by simp)
  have hnd := h.nodup
  simp only [placed, hcur, toList_none, List.nil_append, List.cons_append,
    List.nodup_cons, mem_append, not_or] at hnd
  have hplaces : (t :: ready ++ s.sleepers.items ++ s.zombies.items ++ s.destroyed).Perm
      (List.range s.created) := by
    simpa [placed, hcur] using h.places
  have hcount : s.numthreads = (t :: ready ++ s.sleepers.items).length := by
    simpa [hcur] using h.count
  have hlive : ∀ u, u ∈ ready ++ s.sleepers.items → s.pcb u ≠ some .zomb := by
    intro u hu
    exact h.returns u (by simp_all)
  simp only [Sched.dispatch, hrun, bind, Except.bind]
  cases hp : s.pcb t with
  | none =>
    refine ⟨_, rfl, ⟨hq, h.sleepers_fit, h.zombies_fit, hplaces, hcount, hlive, h.addressed⟩, ?_⟩
    exact ⟨rfl, rfl, rfl, rfl, rfl, hsize, by simp [hp], by simp [hp], by simp [hp]⟩
  | some state =>
    have hex := exorcise_ok (s := { s with runqueue := q, curthread := some t })
      (by rintro z hz ⟨rfl⟩; exact hnd.1.1.2 hz) h.zombies_fit
    simp only [hex]
    have hplaces' : (t :: ready ++ s.sleepers.items ++ [] ++ (s.destroyed ++ s.zombies.items)).Perm
        (List.range s.created) := by
      refine .trans ?_ hplaces
      simp only [List.perm_iff_count, count_append, count_nil]
      omega
    have hfit : ([] : List Tid).length ≤ if 16 < s.zombies.max then 0 else s.zombies.max :=
      Nat.zero_le _
    cases state with
    | zomb => exact absurd hp hreturns
    | sleep =>
      refine ⟨_, rfl, ⟨hq, h.sleepers_fit, hfit, hplaces', hcount, hlive, ?_⟩, ?_⟩
      · intro u hu
        have hut : u ≠ t := by
          rintro rfl
          exact hnd.1.1.1.2 hu
        simpa [update_of_ne hut] using h.addressed u hu
      exact ⟨rfl, rfl, rfl, rfl, rfl, hsize, by simp [hp], by simp [hp], by simp [hp]⟩
    | run | ready =>
      refine ⟨_, rfl, ⟨hq, h.sleepers_fit, hfit, hplaces', hcount, hlive, h.addressed⟩, ?_⟩
      exact ⟨rfl, rfl, rfl, rfl, rfl, hsize, by simp [hp], by simp [hp], by simp [hp]⟩

/-- The containers with other room. -/
def resize (s : Sched A) (k m : Nat) (q : Queue Tid) : Sched A :=
  { s with
    sleepers := { s.sleepers with max := k }
    zombies := { s.zombies with max := m }
    runqueue := q }

/-- The thread that `thread_fork` hands over is the last one created. -/
def addThread (s : Sched A) (q : Queue Tid) : Sched A :=
  { s with
    runqueue := q
    numthreads := s.numthreads + 1
    created := s.created + 1
    pcb := update s.pcb s.created none
    sleepaddr := update s.sleepaddr s.created none }

theorem Ok.resize (h : s.Ok ready) {k m : Nat} (hk : s.sleepers.max ≤ k)
    (hm : s.zombies.max ≤ m) (hq : q.Holds ready) : (s.resize k m q).Ok ready :=
  ⟨hq, h.sleepers_fit.trans hk, h.zombies_fit.trans hm, h.places, h.count, h.returns,
    h.addressed⟩

theorem Ok.addThread (h : s.Ok ready) (hq : q.Holds (ready ++ [s.created])) :
    (s.addThread q).Ok (ready ++ [s.created]) := by
  have hfresh : s.created ∉ s.sleepers.items := by
    intro hmem
    have hlt := h.mem_iff.mp (show s.created ∈ s.placed ready ++ s.destroyed by simp [placed, hmem])
    exact Nat.lt_irrefl _ hlt
  refine ⟨hq, h.sleepers_fit, h.zombies_fit, ?_, ?_, ?_, ?_⟩
  · have hsplit := h.places.append_right [s.created]
    rw [← List.range_succ] at hsplit
    refine .trans ?_ hsplit
    simp only [placed, Sched.addThread, List.perm_iff_count, count_append]
    omega
  · simp only [Sched.addThread, h.count, length_append, List.length_singleton]
    omega
  · intro u hu
    refine h.returns_update (by simp) ?_
    simp only [Sched.addThread, mem_append, mem_singleton] at hu ⊢
    tauto
  · intro u hu
    have hut : u ≠ s.created := by
      rintro rfl
      exact hfresh hu
    simpa [Sched.addThread, update_of_ne hut] using h.addressed u hu

/-- `thread_fork` fails, which may leave the containers with more room, or hands over a thread
after making room for it. -/
theorem Ok.threadFork (h : s.Ok ready) (hcur : s.curthread = some t) (setup : Bool)
    (mem : Nat → Bool) : ∃ k m q, s.sleepers.max ≤ k ∧ s.zombies.max ≤ m ∧
      s.runqueue.size ≤ q.size ∧
      (m = s.zombies.max ∨
        m = Arr.growMax (s.numthreads + 1) (s.numthreads + 1) s.zombies.max) ∧
      ((setup = false ∨ ∃ i, mem i = false) ∧ q.Holds ready ∧
          s.threadFork setup mem = .ok (none, s.resize k m q) ∨
        s.numthreads + 1 ≤ k ∧ s.numthreads + 1 ≤ m ∧ s.numthreads + 1 ≤ q.size ∧
          q.Holds (ready ++ [s.created]) ∧
          s.threadFork setup mem =
            .ok (some s.created, (s.resize k m s.runqueue).addThread q)) := by
  have hself : s = s.resize s.sleepers.max s.zombies.max s.runqueue := rfl
  have hne : s.curthread ≠ none := by simp [hcur]
  have hgrow := fun a : Arr Tid =>
    Arr.growMax_le (n := s.numthreads + 1) (k := s.numthreads + 1) (m := a.max) (by omega)
  simp only [Sched.threadFork, if_neg hne]
  cases setup with
  | false =>
    refine ⟨_, _, _, le_rfl, le_rfl, le_rfl, .inl rfl, .inl ⟨.inl rfl, h.queue, ?_⟩⟩
    rfl
  | true =>
    simp only [if_true, bind, Except.bind]
    rcases Arr.arrayPreallocate_cases h.sleepers_fit (s.numthreads + 1) (mem 0) with
      hk | ⟨hmem, hk⟩
    · obtain ⟨hkn, hkm⟩ := hgrow s.sleepers
      simp only [hk]
      rcases Arr.arrayPreallocate_cases h.zombies_fit (s.numthreads + 1) (mem 1) with
        hm | ⟨hmem, hm⟩
      · obtain ⟨hmn, hmm⟩ := hgrow s.zombies
        simp only [hm]
        rcases h.queue.qPreallocate (s.numthreads + 1) (mem 2) with
          ⟨q, hq, hqr, hqn, hqm⟩ | ⟨hmem, hq⟩
        · simp only [hq, makeRunnable]
          rcases hqr.qAddtail s.created (mem 3) with ⟨q', hq', hqr', hqs, -⟩ | ⟨hmem, -, hq'⟩
          · refine ⟨_, _, q', hkm, hmm, hqm.trans hqs, .inr rfl,
              .inr ⟨hkn, hmn, hqn.trans hqs, hqr', ?_⟩⟩
            simp only [hq']
            rfl
          · refine ⟨_, _, q, hkm, hmm, hqm, .inr rfl, .inl ⟨.inr ⟨3, hmem⟩, hqr, ?_⟩⟩
            simp only [hq']
            rfl
        · refine ⟨_, _, _, hkm, hmm, le_rfl, .inr rfl, .inl ⟨.inr ⟨2, hmem⟩, h.queue, ?_⟩⟩
          simp only [hq]
          rfl
      · refine ⟨_, _, _, hkm, le_rfl, le_rfl, .inl rfl, .inl ⟨.inr ⟨1, hmem⟩, h.queue, ?_⟩⟩
        simp only [hm]
        rfl
    · refine ⟨_, _, _, le_rfl, le_rfl, le_rfl, .inl rfl, .inl ⟨.inr ⟨0, hmem⟩, h.queue, ?_⟩⟩
      rw [← hself]
      simp only [hk]

end Sched

/-- The calls of a running thread and what interrupts do; `dispatch` is the scheduler's return. -/
inductive SchedEvent (A : Type) where
  | fork (setup : Bool) (mem : Nat → Bool)
  | yield (mem : Bool)
  | sleep (addr : A) (mem : Bool)
  | wakeup (addr : A) (mem : Bool)
  | exit (mem : Bool)
  | hardclock (lbolt : Option A) (mem : Bool)
  | dispatch

section runs
variable {A : Type} [DecidableEq A]

/-- Interrupts also come while `curthread` is `NULL`. -/
def SchedEvent.Enabled (s : Sched A) : SchedEvent A → Prop
  | .fork .. | .yield _ | .sleep .. | .exit _ => s.curthread ≠ none
  | .wakeup .. | .hardclock .. => True
  | .dispatch => s.curthread = none ∧ s.runqueue.qEmpty = false

/-- Every allocation of the call succeeds. -/
def SchedEvent.Mem : SchedEvent A → Prop
  | .fork _ mem => ∀ i, mem i = true
  | .yield mem | .sleep _ mem | .wakeup _ mem | .exit mem | .hardclock _ mem => mem = true
  | .dispatch => True

namespace Sched

def exec (s : Sched A) : SchedEvent A → Except Crash (Sched A)
  | .fork setup mem => Prod.snd <$> s.threadFork setup mem
  | .yield mem => s.threadYield mem
  | .sleep addr mem => s.threadSleep addr mem
  | .wakeup addr mem => s.threadWakeup addr mem
  | .exit mem => s.threadExit mem
  | .hardclock lbolt mem => s.hardclock lbolt mem
  | .dispatch => s.dispatch

def Step (s : Sched A) (e : SchedEvent A) (s' : Sched A) : Prop :=
  e.Enabled s ∧ s.exec e = .ok s'

variable {s s' : Sched A} {ready : List Tid} {e : SchedEvent A}

theorem Ok.wakeup (h : s.Ok ready) (addr : A) (mem : Bool) :
    s.Keeps (mem = false) (s.threadWakeup addr mem) := by
  rcases h.threadWakeup addr mem with ⟨q, hrun, hq, -⟩ | ⟨hmem, -, hrun⟩
  · exact .inl ⟨_, _, hrun, h.woken hq, .inl rfl⟩
  · exact .inr ⟨hmem, hrun⟩

theorem Ok.hardclock (h : s.Ok ready) (lbolt : Option A) (mem : Bool) :
    s.Keeps (mem = false) (s.hardclock lbolt mem) := by
  cases lbolt with
  | none => exact h.yield mem
  | some addr =>
    simp only [Sched.hardclock, bind, Except.bind]
    rcases h.threadWakeup addr mem with ⟨q, hwake, hq, -⟩ | ⟨hmem, -, hwake⟩
    · rw [hwake]
      exact (h.woken hq).yield mem
    · exact .inr ⟨hmem, by rw [hwake]⟩

theorem Ok.exec (h : s.Ok ready) (he : e.Enabled s) : s.Keeps (¬ e.Mem) (s.exec e) := by
  have hno : ∀ {mem r}, (mem = false → ¬ e.Mem) → s.Keeps (mem = false) r → s.Keeps (¬ e.Mem) r :=
    fun hmem => Or.imp_right (And.imp_left hmem)
  cases e with
  | fork setup mem =>
    obtain ⟨t, hcur⟩ := Option.ne_none_iff_exists'.mp he
    obtain ⟨k, m, q, hk, hm, -, -, ⟨-, hq, hrun⟩ | ⟨-, -, -, hq, hrun⟩⟩ :=
      h.threadFork hcur setup mem
    · exact .inl ⟨_, _, by rw [Sched.exec, hrun]; rfl, h.resize hk hm hq, .inl rfl⟩
    · exact .inl ⟨_, _, by rw [Sched.exec, hrun]; rfl, (h.resize hk hm h.queue).addThread hq,
        .inl rfl⟩
  | yield mem => exact hno (by simp [SchedEvent.Mem]) (h.yield mem)
  | sleep addr mem =>
    obtain ⟨t, hcur⟩ := Option.ne_none_iff_exists'.mp he
    rcases h.threadSleep hcur addr mem with ⟨k, hrun, hk, -⟩ | ⟨hmem, -, hrun⟩
    · exact .inl ⟨_, _, hrun, h.slept hcur hk, .inl rfl⟩
    · exact .inr ⟨by simp [SchedEvent.Mem, hmem], hrun⟩
  | wakeup addr mem => exact hno (by simp [SchedEvent.Mem]) (h.wakeup addr mem)
  | exit mem =>
    obtain ⟨t, hcur⟩ := Option.ne_none_iff_exists'.mp he
    rcases h.threadExit hcur mem with ⟨k, hrun, hk, -⟩ | ⟨hmem, -, hrun⟩
    · exact .inl ⟨_, _, hrun, h.exited hcur hk, .inl rfl⟩
    · exact .inr ⟨by simp [SchedEvent.Mem, hmem], hrun⟩
  | hardclock lbolt mem => exact hno (by simp [SchedEvent.Mem]) (h.hardclock lbolt mem)
  | dispatch =>
    obtain ⟨hcur, hne⟩ := he
    obtain ⟨t, rest, rfl⟩ := h.exists_ready hne
    obtain ⟨s', hrun, h', -⟩ := h.dispatch hcur
    exact .inl ⟨s', rest, hrun, h', .inr hcur⟩

theorem Ok.step (h : s.Ok ready) (hstep : s.Step e s') :
    (∃ ready', s'.Ok ready') ∧ (s'.destroyed = s.destroyed ∨ s.curthread = none) := by
  obtain ⟨he, hrun⟩ := hstep
  rcases h.exec he with ⟨s₁, ready₁, hrun₁, h₁, hd⟩ | ⟨-, hfail⟩
  · rw [hrun] at hrun₁
    cases hrun₁
    exact ⟨⟨ready₁, h₁⟩, hd⟩
  · rw [hrun] at hfail
    cases hfail

theorem ok_run {es : List (SchedEvent A)} (h : Lts.Run Step boot es s) : ∃ ready, s.Ok ready := by
  refine h.invariant (fun s => ∃ ready, s.Ok ready) ?_ ⟨[], .boot⟩
  rintro s e s' hstep ⟨ready, hok⟩
  exact (hok.step hstep).1

end Sched

open Sched

/-- In every state that calls and interrupts lead to, each thread created and not destroyed is in
one place, once, and `numthreads` counts those outside `zombies`. The next step destroys no thread
that is running before or after it, and with memory it fails no assertion. -/
theorem threads_conserved {s : Sched A} {es : List (SchedEvent A)} (h : Lts.Run Step boot es s) :
    (∃ ready, s.runqueue.Holds ready ∧ (s.placed ready).Nodup ∧
      ∀ t, t ∈ s.placed ready ↔ t ∈ s.existing) ∧
    s.numthreads = (s.existing.filter (· ∉ s.zombies.items)).card ∧
    (∀ e s', s.Step e s' → ∀ t, t ∈ s'.destroyed → t ∉ s.destroyed →
      s.curthread ≠ some t ∧ s'.curthread ≠ some t) ∧
    ∀ e : SchedEvent A, e.Enabled s → e.Mem → ∃ s', s.Step e s' := by
  obtain ⟨ready, hok⟩ := ok_run h
  refine ⟨⟨ready, hok.queue, (List.nodup_append.mp hok.nodup).1, fun t => hok.mem_placed⟩,
    hok.numthreads_eq, ?_, ?_⟩
  · intro e s' hstep t ht hnot
    obtain ⟨⟨ready', hok'⟩, hd | hcur⟩ := hok.step hstep
    · rw [hd] at ht
      exact absurd ht hnot
    · refine ⟨by simp [hcur], fun hcur' => ?_⟩
      exact (hok'.running_notMem hcur').2.2.2 ht
  · intro e he hmem
    rcases hok.exec he with ⟨s', -, hrun, -⟩ | ⟨hno, -⟩
    · exact ⟨s', he, hrun⟩
    · exact absurd hmem hno

/-- A thread is forked, runs, forks nothing and ends; the first one destroys it. -/
theorem threads_conserved_pair :
    ∃ s : Sched Unit, Lts.Run Step boot
        [.fork true fun _ => true, .yield true, .dispatch, .exit true, .hardclock none true,
          .dispatch] s ∧
      s.destroyed = [1] ∧ s.numthreads = (s.existing.filter (· ∉ s.zombies.items)).card := by
  exact Lts.exists_run_and ⟨_, .head ⟨some_ne_none _, rfl⟩ (.head ⟨some_ne_none _, rfl⟩
    (.head ⟨⟨rfl, rfl⟩, rfl⟩ (.head ⟨some_ne_none _, rfl⟩ (.head ⟨trivial, rfl⟩
    (.head ⟨⟨rfl, rfl⟩, rfl⟩ .refl))))), rfl⟩ fun s hrun _ => (threads_conserved hrun).2.1

end runs
end OS161
