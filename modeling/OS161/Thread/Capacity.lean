import OS161.Thread.Switch

/-! Room in the thread containers, which `thread_fork` makes so that switches need no memory. -/
namespace OS161

open Option (toList_some some_ne_none)

variable {A : Type} {s s' : Sched A} {ready ready' : List Tid} {t : Tid} {e : SchedEvent A}

/-- The containers have the room they had. -/
structure Sched.SameRoom (s s' : Sched A) : Prop where
  queue : s'.runqueue.size = s.runqueue.size
  sleepers : s'.sleepers.max = s.sleepers.max
  zombies : s'.zombies.max = s.zombies.max

/-- The calls that leave enough room: a thread is forked while no dead one waits to be destroyed
and there are fewer than 14, and none sleeps or ends before the first fork. -/
def SchedEvent.Careful (s : Sched A) : SchedEvent A → Prop
  | .fork .. => s.zombies.items = [] ∧ s.numthreads < 14
  | .sleep .. | .exit _ => 1 < s.created
  | .yield _ | .wakeup .. | .hardclock .. | .dispatch => True

/-- The calls other than `thread_fork`. -/
def SchedEvent.IsSwitch : SchedEvent A → Prop
  | .fork .. => False
  | .yield _ | .sleep .. | .wakeup .. | .exit _ | .hardclock .. | .dispatch => True

namespace Sched

theorem SameRoom.trans {s₁ s₂ s₃ : Sched A} (h : s₁.SameRoom s₂) (h' : s₂.SameRoom s₃) :
    s₁.SameRoom s₃ :=
  ⟨h'.queue.trans h.queue, h'.sleepers.trans h.sleepers, h'.zombies.trans h.zombies⟩

/-- The sizes `array_preallocate` takes for at most 14 members. -/
def shortMax : List Nat := [0, 2, 6, 14]

theorem growMax_shortMax : ∀ n, n ≤ 14 → ∀ m ∈ shortMax, Arr.growMax n n m ∈ shortMax := by
  decide

structure Roomy (s : Sched A) (ready : List Tid) : Prop where
  ok : s.Ok ready
  few : s.numthreads ≤ 14
  ring : 32 ≤ s.runqueue.size
  short : s.zombies.max ∈ shortMax
  sleep_room : 1 < s.created → s.numthreads ≤ s.sleepers.max
  zombie_room : 1 < s.created → s.numthreads + s.zombies.items.length ≤ s.zombies.max

theorem Roomy.boot : (boot : Sched A).Roomy [] :=
  have hone : ¬ 1 < (Sched.boot : Sched A).created := Nat.lt_irrefl 1
  ⟨.boot, (by decide : 1 ≤ 14), Nat.le_refl 32, (by decide : 0 ∈ shortMax),
    fun h => absurd h hone, fun h => absurd h hone⟩

section
variable (h : s.Roomy ready)
include h

theorem Roomy.max_le : s.zombies.max ≤ 14 := by
  have := h.short
  simp only [shortMax, List.mem_cons, List.not_mem_nil, or_false] at this
  omega

theorem Roomy.length_le :
    s.curthread.toList.length + ready.length + s.sleepers.items.length ≤ 14 := by
  have hcount := h.ok.count
  have hfew := h.few
  simp only [List.length_append] at hcount
  omega

theorem Roomy.of_sameRoom (hok : s'.Ok ready') (hroom : s.SameRoom s')
    (hcreated : s'.created = s.created) (hn : s'.numthreads ≤ s.numthreads)
    (hz : s'.numthreads + s'.zombies.items.length ≤ s.numthreads + s.zombies.items.length) :
    s'.Roomy ready' := by
  refine ⟨hok, hn.trans h.few, hroom.queue ▸ h.ring, hroom.zombies ▸ h.short, ?_, ?_⟩
  · rw [hcreated, hroom.sleepers]
    exact fun h1 => hn.trans (h.sleep_room h1)
  · rw [hcreated, hroom.zombies]
    exact fun h1 => hz.trans (h.zombie_room h1)

theorem Roomy.yield (mem : Bool) :
    ∃ s' ready', s.threadYield mem = .ok s' ∧ s'.Roomy ready' ∧ s.SameRoom s' := by
  cases hcur : s.curthread with
  | none =>
    exact ⟨s, ready, by rw [Sched.threadYield, miSwitch, hcur], h, rfl, rfl, rfl⟩
  | some t =>
    have hlen := h.length_le
    have hring := h.ring
    rcases h.ok.threadYield hcur mem with ⟨q, hrun, hq, hsize⟩ | ⟨-, hfull, -⟩
    · have hroom : s.SameRoom (s.yielded t q) := ⟨hsize (by omega), rfl, rfl⟩
      exact ⟨_, _, hrun, h.of_sameRoom (h.ok.yielded hcur hq) hroom rfl le_rfl le_rfl, hroom⟩
    · omega

theorem Roomy.sleep (hcur : s.curthread = some t) (h1 : 1 < s.created) (addr : A) (mem : Bool) :
    ∃ s' ready', s.threadSleep addr mem = .ok s' ∧ s'.Roomy ready' ∧ s.SameRoom s' := by
  have hcount := h.ok.count
  have hmax := h.sleep_room h1
  simp only [hcur, toList_some, List.length_append, List.length_singleton] at hcount
  rcases h.ok.threadSleep hcur addr mem with ⟨k, hrun, hk, hsize⟩ | ⟨-, hfull, -⟩
  · have hroom : s.SameRoom (s.slept t addr k) := ⟨rfl, hsize (by omega), rfl⟩
    exact ⟨_, _, hrun, h.of_sameRoom (h.ok.slept hcur hk) hroom rfl le_rfl le_rfl, hroom⟩
  · omega

theorem Roomy.exit (hcur : s.curthread = some t) (h1 : 1 < s.created)
    (mem : Bool) : ∃ s' ready', s.threadExit mem = .ok s' ∧ s'.Roomy ready' ∧ s.SameRoom s' := by
  have hcount := h.ok.count
  have hmax := h.zombie_room h1
  simp only [hcur, toList_some, List.length_append, List.length_singleton] at hcount
  rcases h.ok.threadExit hcur mem with ⟨k, hrun, hk, hsize⟩ | ⟨-, hfull, -⟩
  · have hroom : s.SameRoom (s.exited t k) := ⟨rfl, rfl, hsize (by omega)⟩
    refine ⟨_, _, hrun, h.of_sameRoom (h.ok.exited hcur hk) hroom rfl (Nat.sub_le _ 1) ?_, hroom⟩
    simp only [exited, List.length_append, List.length_singleton]
    omega
  · omega

theorem Roomy.dispatch (he : SchedEvent.dispatch.Enabled s) :
    ∃ s' ready', s.dispatch = .ok s' ∧ s'.Roomy ready' ∧ s.SameRoom s' := by
  obtain ⟨hcur, hne⟩ := he
  obtain ⟨t, rest, rfl⟩ := h.ok.exists_ready hne
  obtain ⟨s', hrun, hok, hd⟩ := h.ok.dispatch hcur
  have hmax : s'.zombies.max = s.zombies.max := by
    have := h.max_le
    rw [hd.zombies]
    split
    · rfl
    · exact if_neg (by omega)
  have hlen : s'.zombies.items.length ≤ s.zombies.items.length := by
    rw [hd.zombies]
    split
    · exact le_rfl
    · exact Nat.zero_le _
  have hroom : s.SameRoom s' := ⟨hd.queueSize, by rw [hd.sleepers], hmax⟩
  exact ⟨s', rest, hrun, h.of_sameRoom hok hroom hd.created hd.numthreads.le
    (by rw [hd.numthreads]; omega), hroom⟩

theorem Roomy.fork (hcur : s.curthread = some t)
    (hz : s.zombies.items = []) (hlt : s.numthreads < 14) {setup : Bool} {mem : Nat → Bool}
    {ret : Option Tid} (hrun : s.threadFork setup mem = .ok (ret, s')) :
    ∃ ready', s'.Roomy ready' := by
  obtain ⟨k, m, q, hk, hm, hq, hmax, ⟨-, hholds, hrun'⟩ | ⟨hkn, hmn, -, hholds, hrun'⟩⟩ :=
    h.ok.threadFork hcur setup mem
  all_goals
    rw [hrun] at hrun'
    cases hrun'
    have hshort : m ∈ shortMax := by
      rcases hmax with rfl | rfl
      · exact h.short
      · exact growMax_shortMax _ hlt _ h.short
  · exact ⟨_, h.ok.resize hk hm hholds, h.few, h.ring.trans hq, hshort,
      fun h1 => (h.sleep_room h1).trans hk, fun h1 => (h.zombie_room h1).trans hm⟩
  · refine ⟨_, (h.ok.resize hk hm h.ok.queue).addThread hholds, hlt, h.ring.trans hq, hshort,
      fun _ => hkn, fun _ => ?_⟩
    simpa [addThread, Sched.resize, hz] using hmn

end

variable [DecidableEq A]

theorem Roomy.wakeup (h : s.Roomy ready) (addr : A) (mem : Bool) :
    ∃ s' ready', s.threadWakeup addr mem = .ok s' ∧ s'.Roomy ready' ∧ s.SameRoom s' := by
  have hlen := h.length_le
  have hring := h.ring
  rcases h.ok.threadWakeup addr mem with ⟨q, hrun, hq, hsize⟩ | ⟨-, hlong, -⟩
  · have hroom : s.SameRoom (s.woken addr q) := ⟨hsize (by omega), rfl, rfl⟩
    exact ⟨_, _, hrun, h.of_sameRoom (h.ok.woken hq) hroom rfl le_rfl le_rfl, hroom⟩
  · omega

theorem Roomy.hardclock (h : s.Roomy ready) (lbolt : Option A) (mem : Bool) :
    ∃ s' ready', s.hardclock lbolt mem = .ok s' ∧ s'.Roomy ready' ∧ s.SameRoom s' := by
  cases lbolt with
  | none => exact h.yield mem
  | some addr =>
    obtain ⟨s₁, ready₁, hwake, h₁, hroom₁⟩ := h.wakeup addr mem
    obtain ⟨s₂, ready₂, hrun, h₂, hroom₂⟩ := h₁.yield mem
    refine ⟨s₂, ready₂, ?_, h₂, hroom₁.trans hroom₂⟩
    simp only [Sched.hardclock, hwake, bind, Except.bind, hrun]

/-- With room a switch needs no memory. -/
theorem Roomy.exec (h : s.Roomy ready) (hs : e.IsSwitch) (he : e.Enabled s) (hc : e.Careful s) :
    ∃ s' ready', s.exec e = .ok s' ∧ s'.Roomy ready' ∧ s.SameRoom s' := by
  cases e with
  | fork setup mem => exact hs.elim
  | yield mem => exact h.yield mem
  | sleep addr mem =>
    obtain ⟨t, hcur⟩ := Option.ne_none_iff_exists'.mp he
    exact h.sleep hcur hc addr mem
  | wakeup addr mem => exact h.wakeup addr mem
  | exit mem =>
    obtain ⟨t, hcur⟩ := Option.ne_none_iff_exists'.mp he
    exact h.exit hcur hc mem
  | hardclock lbolt mem => exact h.hardclock lbolt mem
  | dispatch => exact h.dispatch he

theorem Roomy.step (h : s.Roomy ready) (hstep : s.Step e s') (hc : e.Careful s) :
    ∃ ready', s'.Roomy ready' := by
  obtain ⟨he, hrun⟩ := hstep
  by_cases hs : e.IsSwitch
  · obtain ⟨s₁, ready₁, hrun₁, h₁, -⟩ := h.exec hs he hc
    rw [hrun] at hrun₁
    cases hrun₁
    exact ⟨ready₁, h₁⟩
  cases e with
  | fork setup mem =>
    obtain ⟨t, hcur⟩ := Option.ne_none_iff_exists'.mp he
    rw [Sched.exec] at hrun
    cases hfork : s.threadFork setup mem with
    | error c =>
      rw [hfork] at hrun
      cases hrun
    | ok r =>
      rw [hfork] at hrun
      cases hrun
      exact h.fork hcur hc.1 hc.2 hfork
  | _ => exact absurd trivial hs

end Sched

open Sched

/-- In a run of such calls every switch, wakeup and end of a thread succeeds without memory and
leaves every container the size it was. -/
theorem switch_needs_no_memory [DecidableEq A] {es : List (SchedEvent A)}
    (h : Lts.Run (Lts.Restrict Step fun s e => e.Careful s) boot es s)
    (hs : e.IsSwitch) (he : e.Enabled s) (hc : e.Careful s) :
    ∃ s', s.exec e = .ok s' ∧ s.SameRoom s' := by
  obtain ⟨ready, hroomy⟩ : ∃ ready, s.Roomy ready := by
    refine h.invariant (fun s => ∃ ready, s.Roomy ready) ?_ ⟨[], .boot⟩
    rintro s e s' hstep ⟨ready, hroomy⟩
    exact hroomy.step hstep.1 hstep.2
  obtain ⟨s', -, hrun, -, hroom⟩ := hroomy.exec hs he hc
  exact ⟨s', hrun, hroom⟩

/-- After one fork the first thread can sleep without memory. -/
theorem switch_needs_no_memory_sleep :
    ∃ s : Sched Unit, Lts.Run (Lts.Restrict Step fun s e => e.Careful s) boot
        [.fork true fun _ => true] s ∧ ∃ s', s.exec (.sleep () false) = .ok s' ∧ s.SameRoom s' := by
  have hrun : ∃ s : Sched Unit, Lts.Run (Lts.Restrict Step fun s e => e.Careful s) boot
      [.fork true fun _ => true] s ∧ s.curthread ≠ none ∧ 1 < s.created :=
    ⟨_, .head ⟨⟨some_ne_none _, rfl⟩, rfl, by decide⟩ .refl,
      some_ne_none _, by decide⟩
  obtain ⟨s, hrun, hcur, hcreated⟩ := hrun
  exact ⟨s, hrun, switch_needs_no_memory hrun trivial hcur hcreated⟩

/-- The first thread sleeps, and six threads in turn fork one and end. A new thread skips
`exorcise`, so that the six are all in `zombies`, which has room for no more: the seventh cannot
end without memory. -/
theorem exit_needs_memory :
    ∃ s : Sched Unit, Lts.Run Step boot
        ([.fork true fun _ => true, .sleep () true, .dispatch] ++
          (List.replicate 6 [.fork true fun _ => true, .exit true, .dispatch]).flatten) s ∧
      s.numthreads = 2 ∧ s.zombies = ⟨[1, 2, 3, 4, 5, 6], 6⟩ ∧
      SchedEvent.Enabled s (.exit false) ∧ s.exec (.exit false) = .error .assertion := by
  have hcur {t : Tid} : some t ≠ none := some_ne_none t
  refine ⟨_, .head ⟨hcur, rfl⟩ (.head ⟨hcur, rfl⟩ (.head ⟨⟨rfl, rfl⟩, rfl⟩
    (.head ⟨hcur, rfl⟩ (.head ⟨hcur, rfl⟩ (.head ⟨⟨rfl, rfl⟩, rfl⟩
    (.head ⟨hcur, rfl⟩ (.head ⟨hcur, rfl⟩ (.head ⟨⟨rfl, rfl⟩, rfl⟩
    (.head ⟨hcur, rfl⟩ (.head ⟨hcur, rfl⟩ (.head ⟨⟨rfl, rfl⟩, rfl⟩
    (.head ⟨hcur, rfl⟩ (.head ⟨hcur, rfl⟩ (.head ⟨⟨rfl, rfl⟩, rfl⟩
    (.head ⟨hcur, rfl⟩ (.head ⟨hcur, rfl⟩ (.head ⟨⟨rfl, rfl⟩, rfl⟩
    (.head ⟨hcur, rfl⟩ (.head ⟨hcur, rfl⟩ (.head ⟨⟨rfl, rfl⟩, rfl⟩
    .refl)))))))))))))))))))), rfl, rfl, hcur, rfl⟩

end OS161
