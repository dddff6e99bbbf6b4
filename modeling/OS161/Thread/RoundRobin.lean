import OS161.Thread.Switch

/-! The scheduler takes threads from the front of the run queue; all else adds at its end. -/
namespace OS161
namespace Sched

variable {A : Type} {s s' : Sched A} {ready : List Tid} {mem : Bool}

theorem Ok.yield_ready (h : s.Ok ready) (hrun : s.threadYield mem = .ok s') :
    ∃ ready', s'.Ok ready' ∧ ready <+: ready' := by
  cases hcur : s.curthread with
  | none =>
    rw [Sched.threadYield, miSwitch, hcur] at hrun
    cases hrun
    exact ⟨ready, h, List.prefix_rfl⟩
  | some t =>
    obtain ⟨q, rfl, hq, -⟩ := returned (h.threadYield hcur mem) hrun
    exact ⟨_, h.yielded hcur hq, List.prefix_append ..⟩

variable [DecidableEq A] {e : SchedEvent A}

theorem Ok.wakeup_ready {addr : A} (h : s.Ok ready) (hrun : s.threadWakeup addr mem = .ok s') :
    ∃ ready', s'.Ok ready' ∧ ready <+: ready' := by
  obtain ⟨q, rfl, hq, -⟩ := returned (h.threadWakeup addr mem) hrun
  exact ⟨_, h.woken hq, List.prefix_append ..⟩

/-- A step other than the scheduler's return puts threads at the end of the run queue only. -/
theorem Ok.step_ready (h : s.Ok ready) (hstep : s.Step e s') (he : e ≠ .dispatch) :
    ∃ ready', s'.Ok ready' ∧ ready <+: ready' := by
  obtain ⟨hen, hrun⟩ := hstep
  cases e with
  | fork setup mem =>
    obtain ⟨t, hcur⟩ := Option.ne_none_iff_exists'.mp hen
    obtain ⟨k, m, q, hk, hm, -, -, ⟨-, hq, hfork⟩ | ⟨-, -, -, hq, hfork⟩⟩ :=
      h.threadFork hcur setup mem
    · rw [Sched.exec, hfork] at hrun
      cases hrun
      exact ⟨_, h.resize hk hm hq, List.prefix_rfl⟩
    · rw [Sched.exec, hfork] at hrun
      cases hrun
      exact ⟨_, (h.resize hk hm h.queue).addThread hq, List.prefix_append ..⟩
  | yield mem => exact h.yield_ready hrun
  | sleep addr mem =>
    obtain ⟨t, hcur⟩ := Option.ne_none_iff_exists'.mp hen
    obtain ⟨k, rfl, hk, -⟩ := returned (h.threadSleep hcur addr mem) hrun
    exact ⟨_, h.slept hcur hk, List.prefix_rfl⟩
  | wakeup addr mem => exact h.wakeup_ready hrun
  | exit mem =>
    obtain ⟨t, hcur⟩ := Option.ne_none_iff_exists'.mp hen
    obtain ⟨k, rfl, hk, -⟩ := returned (h.threadExit hcur mem) hrun
    exact ⟨_, h.exited hcur hk, List.prefix_rfl⟩
  | hardclock lbolt mem =>
    cases lbolt with
    | none => exact h.yield_ready hrun
    | some addr =>
      obtain ⟨s₁, hwake, hyield⟩ := bind_eq_ok.mp hrun
      obtain ⟨ready₁, h₁, hle₁⟩ := h.wakeup_ready hwake
      obtain ⟨ready₂, h₂, hle₂⟩ := h₁.yield_ready hyield
      exact ⟨ready₂, h₂, hle₁.trans hle₂⟩
  | dispatch => exact absurd rfl he

/-- How often the scheduler returns. -/
def dispatches (es : List (SchedEvent A)) : Nat := es.countP (· matches .dispatch)

/-- Of the threads that were ready, only the first ones have been switched to. -/
theorem Ok.run_ready {es : List (SchedEvent A)} (hrun : Lts.Run Step s es s') (h : s.Ok ready) :
    ∃ ready', s'.Ok ready' ∧ ready.drop (dispatches es) <+: ready' := by
  induction hrun generalizing ready with
  | refl => exact ⟨ready, h, List.prefix_rfl⟩
  | @head s _ _ e es hstep _ ih =>
    by_cases he : e = .dispatch
    · subst he
      obtain ⟨⟨hcur, hne⟩, hrun⟩ := hstep
      obtain ⟨t, rest, rfl⟩ := h.exists_ready hne
      obtain ⟨s', hok, h', -⟩ := h.dispatch hcur
      cases hrun.symm.trans hok
      simpa [dispatches] using ih h'
    · obtain ⟨ready₁, h₁, hle₁⟩ := h.step_ready hstep he
      obtain ⟨ready', h', hle'⟩ := ih h₁
      have hcount : dispatches (e :: es) = dispatches es := by cases e <;> simp_all [dispatches]
      exact ⟨ready', h', hcount ▸ (hle₁.drop _).trans hle'⟩

end Sched

open Sched

/-- In every state that calls and interrupts lead to, the threads of the run queue are switched to
in its order, whatever is called later: the one at place `k` when the scheduler has returned `k`
times more. -/
theorem round_robin {A : Type} [DecidableEq A] {s : Sched A} {es : List (SchedEvent A)}
    (h : Lts.Run Step boot es s) :
    ∃ ready, s.runqueue.Holds ready ∧ ∀ es' s₁ s₂ t, Lts.Run Step s es' s₁ →
      s₁.Step .dispatch s₂ → ready[dispatches es']? = some t → s₂.curthread = some t := by
  obtain ⟨ready, hok⟩ := ok_run h
  refine ⟨ready, hok.queue, ?_⟩
  rintro es' s₁ s₂ t hrun ⟨⟨hcur, hne⟩, hdisp⟩ ht
  obtain ⟨ready', h', hle⟩ := hok.run_ready hrun
  obtain ⟨t', rest, rfl⟩ := h'.exists_ready hne
  obtain ⟨s', hrun', -, hd⟩ := h'.dispatch hcur
  cases hdisp.symm.trans hrun'
  obtain ⟨post, heq⟩ := hle
  rw [List.drop_eq_getElem?_toList_append, ht] at heq
  cases heq
  exact hd.curthread

/-- The thread that is forked is the next one, when the first one yields. -/
theorem round_robin_forked :
    ∃ s : Sched Unit, Lts.Run Step boot [.fork true fun _ => true] s ∧
      ((∃ q, s.runqueue.qRemhead = .ok (1, q)) ∧
        ∃ s₁ s₂, Lts.Run Step s [.yield true] s₁ ∧ s₁.Step .dispatch s₂) ∧
      ∀ s₁ s₂, Lts.Run Step s [.yield true] s₁ → s₁.Step .dispatch s₂ → s₂.curthread = some 1 := by
  refine Lts.exists_run_and ⟨_, .single ⟨Option.some_ne_none _, rfl⟩, ⟨_, rfl⟩, _, _,
    .single ⟨Option.some_ne_none _, rfl⟩, ⟨rfl, rfl⟩, rfl⟩ fun s hrun hs => ?_
  obtain ⟨⟨q, hhead⟩, -⟩ := hs
  obtain ⟨ready, hready, hall⟩ := round_robin hrun
  cases ready with
  | nil => cases hready.qRemhead_empty.symm.trans hhead
  | cons t rest =>
    obtain ⟨q', hq, -⟩ := hready.qRemhead
    cases hq.symm.trans hhead
    exact fun s₁ s₂ hyield hdisp => hall _ _ _ 1 hyield hdisp rfl

end OS161
