import OS161.Thread.Synch

/-! `cv_wait` queues the thread on the condition variable; it sleeps on its own address. -/
namespace OS161

open Function (update update_of_ne)

/-- Where a thread is between a call of `cv_wait` and its return. -/
inductive CvPhase where
  | out
  | waiting (c l : Nat)
  | signalled (c l : Nat)
  /-- What happened was out of order. -/
  | broken
  deriving DecidableEq, Repr

/-- The phase of `t` after one more note: a wait, the signal that ends it, the return. -/
def CvPhase.next (t : Tid) (ph : CvPhase) : Note → CvPhase
  | .waits u c l =>
    if u = t then if ph = .out then .waiting c l else .broken
    else ph
  | .signalled u c =>
    if u = t then
      match ph with
      | .waiting c' l => if c' = c then .signalled c l else .broken
      | .out | .signalled .. | .broken => .broken
    else ph
  | .returned u c l =>
    if u = t then if ph = .signalled c l then .out else .broken
    else ph
  | .p _ | .v _ | .acquired .. | .released .. => ph

def phase (t : Tid) (trace : List Note) : CvPhase := trace.foldl (CvPhase.next t) .out

/-- The threads that wait on `c` and have not been signalled, in the order of waiting. -/
def waitingOn (c : Nat) (trace : List Note) : List Tid :=
  trace.foldl (fun ts n =>
    match n with
    | .waits u c' _ => if c' = c then ts ++ [u] else ts
    | .signalled u c' => if c' = c then ts.erase u else ts
    | .p _ | .v _ | .acquired .. | .released .. | .returned .. => ts) []

section trace
variable {t u : Tid} {c d l : Nat} {trace notes : List Note} {n : Note}

theorem phase_snoc : phase t (trace ++ [n]) = (phase t trace).next t n := by
  rw [phase, List.foldl_append]
  rfl

theorem phase_waits_self (h : phase t trace = .out) :
    phase t (trace ++ [.waits t c l]) = .waiting c l := by
  simp [phase_snoc, CvPhase.next, h]

theorem phase_signalled_self (h : phase t trace = .waiting c l) :
    phase t (trace ++ [.signalled t c]) = .signalled c l := by
  simp [phase_snoc, CvPhase.next, h]

theorem phase_returned_self (h : phase t trace = .signalled c l) :
    phase t (trace ++ [.returned t c l]) = .out := by
  simp [phase_snoc, CvPhase.next, h]

/-- The thread a note of the condition variables is about. -/
def Note.cvThread : Note → Option Tid
  | .waits t .. | .signalled t _ | .returned t .. => some t
  | .p _ | .v _ | .acquired .. | .released .. => none

theorem phase_other (hn : n.cvThread = some t) (hut : u ≠ t) :
    phase u (trace ++ [n]) = phase u trace := by
  rw [phase_snoc]
  cases n <;> cases hn <;> simp [CvPhase.next, hut.symm]

theorem waitingOn_waits : waitingOn d (trace ++ [.waits t c l]) =
    if c = d then waitingOn d trace ++ [t] else waitingOn d trace := by
  rw [waitingOn, List.foldl_append]
  rfl

theorem waitingOn_signalled : waitingOn d (trace ++ [.signalled t c]) =
    if c = d then (waitingOn d trace).erase t else waitingOn d trace := by
  rw [waitingOn, List.foldl_append]
  rfl

theorem waitingOn_returned : waitingOn d (trace ++ [.returned t c l]) = waitingOn d trace := by
  rw [waitingOn, List.foldl_append]
  rfl

/-- Notes of semaphores and locks change no phase and no list. -/
theorem quiet_notes (h : ∀ n ∈ notes, ¬ n.IsCv) :
    phase t (trace ++ notes) = phase t trace ∧
      waitingOn c (trace ++ notes) = waitingOn c trace := by
  induction notes generalizing trace with
  | nil => simp
  | cons n notes ih =>
    have hn := h n (by simp)
    rw [List.append_cons]
    have hrest : phase t (trace ++ [n] ++ notes) = phase t (trace ++ [n]) ∧
        waitingOn c (trace ++ [n] ++ notes) = waitingOn c (trace ++ [n]) :=
      ih fun m hm => h m (by simp [hm])
    rw [hrest.1, hrest.2, phase_snoc, waitingOn, List.foldl_append]
    cases n <;> first | exact ⟨rfl, rfl⟩ | exact absurd trivial hn

end trace

instance {A : Type} [DecidableEq A] (s : Sched A) (t : Tid) (a : A) : Decidable (s.Asleep t a) :=
  inferInstanceAs (Decidable (_ ∧ _))

/-- The phase of a thread that does not sleep on its own address. -/
def SynchCont.awake : SynchCont → CvPhase
  | .cvSleep c l | .cvWoken c l | .acquire l (some c) => .signalled c l
  | .none | .p _ | .acquire _ Option.none => .out

/-- The phase as the state has it. -/
def Synch.phaseOf (s : Synch) (t : Tid) : CvPhase :=
  match s.cont t with
  | .cvSleep c l => if s.sched.Asleep t (.thread t) then .waiting c l else .signalled c l
  | k => k.awake

variable {x : History} {es : List SynchEvent} {c l : Nat} {init : Nat → Word} {s : Synch} {t : Tid}

theorem Synch.phaseOf_awake (h : ¬ s.sched.Asleep t (.thread t)) :
    s.phaseOf t = (s.cont t).awake := by
  unfold Synch.phaseOf
  split
  · rename_i c l heq
    rw [if_neg h, heq]
    rfl
  · rfl

theorem Synch.phaseOf_waiting (h : s.phaseOf t = .waiting c l) :
    s.cont t = .cvSleep c l ∧ s.sched.Asleep t (.thread t) := by
  have hasleep : s.sched.Asleep t (.thread t) := by
    by_contra hnot
    rw [Synch.phaseOf_awake hnot] at h
    unfold SynchCont.awake at h
    split at h <;> cases h
  refine ⟨?_, hasleep⟩
  unfold Synch.phaseOf at h
  split at h
  · rename_i c' l' heq
    rw [if_pos hasleep] at h
    cases h
    exact heq
  · rename_i hne
    unfold SynchCont.awake at h
    split at h <;> cases h

namespace History

/-- The trace, the queues and the sleepers agree. -/
structure CvInv (x : History) : Prop where
  ok : ∃ ready, x.state.sched.Ok ready
  own : ∀ t u, x.state.sched.Asleep t (.thread u) → u = t ∧ ∃ c l, x.state.cont t = .cvSleep c l
  phases : ∀ t, phase t x.trace = x.state.phaseOf t
  queue : ∀ c, (x.state.sleptThreads c).Holds (waitingOn c x.trace)
  nodup : ∀ c, (waitingOn c x.trace).Nodup
  members : ∀ c t, t ∈ waitingOn c x.trace ↔ ∃ l, phase t x.trace = .waiting c l

variable {x : History} {s' : Synch} {e : SynchEvent} {init : Nat → Word} {notes : List Note}
  {t u : Tid} {c l i : Nat} {mem : Bool}

theorem CvInv.boot : (History.boot init).CvInv :=
  ⟨⟨[], .boot⟩, fun _ _ h => absurd h.1 List.not_mem_nil, fun _ => rfl,
    fun _ => Queue.holds_qCreate (by decide), fun _ => List.nodup_nil,
    fun _ _ => ⟨fun h => absurd h List.not_mem_nil, fun h => h.elim fun _ => CvPhase.noConfusion⟩⟩

section
variable (h : x.CvInv)
include h

theorem CvInv.quiet (s' : Synch) (notes : List Note) (hok : ∃ ready, s'.sched.Ok ready)
    (hasleep : ∀ u v, s'.sched.Asleep u (.thread v) ↔ x.state.sched.Asleep u (.thread v))
    (hslept : s'.sleptThreads = x.state.sleptThreads)
    (hcont : ∀ u, s'.cont u = x.state.cont u ∨
      ¬ x.state.sched.Asleep u (.thread u) ∧ (s'.cont u).awake = (x.state.cont u).awake)
    (hnotes : ∀ n ∈ notes, ¬ n.IsCv) : CvInv ⟨s', x.trace ++ notes⟩ := by
  have hphase : ∀ u, phase u (x.trace ++ notes) = phase u x.trace := fun u =>
    (quiet_notes (c := 0) hnotes).1
  have hwaiting : ∀ c, waitingOn c (x.trace ++ notes) = waitingOn c x.trace := fun c =>
    (quiet_notes (t := 0) hnotes).2
  refine ⟨hok, fun u v hu => ?_, fun u => ?_, fun c => ?_, fun c => ?_, fun c u => ?_⟩
  · obtain ⟨rfl, c, l, hc⟩ := h.own u v ((hasleep u v).mp hu)
    refine ⟨rfl, c, l, ?_⟩
    rcases hcont v with heq | ⟨hnot, -⟩
    · exact heq.trans hc
    · exact absurd ((hasleep v v).mp hu) hnot
  · show phase u (x.trace ++ notes) = s'.phaseOf u
    rw [hphase, h.phases u]
    rcases hcont u with heq | ⟨hnot, heq⟩
    · simp only [Synch.phaseOf, heq, hasleep]
    · rw [Synch.phaseOf_awake hnot, Synch.phaseOf_awake (by rwa [hasleep]), heq]
  · show (s'.sleptThreads c).Holds (waitingOn c (x.trace ++ notes))
    rw [hslept, hwaiting]
    exact h.queue c
  · show (waitingOn c (x.trace ++ notes)).Nodup
    rw [hwaiting]
    exact h.nodup c
  · show u ∈ waitingOn c (x.trace ++ notes) ↔ ∃ l, phase u (x.trace ++ notes) = .waiting c l
    rw [hwaiting, hphase]
    exact h.members c u

section
variable (hcur : x.state.sched.curthread = some t)
include hcur

variable {k : SynchCont} {addr : WaitAddr}

theorem CvInv.moved (s' : Synch) (notes : List Note) (hok : ∃ ready, s'.sched.Ok ready)
    (hasleep : ∀ u v, s'.sched.Asleep u (.thread v) ↔ x.state.sched.Asleep u (.thread v))
    (hslept : s'.sleptThreads = x.state.sleptThreads) (hcont : s'.cont = update x.state.cont t k)
    (hk : k.awake = (x.state.cont t).awake) (hnotes : ∀ n ∈ notes, ¬ n.IsCv) :
    CvInv ⟨s', x.trace ++ notes⟩ := by
  obtain ⟨ready, hready⟩ := h.ok
  refine h.quiet s' notes hok hasleep hslept (fun u => ?_) hnotes
  rw [hcont]
  by_cases hut : u = t
  · subst hut
    rw [Function.update_self]
    exact .inr ⟨hready.running_not_asleep hcur, hk⟩
  · exact .inl (update_of_ne hut _ _)

theorem CvInv.sleepIn (hrun : x.state.sleepIn t addr k mem = .ok s') (haddr : ∀ u, addr ≠ .thread u)
    (hk : k.awake = (x.state.cont t).awake) : CvInv ⟨s', x.trace ++ []⟩ := by
  obtain ⟨ready, hok⟩ := h.ok
  obtain ⟨sched, hsched, rfl⟩ := Synch.sleepIn_ok hrun
  obtain ⟨hok', -, -, -, hasleep⟩ := hok.asleep_sleep hcur hsched
  refine h.moved hcur _ _ ⟨ready, hok'⟩ (fun u v => ?_) rfl rfl hk (by simp)
  rw [hasleep]
  exact or_iff_left fun heq => haddr v heq.2.symm

omit hcur in
theorem CvInv.wakeup {count : Nat → Word} {busy : Nat → Option Tid}
    (hrun : Synch.wakeup { x.state with count := count, busy := busy } addr mem = .ok s')
    (haddr : ∀ u, addr ≠ .thread u) (hnotes : ∀ n ∈ notes, ¬ n.IsCv) :
    CvInv ⟨s', x.trace ++ notes⟩ := by
  obtain ⟨ready, hok⟩ := h.ok
  obtain ⟨sched, hsched, rfl⟩ := Synch.wakeup_ok hrun
  obtain ⟨hok', -, -, -, hasleep⟩ := hok.asleep_wakeup hsched
  refine h.quiet _ _ ⟨_, hok'⟩ (fun u v => ?_) rfl (fun u => .inl rfl) hnotes
  rw [hasleep]
  exact and_iff_left fun heq => haddr v heq.symm

omit hcur in
theorem CvInv.sched {sched : Sched WaitAddr} (hok : ∃ ready, sched.Ok ready)
    (hasleep : ∀ u v, sched.Asleep u (.thread v) ↔ x.state.sched.Asleep u (.thread v)) :
    CvInv ⟨{ x.state with sched := sched }, x.trace⟩ := by
  have hq := h.quiet { x.state with sched := sched } [] hok hasleep rfl
    (fun u => .inl rfl) (by simp)
  rwa [List.append_nil] at hq

theorem CvInv.p
    (hout : (x.state.cont t).awake = .out) (hrun : x.state.p t i mem = .ok (s', notes)) :
    CvInv ⟨s', x.trace ++ notes⟩ := by
  rcases Synch.p_ok hrun with ⟨-, hsleep, rfl⟩ | ⟨-, rfl, rfl⟩
  · exact h.sleepIn hcur hsleep (by simp) hout.symm
  · exact h.moved hcur _ _ h.ok (fun _ _ => .rfl) rfl rfl hout.symm (by simp [Note.IsCv])

omit hcur in
/-- A signalled thread returns from `cv_wait`. -/
theorem CvInv.returned (hnot : ∀ a, ¬ x.state.sched.Asleep t a)
    (hsig : (x.state.cont t).awake = .signalled c l) :
    CvInv ⟨{ x.state with cont := update x.state.cont t .none },
      x.trace ++ [.returned t c l]⟩ := by
  have hphase : phase t x.trace = .signalled c l := by
    rw [h.phases t, Synch.phaseOf_awake (hnot _), hsig]
  have hother : ∀ u, u ≠ t → phase u (x.trace ++ [.returned t c l]) = phase u x.trace :=
    fun u => phase_other rfl
  refine ⟨h.ok, fun u v hu => ?_, fun u => ?_, fun d => ?_, fun d => ?_, fun d u => ?_⟩
  · have hut : u ≠ t := by
      rintro rfl
      exact hnot _ hu
    simpa [update_of_ne hut] using h.own u v hu
  · by_cases hut : u = t
    · subst hut
      simp [phase_returned_self hphase, Synch.phaseOf, SynchCont.awake]
    · simpa [hother u hut, Synch.phaseOf, update_of_ne hut] using h.phases u
  · simpa [waitingOn_returned] using h.queue d
  · simpa [waitingOn_returned] using h.nodup d
  rw [waitingOn_returned, h.members d u]
  by_cases hut : u = t
  · subst hut
    simp [phase_returned_self hphase, hphase]
  · rw [hother u hut]

/-- `lock_acquire` outside `cv_wait`, or at its end, where the thread returns. -/
theorem CvInv.lockAcquire
    {cv : Option Nat} (hcv : (x.state.cont t).awake = (SynchCont.acquire l cv).awake)
    (hrun : x.state.lockAcquire t l cv mem = .ok (s', notes)) : CvInv ⟨s', x.trace ++ notes⟩ := by
  obtain ⟨ready, hok⟩ := h.ok
  have hnot : ∀ a, ¬ x.state.sched.Asleep t a := fun a => hok.running_not_asleep hcur
  rcases Synch.lockAcquire_ok hrun with ⟨-, hsleep, rfl⟩ | ⟨-, rfl, rfl⟩
  · exact h.sleepIn hcur hsleep (by simp) hcv.symm
  cases cv with
  | none =>
    exact h.moved hcur _ _ h.ok (fun _ _ => .rfl) rfl rfl hcv.symm (by simp [Note.IsCv])
  | some c =>
    have hmid := h.quiet { x.state with busy := update x.state.busy l (some t) }
      [.acquired t l] ⟨ready, hok⟩ (fun _ _ => .rfl) rfl (fun u => .inl rfl)
      (by simp [Note.IsCv])
    have hend := hmid.returned (c := c) (l := l) hnot hcv
    simpa using hend

omit hcur in
theorem CvInv.queued {room : Bool}
    (hroom : room = true ∨ (waitingOn c x.trace).length + 1 < (x.state.sleptThreads c).size) :
    ∃ q, (x.state.sleptThreads c).qAddtail t room = .ok (some q) ∧
      q.Holds (waitingOn c x.trace ++ [t]) := by
  rcases (h.queue c).qAddtail t room with ⟨q, hadd, hq, -⟩ | ⟨hmem, hfull, -⟩
  · exact ⟨q, hadd, hq⟩
  rcases hroom with rfl | hroom
  · cases hmem
  · omega

theorem CvInv.resume
    (hrun : x.state.resume t mem = .ok (s', notes)) : CvInv ⟨s', x.trace ++ notes⟩ := by
  unfold Synch.resume at hrun
  split at hrun
  · cases hrun
    rwa [List.append_nil]
  · cases hrun
    rwa [List.append_nil]
  · rename_i i hk
    exact h.p hcur (by rw [hk]; rfl) hrun
  · rename_i l cv hk
    exact h.lockAcquire hcur (by rw [hk]) hrun
  · rename_i c l hk
    cases hrun
    exact h.moved hcur _ _ h.ok (fun _ _ => .rfl) rfl rfl (by rw [hk]; rfl) (by simp)

omit hcur in
theorem CvInv.entered (s' : Synch) (hok : ∃ ready, s'.sched.Ok ready)
    (hout : phase t x.trace = .out)
    (hasleep : ∀ u v, s'.sched.Asleep u (.thread v) ↔
      x.state.sched.Asleep u (.thread v) ∨ u = t ∧ v = t)
    (hcont : s'.cont = update x.state.cont t (.cvSleep c l)) {q : Queue Tid}
    (hslept : s'.sleptThreads = update x.state.sleptThreads c q)
    (hq : q.Holds (waitingOn c x.trace ++ [t])) : CvInv ⟨s', x.trace ++ [.waits t c l]⟩ := by
  have hother : ∀ u, u ≠ t → phase u (x.trace ++ [.waits t c l]) = phase u x.trace :=
    fun u => phase_other rfl
  have hself := phase_waits_self (c := c) (l := l) hout
  refine ⟨hok, fun u v hu => ?_, fun u => ?_, fun d => ?_, fun d => ?_, fun d u => ?_⟩
  · by_cases hut : u = t
    · subst hut
      rcases (hasleep u v).mp hu with hu | ⟨-, rfl⟩
      · exact ⟨(h.own u v hu).1, c, l, by simp [hcont]⟩
      · exact ⟨rfl, c, l, by simp [hcont]⟩
    · have hu' : x.state.sched.Asleep u (.thread v) := by simpa [hasleep, hut] using hu
      simpa [hcont, update_of_ne hut] using h.own u v hu'
  · by_cases hut : u = t
    · subst hut
      simp [hself, Synch.phaseOf, hcont, hasleep]
    · simpa [hother u hut, Synch.phaseOf, hcont, update_of_ne hut, hasleep, hut] using
        h.phases u
  · by_cases hdc : d = c
    · subst hdc
      simpa [waitingOn_waits, hslept] using hq
    · simpa [waitingOn_waits, hslept, update_of_ne hdc, Ne.symm hdc] using h.queue d
  · rw [waitingOn_waits]
    split
    · refine List.nodup_append'.mpr ⟨h.nodup d, List.nodup_singleton t, ?_⟩
      rw [List.disjoint_singleton, h.members d t, hout]
      simp
    · exact h.nodup d
  · have hmem := h.members d u
    rw [waitingOn_waits]
    by_cases hut : u = t
    · subst hut
      have hno : u ∉ waitingOn d x.trace := by
        rw [hmem, hout]
        simp
      by_cases hcd : c = d
      · subst hcd
        simp [hself]
      · simp [hself, hcd, hno]
    · rw [hother u hut, ← hmem]
      split
      · simp [hut]
      · rfl

/-- The thread is put at the end of the queue and to sleep on its own address. -/
theorem CvInv.cvWait (hnone : x.state.cont t = .none) {mem : Nat → Bool}
    (hroom : mem 0 = true ∨ (waitingOn c x.trace).length + 1 < (x.state.sleptThreads c).size)
    (hrun : x.state.cvWait t c l mem = .ok (s', notes)) : CvInv ⟨s', x.trace ++ notes⟩ := by
  obtain ⟨ready, hok⟩ := h.ok
  obtain ⟨queue, s₁, hadd, hwake, hsleep, rfl⟩ := Synch.cvWait_ok hrun
  obtain ⟨q, hadd', hq⟩ := h.queued hroom
  cases hadd.symm.trans hadd'
  obtain ⟨sched₁, hsched₁, rfl⟩ := Synch.wakeup_ok hwake
  obtain ⟨hok₁, hcur₁, -, -, hasleep₁⟩ := hok.asleep_wakeup hsched₁
  obtain ⟨sched₂, hsched₂, rfl⟩ := Synch.sleepIn_ok hsleep
  obtain ⟨hok₂, -, -, -, hasleep₂⟩ := hok₁.asleep_sleep (hcur₁.trans hcur) hsched₂
  have hasleep : ∀ u v, sched₂.Asleep u (.thread v) ↔
      x.state.sched.Asleep u (.thread v) ∨ u = t ∧ v = t := by
    intro u v
    rw [hasleep₂, hasleep₁]
    simp
  have hnot : ∀ a, ¬ x.state.sched.Asleep t a := fun a => hok.running_not_asleep hcur
  have hout : phase t x.trace = .out := by
    rw [h.phases t, Synch.phaseOf_awake (hnot _), hnone]
    rfl
  have hin := h.entered { x.state with
      sched := sched₂, busy := update x.state.busy l none
      sleptThreads := update x.state.sleptThreads c q
      cont := update x.state.cont t (.cvSleep c l) } ⟨_, hok₂⟩ hout hasleep rfl rfl hq
  have hend := hin.quiet _ [.released t l] hin.ok (fun _ _ => .rfl) rfl (fun _ => .inl rfl)
    (by simp [Note.IsCv])
  simpa using hend

end

theorem CvInv.sleepaddr_iff (ht : x.state.sched.Asleep t (.thread t))
    (hu : u ∈ x.state.sched.sleepers.items) :
    x.state.sched.sleepaddr u = some (.thread t) ↔ u = t := by
  constructor
  · intro haddr
    exact (h.own u t ⟨hu, haddr⟩).1.symm
  · rintro rfl
    exact ht.2

theorem CvInv.filter_onAddr (ht : x.state.sched.Asleep t (.thread t)) :
    x.state.sched.sleepers.items.filter
      (Sched.onAddr x.state.sched.sleepaddr (.thread t)) = [t] := by
  obtain ⟨ready, hok⟩ := h.ok
  have hnd : x.state.sched.sleepers.items.Nodup := by
    have := hok.nodup
    simp only [Sched.placed, List.nodup_append] at this
    exact this.1.1.2.1
  have honly : ∀ u ∈ x.state.sched.sleepers.items,
      Sched.onAddr x.state.sched.sleepaddr (.thread t) u = decide (u = t) := by
    intro u hu
    rw [Sched.onAddr, decide_eq_decide]
    exact h.sleepaddr_iff ht hu
  rw [List.filter_congr honly, List.filter_eq, List.count_eq_one_of_mem hnd ht.1]
  rfl

theorem CvInv.signalled (hok : ∃ ready, s'.sched.Ok ready) (hphase : phase t x.trace = .waiting c l)
    (hasleep : ∀ u v, s'.sched.Asleep u (.thread v) ↔
      x.state.sched.Asleep u (.thread v) ∧ v ≠ t) (hcont : s'.cont = x.state.cont) {q : Queue Tid}
    (hslept : s'.sleptThreads = update x.state.sleptThreads c q)
    (hq : q.Holds ((waitingOn c x.trace).erase t)) : CvInv ⟨s', x.trace ++ [.signalled t c]⟩ := by
  have hother : ∀ u, u ≠ t → phase u (x.trace ++ [.signalled t c]) = phase u x.trace :=
    fun u => phase_other rfl
  have hself := phase_signalled_self hphase
  have hnot : ¬ s'.sched.Asleep t (.thread t) := by simp [hasleep]
  have hawake : (x.state.cont t).awake = .signalled c l := by
    rw [(Synch.phaseOf_waiting ((h.phases t).symm.trans hphase)).1]
    rfl
  refine ⟨hok, fun u v hu => ?_, fun u => ?_, fun d => ?_, fun d => ?_, fun d u => ?_⟩
  · rw [hcont]
    exact h.own u v ((hasleep u v).mp hu).1
  · by_cases hut : u = t
    · subst hut
      rw [hself, Synch.phaseOf_awake hnot, hcont, hawake]
    · simpa [hother u hut, Synch.phaseOf, hcont, hasleep, hut] using h.phases u
  · by_cases hdc : d = c
    · subst hdc
      simpa [waitingOn_signalled, hslept] using hq
    · simpa [waitingOn_signalled, hslept, update_of_ne hdc, Ne.symm hdc] using h.queue d
  · rw [waitingOn_signalled]
    split
    · exact (h.nodup d).erase t
    · exact h.nodup d
  have hmem := h.members d u
  rw [waitingOn_signalled]
  by_cases hut : u = t
  · subst hut
    by_cases hcd : c = d
    · subst hcd
      simp [hself, (h.nodup c).mem_erase_iff]
    have hno : u ∉ waitingOn d x.trace := by
      rw [hmem, hphase]
      simp [hcd]
    simp [hself, hcd, hno]
  · rw [hother u hut, ← hmem]
    split
    · simp [List.mem_erase_of_ne hut]
    · rfl

/-- The threads in the list are moved from `sleepers` to the end of the run queue. -/
def MadeRunnable (s s' : Sched WaitAddr) (ts : List Tid) : Prop :=
  ∃ ready, s.runqueue.Holds ready ∧ s'.runqueue.Holds (ready ++ ts) ∧
    s'.sleepers.items = s.sleepers.items.filter (· ∉ ts)

/-- `cv_signal` wakes the thread that has waited longest. -/
theorem CvInv.cvSignal (hrun : x.state.cvSignal c mem = .ok (s', notes)) :
    ∃ t, waitingOn c x.trace = t :: waitingOn c (x.trace ++ notes) ∧ notes = [.signalled t c] ∧
      CvInv ⟨s', x.trace ++ notes⟩ ∧
      ∀ ready, x.state.sched.Ok ready → s'.sched.Ok (ready ++ [t]) ∧
        s'.sched.sleepers.items = x.state.sched.sleepers.items.filter (· ≠ t) := by
  obtain ⟨t, queue, hrem, rfl, hwake⟩ := Synch.cvSignal_ok hrun
  obtain ⟨rest, hlist, hq⟩ : ∃ rest, waitingOn c x.trace = t :: rest ∧ queue.Holds rest := by
    have hholds := h.queue c
    cases hlist : waitingOn c x.trace with
    | nil =>
      rw [hlist] at hholds
      rw [hholds.qRemhead_empty] at hrem
      cases hrem
    | cons u rest =>
      rw [hlist] at hholds
      obtain ⟨q, hrem', hq, -⟩ := hholds.qRemhead
      rw [hrem] at hrem'
      cases hrem'
      exact ⟨rest, rfl, hq⟩
  obtain ⟨l, hphase⟩ := (h.members c t).mp (by simp [hlist])
  have hsleep := (Synch.phaseOf_waiting ((h.phases t).symm.trans hphase)).2
  obtain ⟨sched, hsched, rfl⟩ := Synch.wakeup_ok hwake
  have herase : (waitingOn c x.trace).erase t = rest := by rw [hlist, List.erase_cons_head]
  refine ⟨t, ?_, rfl, ?_, fun ready hok => ?_⟩
  · rw [waitingOn_signalled, if_pos rfl, herase, hlist]
  · obtain ⟨ready, hok⟩ := h.ok
    obtain ⟨hok', -, -, -, hasleep⟩ := hok.asleep_wakeup hsched
    refine h.signalled ⟨_, hok'⟩ hphase (fun u v => ?_) rfl rfl (herase.symm ▸ hq)
    rw [hasleep]
    simp
  · obtain ⟨hok', -, -, hitems, -⟩ := hok.asleep_wakeup hsched
    rw [h.filter_onAddr hsleep] at hok'
    refine ⟨hok', hitems.trans (List.filter_congr fun u hu => ?_)⟩
    simp [Sched.onAddr, h.sleepaddr_iff hsleep hu]

theorem CvInv.cvBroadcast (hrun : x.state.cvBroadcast c mem = .ok (s', notes)) :
    CvInv ⟨s', x.trace ++ notes⟩ ∧ waitingOn c (x.trace ++ notes) = [] ∧
      MadeRunnable x.state.sched s'.sched (waitingOn c x.trace) := by
  obtain ⟨ready, hok⟩ := h.ok
  have hloop := Synch.broadcastLoop_inv
    (R := fun ns s => CvInv ⟨s, x.trace ++ ns⟩ ∧ ∃ woken,
      waitingOn c x.trace = woken ++ waitingOn c (x.trace ++ ns) ∧ s.sched.Ok (ready ++ woken) ∧
      s.sched.sleepers.items = x.state.sched.sleepers.items.filter (· ∉ woken)) ?_ ?_ hrun
  · obtain ⟨⟨hinv, woken, hlist, hok', hitems⟩, hempty⟩ := hloop
    have hnil : waitingOn c (x.trace ++ notes) = [] := (hinv.queue c).empty_iff.mp hempty
    rw [hnil, List.append_nil] at hlist
    exact ⟨hinv, hnil, ready, hok.queue, hlist ▸ hok'.queue, hlist ▸ hitems⟩
  · refine ⟨by simpa using h, [], by simp, by simpa using hok, by simp⟩
  rintro ns s₁ s₂ ns' ⟨hinv, woken, hlist, hok₁, hitems⟩ hsig
  obtain ⟨t, hhead, -, hinv', hmoved⟩ := hinv.cvSignal hsig
  obtain ⟨hok₂, hitems₂⟩ := hmoved _ hok₁
  simp only [List.append_assoc] at hhead hinv' hok₂ ⊢
  refine ⟨hinv', woken ++ [t], ?_, hok₂, ?_⟩
  · rw [hlist, hhead]
    simp
  · rw [hitems₂, hitems, List.filter_filter]
    simp [and_comm]

end

end History

/-- Every allocation of the call succeeds. -/
def SynchEvent.Mem : SynchEvent → Prop
  | .sched e => e.Mem
  | .cvWait _ _ mem => ∀ i, mem i = true
  | .p _ mem | .v _ mem | .lockAcquire _ mem | .lockRelease _ mem | .cvSignal _ _ mem
  | .cvBroadcast _ _ mem | .reacquire mem | .dispatch mem => mem = true

/-- `cv_signal` is called when a thread waits only. -/
def SynchEvent.Awaited (x : History) : SynchEvent → Prop
  | .cvSignal c _ _ => waitingOn c x.trace ≠ []
  | _ => True

/-- The queue takes the waiting thread. -/
def SynchEvent.Queued (x : History) : SynchEvent → Prop
  | .cvWait c _ mem =>
    mem 0 = true ∨ (waitingOn c x.trace).length + 1 < (x.state.sleptThreads c).size
  | _ => True

namespace History
variable {x y : History} {s' : Synch} {e : SynchEvent} {notes : List Note}

theorem CvInv.exec (h : x.CvInv) (he : e.Enabled x.state) (hq : e.Queued x)
    (hrun : x.state.exec e = .ok (s', notes)) : CvInv ⟨s', x.trace ++ notes⟩ := by
  cases e with
  | sched e =>
    obtain ⟨sched, hsched, hrun⟩ := bind_eq_ok.mp hrun
    cases hrun
    obtain ⟨ready, hok⟩ := h.ok
    have hmove := hok.plainMove he.2.1 ⟨he.1, hsched⟩
    rw [List.append_nil]
    exact h.sched hmove.ok fun u v => hmove.asleep u (.thread v) fun _ => by simp
  | p i mem =>
    obtain ⟨t, hcur, hnone, hrun⟩ := Synch.onCurrent_free he hrun
    exact h.p hcur (by rw [hnone]; rfl) hrun
  | v i mem =>
    obtain ⟨-, rfl, hwake⟩ := Synch.v_ok hrun
    exact h.wakeup hwake (by simp) (by simp [Note.IsCv])
  | lockAcquire l mem =>
    obtain ⟨t, hcur, hnone, hrun⟩ := Synch.onCurrent_free he hrun
    exact h.lockAcquire hcur (by rw [hnone]; rfl) hrun
  | lockRelease l mem =>
    obtain ⟨t, hcur, hrun⟩ := Synch.onCurrent_ok hrun
    obtain ⟨rfl, hwake⟩ := Synch.lockRelease_ok hrun
    exact h.wakeup hwake (by simp) (by simp [Note.IsCv])
  | cvWait c l mem =>
    obtain ⟨t, hcur, hnone, hrun⟩ := Synch.onCurrent_free he hrun
    exact h.cvWait hcur hnone hq hrun
  | cvSignal c l mem =>
    obtain ⟨t, -, hrun⟩ := Synch.onCurrent_ok hrun
    obtain ⟨u, -, -, hinv, -⟩ := h.cvSignal hrun
    exact hinv
  | cvBroadcast c l mem =>
    obtain ⟨t, -, hrun⟩ := Synch.onCurrent_ok hrun
    exact (h.cvBroadcast hrun).1
  | reacquire mem =>
    obtain ⟨t, hcur, hrun⟩ := Synch.onCurrent_ok hrun
    unfold Synch.reacquire at hrun
    split at hrun
    · rename_i c l hk
      exact h.lockAcquire hcur (by rw [hk]; rfl) hrun
    · cases hrun
      rwa [List.append_nil]
  | dispatch mem =>
    obtain ⟨sched, t, hsched, hcur, hrun⟩ := Synch.dispatch_ok hrun
    obtain ⟨ready, hok⟩ := h.ok
    obtain ⟨u, rest, -, hok', -, -, hasleep⟩ := hok.asleep_dispatch he hsched
    exact (h.sched ⟨rest, hok'⟩ fun u v => hasleep u (.thread v)).resume hcur hrun

theorem CvInv.step (h : x.CvInv) (hstep : x.Step e y) (hq : e.Queued x) : y.CvInv := by
  obtain ⟨he, notes, hrun, htrace⟩ := hstep
  have hinv := h.exec he hq hrun
  rwa [← htrace] at hinv

/-- At the return from `cv_wait` the thread holds the lock. -/
theorem holds_of_returned (hstep : x.Step e y) (htrace : y.trace = x.trace ++ notes)
    {t : Tid} {c l : Nat} (hmem : .returned t c l ∈ notes) :
    y.state.busy l = some t ∧ holds l t y.trace = true := by
  obtain ⟨he, notes', hrun, htrace'⟩ := hstep
  obtain rfl : notes = notes' := List.append_cancel_left (htrace.symm.trans htrace')
  cases Synch.exec_effect he hrun with
  | quiet hcount hbusy hnotes =>
    obtain ⟨u, d, heq⟩ := hnotes _ hmem
    cases heq
  | acquired u k cv hfree hcount hbusy hnotes =>
    cases cv with
    | none => simp [hnotes] at hmem
    | some d =>
      obtain ⟨rfl, rfl, rfl⟩ : t = u ∧ c = d ∧ l = k := by simpa [hnotes] using hmem
      refine ⟨by simp [hbusy], ?_⟩
      rw [htrace, hnotes, List.append_cons, holds_cv (by simp [Note.IsCv]), holds_acquired]
      simp
  | p i hpos hbusy hcount hnotes | v i hpos hbusy hcount hnotes => simp [hnotes] at hmem
  | released u k hcur hcall hcount hbusy hnotes =>
    rcases hnotes with rfl | ⟨d, rfl⟩ <;> simp at hmem

theorem CvInv.not_broken (h : x.CvInv) (t : Tid) : phase t x.trace ≠ .broken := by
  rw [h.phases t]
  by_cases hasleep : x.state.sched.Asleep t (.thread t)
  · obtain ⟨-, c, l, hk⟩ := h.own t t hasleep
    simp [Synch.phaseOf, hk, hasleep]
  · rw [Synch.phaseOf_awake hasleep]
    unfold SynchCont.awake
    split <;> simp

end History

open History

/-- Condition variables used under their lock, signalled when a thread waits, and with memory: the
queue of each is the threads that wait on it and are not signalled, in order; `cv_signal` makes the
first of them runnable and `cv_broadcast` all; waits, signals and returns of a thread alternate,
and it holds the lock when it returns. -/
theorem cv_wakeups_exact
    (h : Lts.Run (Lts.Restrict Step fun x e => e.Proper x ∧ e.Mem ∧ e.Awaited x) (boot init) es x) :
    (∀ c, (x.state.sleptThreads c).Holds (waitingOn c x.trace) ∧ (waitingOn c x.trace).Nodup ∧
      ∀ t, t ∈ waitingOn c x.trace ↔ ∃ l, phase t x.trace = .waiting c l) ∧
    (∀ t c l, phase t x.trace = .waiting c l → x.state.sched.Asleep t (.thread t)) ∧
    (∀ c l mem y, x.Step (.cvSignal c l mem) y → ∃ t,
      waitingOn c x.trace = t :: waitingOn c y.trace ∧
      MadeRunnable x.state.sched y.state.sched [t]) ∧
    (∀ c l mem y, x.Step (.cvBroadcast c l mem) y →
      waitingOn c y.trace = [] ∧
      MadeRunnable x.state.sched y.state.sched (waitingOn c x.trace)) ∧
    (∀ t, phase t x.trace ≠ .broken) ∧
    ∀ e y notes, x.Step e y → y.trace = x.trace ++ notes → ∀ t c l, .returned t c l ∈ notes →
      y.state.busy l = some t ∧ holds l t y.trace = true := by
  have hinv : x.CvInv := by
    refine h.invariant CvInv (fun x e y hstep hx => hx.step hstep.1 ?_) .boot
    cases e with
    | cvWait c l mem => exact .inl (hstep.2.2.1 0)
    | _ => trivial
  refine ⟨fun c => ⟨hinv.queue c, hinv.nodup c, hinv.members c⟩, fun t c l ht => ?_,
    fun c l mem y hstep => ?_, fun c l mem y hstep => ?_, hinv.not_broken,
    fun e y notes hstep htrace t c l => holds_of_returned hstep htrace⟩
  · exact (Synch.phaseOf_waiting ((hinv.phases t).symm.trans ht)).2
  · obtain ⟨-, notes, hrun, htrace⟩ := hstep
    obtain ⟨u, -, hrun⟩ := Synch.onCurrent_ok hrun
    obtain ⟨t, hhead, -, -, hmoved⟩ := hinv.cvSignal hrun
    obtain ⟨ready, hok⟩ := hinv.ok
    obtain ⟨hok', hitems⟩ := hmoved ready hok
    rw [htrace]
    exact ⟨t, hhead, ready, hok.queue, hok'.queue, by simpa using hitems⟩
  · obtain ⟨-, notes, hrun, htrace⟩ := hstep
    obtain ⟨u, -, hrun⟩ := Synch.onCurrent_ok hrun
    rw [htrace]
    exact (hinv.cvBroadcast hrun).2

/-- The first thread waits while the second one holds the lock. -/
theorem cv_wakeups_exact_waiting :
    ∃ x, Lts.Run (Lts.Restrict Step fun x e => e.Proper x ∧ e.Mem ∧ e.Awaited x) (boot fun _ => 0)
        [.sched (.fork true fun _ => true), .lockAcquire 0 true, .cvWait 0 0 fun _ => true,
          .dispatch true, .lockAcquire 0 true] x ∧
      (holds 0 1 x.trace = true ∧ waitingOn 0 x.trace = [0] ∧ phase 0 x.trace = .waiting 0 0) ∧
      (x.state.sleptThreads 0).Holds [0] ∧ x.state.sched.Asleep 0 (.thread 0) := by
  refine Lts.exists_run_and ?_ fun x hrun hx => ?_
  · refine ⟨_, restrict_cons ⟨Option.some_ne_none _, trivial, fun _ => ⟨0, rfl, rfl⟩⟩ rfl
        ⟨trivial, fun _ => rfl, trivial⟩
      (restrict_cons ⟨0, rfl, rfl⟩ rfl ⟨?_, rfl, trivial⟩
      (restrict_cons ⟨0, rfl, rfl⟩ rfl ⟨?_, fun _ => rfl, trivial⟩
      (restrict_cons ⟨rfl, rfl⟩ rfl ⟨trivial, rfl, trivial⟩
      (restrict_cons ⟨1, rfl, rfl⟩ rfl ⟨?_, rfl, trivial⟩ .refl)))), rfl, rfl, rfl⟩
    all_goals
      rintro t ⟨rfl⟩
      rfl
  · obtain ⟨hqueue, hasleep, -⟩ := cv_wakeups_exact hrun
    exact ⟨hx.2.1 ▸ (hqueue 0).1, hasleep 0 0 0 hx.2.2⟩

def SynchEvent.IsCvCall : SynchEvent → Prop
  | .cvWait .. | .cvSignal .. | .cvBroadcast .. => True
  | .sched _ | .p .. | .v .. | .lockAcquire .. | .lockRelease .. | .reacquire _
  | .dispatch _ => False

/-- `cv_signal` is called when a thread waits, a full queue can grow, and the scheduler has memory
where it needs it. -/
def SynchEvent.CvCareful (x : History) : SynchEvent → Prop
  | .cvWait c _ mem =>
    (mem 0 = true ∨ (waitingOn c x.trace).length + 1 < (x.state.sleptThreads c).size) ∧
      mem 1 = true ∧ mem 2 = true
  | .cvSignal c _ mem => waitingOn c x.trace ≠ [] ∧ mem = true
  | .cvBroadcast _ _ mem => mem = true
  | .sched _ | .p .. | .v .. | .lockAcquire .. | .lockRelease .. | .reacquire _
  | .dispatch _ => True

namespace History
variable {x y : History} {e : SynchEvent} {t : Tid} {c l n : Nat}

theorem wakeup_true (s : Synch) (addr : WaitAddr) (h : ∃ ready, s.sched.Ok ready) :
    ∃ s', s.wakeup addr true = .ok s' := by
  obtain ⟨ready, hok⟩ := h
  rcases hok.threadWakeup addr true with ⟨q, hrun, -⟩ | ⟨hmem, -⟩
  · exact ⟨_, by rw [Synch.wakeup, hrun]; rfl⟩
  · cases hmem

theorem CvInv.cvSignal_true (h : x.CvInv) (hne : waitingOn c x.trace ≠ []) :
    ∃ r, x.state.cvSignal c true = .ok r := by
  obtain ⟨t, rest, hlist⟩ := List.exists_cons_of_ne_nil hne
  obtain ⟨q, hrem, -⟩ := (hlist ▸ h.queue c).qRemhead
  obtain ⟨s', hwake⟩ := wakeup_true { x.state with
    sleptThreads := update x.state.sleptThreads c q } (.thread t) h.ok
  exact ⟨(s', [.signalled t c]), bind_eq_ok.mpr
    ⟨(t, q), hrem, bind_eq_ok.mpr ⟨s', hwake, rfl⟩⟩⟩

theorem CvInv.broadcastLoop_true (h : x.CvInv) (hn : (waitingOn c x.trace).length ≤ n) :
    ∃ r, Synch.broadcastLoop c true n x.state = .ok r := by
  induction n generalizing x with
  | zero =>
    have hempty := (h.queue c).empty_iff.mpr (List.length_eq_zero_iff.mp (Nat.le_zero.mp hn))
    exact ⟨_, by rw [Synch.broadcastLoop, if_pos hempty]⟩
  | succ n ih =>
    rw [Synch.broadcastLoop]
    by_cases hempty : (x.state.sleptThreads c).qEmpty = true
    · exact ⟨_, if_pos hempty⟩
    rw [if_neg hempty]
    obtain ⟨⟨s₁, notes⟩, hsig⟩ :=
      h.cvSignal_true fun hnil => hempty ((h.queue c).empty_iff.mpr hnil)
    obtain ⟨t, hlist, -, hinv, -⟩ := h.cvSignal hsig
    obtain ⟨⟨s₂, notes'⟩, hrest⟩ := ih hinv (by rw [hlist] at hn; simpa using hn)
    exact ⟨(s₂, notes ++ notes'), bind_eq_ok.mpr
      ⟨_, hsig, bind_eq_ok.mpr ⟨_, hrest, rfl⟩⟩⟩

theorem CvInv.cvWait_true (h : x.CvInv) (hcur : x.state.sched.curthread = some t)
    {mem : Nat → Bool} (hc : SynchEvent.CvCareful x (.cvWait c l mem)) :
    ∃ r, x.state.cvWait t c l mem = .ok r := by
  obtain ⟨ready, hok⟩ := h.ok
  obtain ⟨hroom, hmem1, hmem2⟩ := hc
  obtain ⟨q, hadd, -⟩ := h.queued hroom
  obtain ⟨s₁, hwake⟩ := wakeup_true { x.state with
    sleptThreads := update x.state.sleptThreads c q
    busy := update x.state.busy l none } (.lock l) ⟨ready, hok⟩
  obtain ⟨sched, hsched, rfl⟩ := Synch.wakeup_ok hwake
  obtain ⟨hok₁, hcur₁, -⟩ := hok.asleep_wakeup hsched
  obtain ⟨s₂, hsleep⟩ : ∃ s₂, sched.threadSleep (.thread t) true = .ok s₂ := by
    rcases hok₁.threadSleep (hcur₁.trans hcur) (.thread t) true with ⟨k, hrun, -⟩ | ⟨hmem, -⟩
    · exact ⟨_, hrun⟩
    · cases hmem
  refine ⟨({ x.state with
      sched := s₂
      sleptThreads := update x.state.sleptThreads c q
      busy := update x.state.busy l none
      cont := update x.state.cont t (.cvSleep c l) }, [.waits t c l, .released t l]), ?_⟩
  rw [Synch.cvWait, hmem1, hmem2]
  exact bind_eq_ok.mpr ⟨_, hadd, bind_eq_ok.mpr ⟨_,
    bind_eq_ok.mpr ⟨_, hwake, rfl⟩, bind_eq_ok.mpr ⟨_,
    bind_eq_ok.mpr ⟨_, hsleep, rfl⟩, rfl⟩⟩⟩

theorem CvInv.cvCall (h : x.CvInv) (hcall : e.IsCvCall) (he : e.Enabled x.state)
    (hc : e.CvCareful x) : ∃ y, x.Step e y := by
  suffices hok : ∃ r, x.state.exec e = .ok r by
    obtain ⟨⟨s', notes⟩, hrun⟩ := hok
    exact ⟨⟨s', x.trace ++ notes⟩, he, notes, hrun, rfl⟩
  cases e with
  | cvWait c l mem =>
    obtain ⟨t, hcur, -⟩ := he
    simp only [Synch.exec, Synch.exec.onCurrent, hcur]
    exact h.cvWait_true hcur hc
  | cvSignal c l mem =>
    obtain ⟨t, hcur, -⟩ := he
    obtain ⟨hne, rfl⟩ := hc
    simp only [Synch.exec, Synch.exec.onCurrent, hcur]
    exact h.cvSignal_true hne
  | cvBroadcast c l mem =>
    obtain ⟨t, hcur, -⟩ := he
    obtain rfl : mem = true := hc
    simp only [Synch.exec, Synch.exec.onCurrent, hcur]
    exact h.broadcastLoop_true (h.queue c).room.le
  | _ => exact hcall.elim

end History

theorem History.CvInv.full_queue_strands {s' : Synch} {notes : List Note} {mem : Nat → Bool}
    (h : x.CvInv) (hcur : x.state.sched.curthread = some t)
    (hfull : (waitingOn c x.trace).length + 1 = (x.state.sleptThreads c).size)
    (hmem : mem 0 = false) (hrun : x.state.cvWait t c l mem = .ok (s', notes)) :
    s'.sleptThreads = x.state.sleptThreads ∧ s'.sched.Asleep t (.thread t) := by
  obtain ⟨ready, hok⟩ := h.ok
  obtain ⟨queue, s₁, hadd, hwake, hsleep, -⟩ := Synch.cvWait_ok hrun
  rw [hmem, (h.queue c).qAddtail_full hfull] at hadd
  cases hadd
  obtain ⟨sched₁, hsched₁, rfl⟩ := Synch.wakeup_ok hwake
  obtain ⟨hok₁, hcur₁, -⟩ := hok.asleep_wakeup hsched₁
  obtain ⟨sched₂, hsched₂, rfl⟩ := Synch.sleepIn_ok hsleep
  obtain ⟨-, -, -, -, hasleep⟩ := hok₁.asleep_sleep (hcur₁.trans hcur) hsched₂
  exact ⟨Function.update_eq_self c _, (hasleep t (.thread t)).mpr (.inr ⟨rfl, rfl⟩)⟩

theorem cvInv_careful (h : Lts.Run (Lts.Restrict Step fun x e => e.CvCareful x) (boot init) es x) :
    x.CvInv := by
  refine h.invariant CvInv (fun x e y hstep hx => hx.step hstep.1 ?_) .boot
  cases e with
  | cvWait c l mem => exact hstep.2.1
  | _ => trivial

/-- With the calls made so, no call on a condition variable fails an assertion, and every thread
asleep in `cv_wait` is in the queue. -/
theorem cv_calls_safe
    (h : Lts.Run (Lts.Restrict Step fun x e => e.CvCareful x) (boot init) es x) :
    (∀ e : SynchEvent, e.IsCvCall → e.Enabled x.state → e.CvCareful x → ∃ y, x.Step e y) ∧
      ∀ t c l, x.state.cont t = .cvSleep c l → x.state.sched.Asleep t (.thread t) →
        ∃ ts, (x.state.sleptThreads c).Holds ts ∧ t ∈ ts := by
  have hinv := cvInv_careful h
  refine ⟨fun e hcall he hc => hinv.cvCall hcall he hc, fun t c l hk hasleep => ?_⟩
  refine ⟨_, hinv.queue c, (hinv.members c t).mpr ⟨l, ?_⟩⟩
  rw [hinv.phases t, Synch.phaseOf, hk]
  exact if_pos hasleep

/-- The first thread waits; the second one holds the lock and may signal it or broadcast. -/
theorem cv_calls_safe_broadcast :
    ∃ x, Lts.Run (Lts.Restrict Step fun x e => e.CvCareful x) (boot fun _ => 0)
        [.sched (.fork true fun _ => true), .lockAcquire 0 true, .cvWait 0 0 fun _ => true,
          .dispatch true, .lockAcquire 0 true] x ∧
      (x.state.Free ∧ x.state.cont 0 = .cvSleep 0 0 ∧ x.state.sched.Asleep 0 (.thread 0) ∧
        waitingOn 0 x.trace = [0]) ∧
      (∃ ts, (x.state.sleptThreads 0).Holds ts ∧ 0 ∈ ts) ∧
      (∃ y, x.Step (.cvSignal 0 0 true) y) ∧ ∃ y, x.Step (.cvBroadcast 0 0 true) y := by
  refine Lts.exists_run_and ⟨_,
    restrict_cons ⟨Option.some_ne_none _, trivial, fun _ => ⟨0, rfl, rfl⟩⟩ rfl trivial
      (restrict_cons ⟨0, rfl, rfl⟩ rfl trivial
      (restrict_cons ⟨0, rfl, rfl⟩ rfl ⟨.inl rfl, rfl, rfl⟩ (restrict_cons ⟨rfl, rfl⟩ rfl trivial
      (restrict_cons ⟨1, rfl, rfl⟩ rfl trivial .refl)))), ⟨1, rfl, rfl⟩, rfl, ⟨by decide, rfl⟩, rfl⟩
    fun x hrun hx => ?_
  obtain ⟨hcalls, hqueue⟩ := cv_calls_safe hrun
  exact ⟨hqueue 0 0 0 hx.2.1 hx.2.2.1,
    hcalls _ trivial hx.1 ⟨by rw [hx.2.2.2]; exact List.cons_ne_nil 0 [], rfl⟩,
    hcalls _ trivial hx.1 rfl⟩

/-- `cv_signal` with nobody waiting fails the assertion of `q_remhead`. And a thread that a full
queue cannot take sleeps all the same: no signal will find it. -/
theorem signal_without_waiter_fails :
    (∃ x, Lts.Run Step (boot fun _ => 0) [.lockAcquire 0 true] x ∧ holds 0 0 x.trace = true ∧
      SynchEvent.Enabled x.state (.cvSignal 0 0 true) ∧
      x.state.exec (.cvSignal 0 0 true) = .error .assertion) ∧
    ∀ init es x t c l mem s' notes,
      Lts.Run (Lts.Restrict Step fun x e => e.CvCareful x) (boot init) es x →
      x.state.sched.curthread = some t →
      (waitingOn c x.trace).length + 1 = (x.state.sleptThreads c).size → mem 0 = false →
      x.state.cvWait t c l mem = .ok (s', notes) →
      s'.sleptThreads = x.state.sleptThreads ∧ s'.sched.Asleep t (.thread t) :=
  ⟨⟨_, run_cons ⟨0, rfl, rfl⟩ rfl .refl, rfl, ⟨0, rfl, rfl⟩, rfl⟩,
    fun _ _ _ _ _ _ _ _ _ h => (cvInv_careful h).full_queue_strands⟩

end OS161
