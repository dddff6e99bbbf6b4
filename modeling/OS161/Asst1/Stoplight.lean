import Mathlib.Tactic.FinCases
import OS161.Kern.Containers
import OS161.Lib.Permits
import OS161.Lib.Run

/-! `stoplight.c`: a step of a car is one semaphore operation or one access to the shared data. -/
namespace OS161
namespace Stoplight

open Function (update update_of_ne update_self)

inductive Quadrant where
  | nw | ne | se | sw
  deriving DecidableEq, Repr

instance : Fintype Quadrant := ⟨{.nw, .ne, .se, .sw}, fun q => by cases q <;> decide⟩

/-- `enum { N_W, N_E, S_E, S_W }`, the indices of the wait lists. -/
def nW : Fin 4 := 0
def nE : Fin 4 := 1
def sE : Fin 4 := 2
def sW : Fin 4 := 3

/-- What one branch of the three functions goes through: the quadrant entered, the later ones, and
the wait list looked at on entry. -/
structure Route where
  entry : Quadrant
  rest : List Quadrant
  list : Fin 4

def gostraight : Fin 4 → Route
  | 0 => ⟨.nw, [.sw], nW⟩
  | 1 => ⟨.ne, [.nw], nE⟩
  | 2 => ⟨.se, [.ne], sE⟩
  | 3 => ⟨.sw, [.se], sW⟩

def turnleft : Fin 4 → Route
  | 0 => ⟨.nw, [.sw, .se], nW⟩
  | 1 => ⟨.ne, [.nw, .sw], nE⟩
  | 2 => ⟨.se, [.ne, .nw], sE⟩
  | 3 => ⟨.sw, [.se, .ne], sW⟩

def turnright : Fin 4 → Route
  | 0 => ⟨.nw, [], nW⟩
  | 1 => ⟨.ne, [], nE⟩
  | 2 => ⟨.se, [], sE⟩
  | 3 => ⟨.sw, [], sW⟩

/-- The two random choices of `approachintersection`. -/
structure Car where
  cardirection : Fin 4
  destination : Fin 3

def Car.route (car : Car) : Route :=
  match car.destination with
  | 0 => turnright car.cardirection
  | 1 => turnleft car.cardirection
  | 2 => gostraight car.cardirection

inductive Sem where
  | quadrant (q : Quadrant) | staus
  deriving DecidableEq, Repr

/-- The point a car has come to, with the quadrant it is in and those before it. -/
inductive Pc where
  | start | arriving | queued
  | entry | ask | test | refused | backOff | admitted | counting | counted
  | inside (held : Quadrant) (todo : List Quadrant)
  | handover (held next : Quadrant) (todo : List Quadrant)
  | leaving (held : Quadrant) | uncounted (held : Quadrant) | signing (held : Quadrant)
  | last (held : Quadrant)
  | left
  deriving DecidableEq, Repr

inductive Action where
  | p (sem : Sem) (pc : Pc)
  | v (sem : Sem) (pc : Pc)
  | addtail
  | test
  | remhead
  | carnumberInc
  | carnumberDec (held : Quadrant)
  | carleavingInc (held : Quadrant)
  | stop

/-- The next action of a car. -/
def Route.action (r : Route) : Pc → Action
  | .start => .p .staus .arriving
  | .arriving => .addtail
  | .queued => .v .staus .entry
  | .entry => .p (.quadrant r.entry) .ask
  | .ask => .p .staus .test
  | .test => .test
  | .refused => .v .staus .backOff
  | .backOff => .v (.quadrant r.entry) .entry
  | .admitted => .remhead
  | .counting => .carnumberInc
  | .counted => .v .staus (.inside r.entry r.rest)
  | .inside held (next :: todo) => .p (.quadrant next) (.handover held next todo)
  | .handover held next todo => .v (.quadrant held) (.inside next todo)
  | .inside held [] => .p .staus (.leaving held)
  | .leaving held => .carnumberDec held
  | .uncounted held => .carleavingInc held
  | .signing held => .v .staus (.last held)
  | .last held => .v (.quadrant held) .left
  | .left => .stop

/-- `struct intersection` and where the `n` cars are. -/
structure Crossing (n : Nat) where
  count : Sem → Nat
  waitlist : Fin 4 → Queue (Fin n)
  carnumber : Int
  carleaving : Int
  pc : Fin n → Pc

section model
variable {n : Nat}

def createcars : Crossing n where
  count _ := 1
  waitlist _ := qCreate 20
  carnumber := 0
  carleaving := 0
  pc _ := .start

def isInOrder (waitlist : Queue (Fin n)) (i : Fin n) : Except Crash Bool :=
  if waitlist.qEmpty then .ok true
  else do
    let guy ← waitlist.qGetguy waitlist.qGetstart
    .ok (guy = some i)

namespace Crossing
variable (s : Crossing n)

def goto (i : Fin n) (pc : Pc) : Crossing n := { s with pc := update s.pc i pc }

/-- One action of the car `i`; there is none while it is blocked in `P` or when it has left. The
result of `q_addtail` is not looked at. -/
def step (cars : Fin n → Car) (i : Fin n) (mem : Bool) : Option (Except Crash (Crossing n)) :=
  match (cars i).route.action (s.pc i) with
  | .p sem pc =>
    if s.count sem = 0 then none
    else some (.ok (goto { s with count := update s.count sem (s.count sem - 1) } i pc))
  | .v sem pc =>
    some (.ok (goto { s with count := update s.count sem (s.count sem + 1) } i pc))
  | .addtail => some do
    let list := (cars i).cardirection
    let queue ← (s.waitlist list).qAddtail i mem
    let waitlist := update s.waitlist list (queue.getD (s.waitlist list))
    .ok (goto { s with waitlist := waitlist } i .queued)
  | .test => some do
    let inOrder ← isInOrder (s.waitlist (cars i).route.list) i
    .ok (s.goto i (if s.carnumber > 2 ∨ inOrder = false then .refused else .admitted))
  | .remhead => some do
    let list := (cars i).route.list
    let (_, queue) ← (s.waitlist list).qRemhead
    .ok (goto { s with waitlist := update s.waitlist list queue } i .counting)
  | .carnumberInc => some (.ok (goto { s with carnumber := s.carnumber + 1 } i .counted))
  | .carnumberDec held =>
    some (.ok (goto { s with carnumber := s.carnumber - 1 } i (.uncounted held)))
  | .carleavingInc held =>
    some (.ok (goto { s with carleaving := s.carleaving + 1 } i (.signing held)))
  | .stop => none

end Crossing

def Step (cars : Fin n → Car) (s : Crossing n) (a : Fin n × Bool) (s' : Crossing n) : Prop :=
  s.step cars a.1 a.2 = some (.ok s')

/-- The car waits in `P` for a semaphore whose count is zero. -/
def Blocked (cars : Fin n → Car) (s : Crossing n) (i : Fin n) : Prop :=
  ∃ sem pc, (cars i).route.action (s.pc i) = .p sem pc ∧ s.count sem = 0

end model

/-- The semaphores a car has passed `P` on and not `V` since. -/
def Pc.held (r : Route) : Pc → List Sem
  | .start | .entry | .left => []
  | .arriving | .queued => [.staus]
  | .ask | .backOff => [.quadrant r.entry]
  | .test | .refused | .admitted | .counting | .counted => [.staus, .quadrant r.entry]
  | .inside held _ | .last held => [.quadrant held]
  | .handover held next _ => [.quadrant held, .quadrant next]
  | .leaving held | .uncounted held | .signing held => [.staus, .quadrant held]

/-- The car is between its `carnumber++` and its `carnumber--`. -/
def Pc.counts : Pc → Nat
  | .counted | .inside .. | .handover .. | .leaving _ => 1
  | _ => 0

/-- The order in which the quadrants are gone through. -/
def Quadrant.next : Quadrant → Quadrant
  | .nw => .sw
  | .sw => .se
  | .se => .ne
  | .ne => .nw

/-- The quadrants before the car follow the one it is in. -/
def Pc.onRing : Pc → Prop
  | .inside held todo => (held :: todo).IsChain fun a b => b = a.next
  | .handover held next todo => (held :: next :: todo).IsChain fun a b => b = a.next
  | _ => True

theorem route_onRing (car : Car) : (Pc.inside car.route.entry car.route.rest).onRing := by
  obtain ⟨d, t⟩ := car
  fin_cases t <;> fin_cases d <;> simp [Car.route, gostraight, turnleft, turnright, Pc.onRing,
    Quadrant.next]

variable {r : Route} {pc pc' : Pc} {sem m : Sem}

theorem held_p (h : r.action pc = .p sem pc') :
    (pc'.held r).count m = (pc.held r).count m + if sem = m then 1 else 0 := by
  unfold Route.action at h
  split at h <;> cases h <;> simp only [Pc.held, List.count_cons, List.count_nil, beq_iff_eq]
  all_goals omega

theorem held_v (h : r.action pc = .v sem pc') :
    (pc.held r).count m = (pc'.held r).count m + if sem = m then 1 else 0 := by
  unfold Route.action at h
  split at h <;> cases h <;> simp only [Pc.held, List.count_cons, List.count_nil, beq_iff_eq]

/-- The car has passed the test and is not counted yet. -/
def Pc.admission (pc : Pc) : Prop := pc = .admitted ∨ pc = .counting

/-- A semaphore operation neither counts a car nor admits it, and leads on along the ring. -/
theorem action_sem {car : Car}
    (h : car.route.action pc = .p sem pc' ∨ car.route.action pc = .v sem pc')
    (hring : pc.onRing) : pc'.counts = pc.counts ∧ ¬ pc'.admission ∧ pc'.onRing := by
  unfold Route.action at h
  split at h <;> rcases h with h | h <;> cases h
  all_goals first
    | exact ⟨rfl, by simp [Pc.admission], trivial⟩
    | exact ⟨rfl, by simp [Pc.admission], route_onRing car⟩
    | exact ⟨rfl, by simp [Pc.admission], hring⟩
    | exact ⟨rfl, by simp [Pc.admission], hring.tail⟩

section invariant
variable {n : Nat} {cars : Fin n → Car} {s s' : Crossing n} {i j : Fin n} {mem : Bool}

/-- What the cars hold, by what they have come to. -/
def Crossing.held (cars : Fin n → Car) (s : Crossing n) (i : Fin n) (sem : Sem) : Nat :=
  ((s.pc i).held (cars i).route).count sem

structure Inv (cars : Fin n → Car) (s : Crossing n) : Prop where
  permits : Permits.Balanced s.count (s.held cars) fun _ => 1
  number : s.carnumber = ((∑ i, (s.pc i).counts : Nat) : Int)
  three : s.carnumber ≤ 3
  room : ∀ i, (s.pc i).admission → s.carnumber ≤ 2
  ring : ∀ i, (s.pc i).onRing

open Crossing (held goto step)

theorem Inv.createcars : Inv cars createcars := by
  refine ⟨fun m => ?_, ?_, (by decide : (0 : Int) ≤ 3), fun i hi => ?_, fun i => trivial⟩
  · simp [Stoplight.createcars, held, Pc.held]
  · simp [Stoplight.createcars, Pc.counts]
  · simp [Stoplight.createcars, Pc.admission] at hi

theorem Inv.moved (h : Inv cars s) (hpc : s'.pc = update s.pc i pc')
    (hpermits : Permits.Balanced s'.count (s'.held cars) fun _ => 1)
    (hnumber : s'.carnumber + (s.pc i).counts = s.carnumber + pc'.counts)
    (hthree : s'.carnumber ≤ 3) (hroom : ∀ j, (s'.pc j).admission → s'.carnumber ≤ 2)
    (hring : pc'.onRing) : Inv cars s' := by
  refine ⟨hpermits, ?_, hthree, hroom, fun j => ?_⟩
  · have hsum := Permits.sum_change (i := i) (f := fun j => (s.pc j).counts)
      (g := fun j => (s'.pc j).counts) fun j hj => by rw [hpc, update_of_ne hj]
    have hself : (s'.pc i).counts = pc'.counts := by rw [hpc, update_self]
    have hold := h.number
    omega
  · by_cases hj : j = i
    · rw [hj, hpc, update_self]
      exact hring
    · rw [hpc, update_of_ne hj]
      exact h.ring j

section
variable (hpc : s'.pc = update s.pc i pc')
include hpc

theorem held_other (j : Fin n) (hj : j ≠ i) : s'.held cars j = s.held cars j := by
  funext m
  rw [held, held, hpc, update_of_ne hj]

theorem held_self (m : Sem) : s'.held cars i m = (pc'.held (cars i).route).count m := by
  rw [held, hpc, update_self]

theorem admission_of_update (hno : ¬ pc'.admission)
    (hj : (s'.pc j).admission) : j ≠ i ∧ (s.pc j).admission := by
  have hji : j ≠ i := by
    rintro rfl
    rw [hpc, update_self] at hj
    exact hno hj
  rw [hpc, update_of_ne hji] at hj
  exact ⟨hji, hj⟩

end

theorem Inv.p (h : Inv cars s) (ha : (cars i).route.action (s.pc i) = .p sem pc')
    (hpos : s.count sem ≠ 0) :
    Inv cars (goto
      { s with count := update s.count sem (s.count sem - 1) } i pc') := by
  obtain ⟨hcounts, hno, hring⟩ := action_sem (.inl ha) (h.ring i)
  refine h.moved rfl ?_ ?_ h.three (fun j hj => ?_) hring
  · refine h.permits.take hpos (held_other rfl) fun m => ?_
    rw [held_self rfl, held_p ha]
    rfl
  · rw [hcounts]
    rfl
  · exact h.room j (admission_of_update rfl hno hj).2

theorem Inv.v (h : Inv cars s) (ha : (cars i).route.action (s.pc i) = .v sem pc') :
    Inv cars (goto
      { s with count := update s.count sem (s.count sem + 1) } i pc') := by
  obtain ⟨hcounts, hno, hring⟩ := action_sem (.inr ha) (h.ring i)
  refine h.moved rfl ?_ ?_ h.three (fun j hj => ?_) hring
  · refine h.permits.give (held_other rfl) fun m => (held_v ha).trans ?_
    rw [held_self rfl]
  · rw [hcounts]
    rfl
  · exact h.room j (admission_of_update rfl hno hj).2

theorem Inv.local (h : Inv cars s) (hpc : s'.pc = update s.pc i pc') (hcount : s'.count = s.count)
    (hheld : pc'.held (cars i).route = (s.pc i).held (cars i).route)
    (hnumber : s'.carnumber + (s.pc i).counts = s.carnumber + pc'.counts)
    (hthree : s'.carnumber ≤ 3) (hroom : ∀ j, (s'.pc j).admission → s'.carnumber ≤ 2)
    (hring : pc'.onRing) : Inv cars s' := by
  refine h.moved hpc ?_ hnumber hthree hroom hring
  have hsame : s'.held cars = s.held cars := by
    funext j m
    by_cases hj : j = i
    · rw [hj, held_self hpc, hheld]
      rfl
    · rw [held_other hpc j hj]
  rw [hcount, hsame]
  exact h.permits

theorem action_eq_local (r : Route) (pc : Pc) :
    (r.action pc = .addtail → pc = .arriving) ∧ (r.action pc = .test → pc = .test) ∧
      (r.action pc = .remhead → pc = .admitted) ∧ (r.action pc = .carnumberInc → pc = .counting) ∧
      (∀ q, r.action pc = .carnumberDec q → pc = .leaving q) ∧
      ∀ q, r.action pc = .carleavingInc q → pc = .uncounted q := by
  unfold Route.action
  split <;> simp

/-- Only the holder of `staus` is between the test and the count. -/
theorem Inv.admission_unique (h : Inv cars s) (hi : (s.pc i).admission)
    (hj : (s.pc j).admission) : j = i := by
  have hheld : ∀ j, (s.pc j).admission → s.held cars j .staus ≠ 0 := by
    rintro j (hj | hj) <;> simp [held, hj, Pc.held]
  exact h.permits.holder_unique (k := .staus) rfl (hheld j hj) (hheld i hi)

/-- What a step of the car `i` comes to. -/
inductive Moved (cars : Fin n → Car) (s : Crossing n) (i : Fin n) (mem : Bool) :
    Crossing n → Prop where
  | p {sem : Sem} {pc : Pc} : (cars i).route.action (s.pc i) = .p sem pc → s.count sem ≠ 0 →
      Moved cars s i mem
        (goto { s with count := update s.count sem (s.count sem - 1) } i pc)
  | v {sem : Sem} {pc : Pc} : (cars i).route.action (s.pc i) = .v sem pc →
      Moved cars s i mem
        (goto { s with count := update s.count sem (s.count sem + 1) } i pc)
  | addtail {queue : Option (Queue (Fin n))} : s.pc i = .arriving →
      (s.waitlist (cars i).cardirection).qAddtail i mem = .ok queue →
      Moved cars s i mem (goto { s with
        waitlist := update s.waitlist (cars i).cardirection
          (queue.getD (s.waitlist (cars i).cardirection)) } i .queued)
  | refused : s.pc i = .test → Moved cars s i mem (s.goto i .refused)
  | admitted : s.pc i = .test → s.carnumber ≤ 2 →
      isInOrder (s.waitlist (cars i).route.list) i = .ok true →
      Moved cars s i mem (s.goto i .admitted)
  | remhead {guy : Fin n} {queue : Queue (Fin n)} : s.pc i = .admitted →
      (s.waitlist (cars i).route.list).qRemhead = .ok (guy, queue) →
      Moved cars s i mem (goto { s with
        waitlist := update s.waitlist (cars i).route.list queue } i .counting)
  | count : s.pc i = .counting →
      Moved cars s i mem (goto { s with carnumber := s.carnumber + 1 } i .counted)
  | uncount {held : Quadrant} : s.pc i = .leaving held →
      Moved cars s i mem
        (goto { s with carnumber := s.carnumber - 1 } i (.uncounted held))
  | leave {held : Quadrant} : s.pc i = .uncounted held →
      Moved cars s i mem
        (goto { s with carleaving := s.carleaving + 1 } i (.signing held))

theorem moved_of_step (hstep : Step cars s (i, mem) s') : Moved cars s i mem s' := by
  unfold Step step at hstep
  obtain ⟨harrive, htest, hremhead, hinc, hdec, hleave⟩ :=
    action_eq_local (cars i).route (s.pc i)
  split at hstep
  · rename_i sem pc' ha
    split at hstep
    · cases hstep
    rename_i hpos
    cases hstep
    exact .p ha hpos
  · rename_i sem pc' ha
    cases hstep
    exact .v ha
  · rename_i ha
    obtain ⟨queue, hqueue, hend⟩ := bind_eq_ok.mp (Option.some.inj hstep)
    cases hend
    exact .addtail (harrive ha) hqueue
  · rename_i ha
    obtain ⟨inOrder, horder, hend⟩ := bind_eq_ok.mp (Option.some.inj hstep)
    cases hend
    split
    · exact .refused (htest ha)
    rename_i hpass
    rw [not_or, Bool.not_eq_false] at hpass
    rw [hpass.2] at horder
    exact .admitted (htest ha) (by omega) horder
  · rename_i ha
    obtain ⟨⟨guy, queue⟩, hqueue, hend⟩ := bind_eq_ok.mp (Option.some.inj hstep)
    cases hend
    exact .remhead (hremhead ha) hqueue
  · rename_i ha
    cases hstep
    exact .count (hinc ha)
  · rename_i q ha
    cases hstep
    exact .uncount (hdec q ha)
  · rename_i q ha
    cases hstep
    exact .leave (hleave q ha)
  · cases hstep

theorem Inv.idle (h : Inv cars s) (hpc : s'.pc = update s.pc i pc')
    (hcount : s'.count = s.count) (hcar : s'.carnumber = s.carnumber)
    (hheld : pc'.held (cars i).route = (s.pc i).held (cars i).route)
    (hcounts : pc'.counts = (s.pc i).counts) (hno : ¬ pc'.admission) (hring : pc'.onRing) :
    Inv cars s' := by
  refine h.local hpc hcount hheld ?_ ?_ (fun j hj => ?_) hring
  · rw [hcar, hcounts]
  · rw [hcar]
    exact h.three
  · rw [hcar]
    exact h.room j (admission_of_update hpc hno hj).2

theorem Inv.step (h : Inv cars s) (hstep : Step cars s (i, mem) s') : Inv cars s' := by
  cases moved_of_step hstep with
  | p ha hpos => exact h.p ha hpos
  | v ha => exact h.v ha
  | addtail hpc _ | refused hpc | leave hpc =>
    exact h.idle rfl rfl rfl (by rw [hpc]; rfl) (by rw [hpc]; rfl) (by simp [Pc.admission]) trivial
  | admitted hpc hroom _ =>
    exact h.local rfl rfl (by rw [hpc]; rfl) (by rw [hpc]; rfl) h.three (fun j _ => hroom) trivial
  | remhead hpc _ =>
    exact h.local rfl rfl (by rw [hpc]; rfl) (by rw [hpc]; rfl) h.three
      (fun j _ => h.room i (.inl hpc)) trivial
  | count hpc =>
    have hroom := h.room i (.inr hpc)
    refine h.local rfl rfl (by rw [hpc]; rfl) ?_ (show s.carnumber + 1 ≤ 3 by omega)
      (fun j hj => ?_) trivial
    · rw [hpc]
      simp [goto, Pc.counts]
    · obtain ⟨hji, hj⟩ := admission_of_update rfl (by simp [Pc.admission]) hj
      exact absurd (h.admission_unique (.inr hpc) hj) hji
  | uncount hpc =>
    have hthree := h.three
    refine h.local rfl rfl (by rw [hpc]; rfl) ?_ (show s.carnumber - 1 ≤ 3 by omega)
      (fun j hj => show s.carnumber - 1 ≤ 2 by omega) trivial
    rw [hpc]
    simp [goto, Pc.counts]

/-- The holder of a quadrant, if it is blocked and `staus` is free, waits for the next one. -/
theorem Inv.holder_waits (h : Inv cars s) (hfree : s.count .staus ≠ 0) {q : Quadrant}
    (hheld : s.held cars i (.quadrant q) ≠ 0) (hblocked : Blocked cars s i) :
    ∃ todo, s.pc i = .inside q (q.next :: todo) ∧ s.count (.quadrant q.next) = 0 := by
  obtain ⟨sem, pc', ha, hzero⟩ := hblocked
  have hring := h.ring i
  unfold held at hheld
  cases hpc : s.pc i with
  | inside held todo =>
    rw [hpc] at ha hheld hring
    obtain rfl : held = q := by
      by_contra hne
      exact hheld (by simp [Pc.held, hne])
    cases todo with
    | nil =>
      cases ha
      exact absurd hzero hfree
    | cons next todo =>
      obtain rfl : next = held.next := by simpa using (List.isChain_cons_cons.mp hring).1
      cases ha
      exact ⟨todo, rfl, hzero⟩
  | ask =>
    rw [hpc] at ha
    cases ha
    exact absurd hzero hfree
  | _ =>
    rw [hpc] at ha hheld
    first
    | exact absurd rfl hheld
    | cases ha

theorem Quadrant.forall_of_next {P : Quadrant → Prop} {q : Quadrant} (hq : P q)
    (hnext : ∀ q, P q → P q.next) (q' : Quadrant) : P q' := by
  have h1 := hnext _ hq
  have h2 := hnext _ h1
  have h3 := hnext _ h2
  cases q <;> cases q' <;> assumption

theorem holder_not_left (hheld : s.held cars i sem ≠ 0) : s.pc i ≠ .left := by
  intro hpc
  simp [held, hpc, Pc.held] at hheld

theorem Inv.staus_free (h : Inv cars s) (hall : ∀ i, s.pc i ≠ .left → Blocked cars s i) :
    s.count .staus ≠ 0 := by
  intro hzero
  obtain ⟨i, hheld⟩ := h.permits.exists_holder Nat.one_ne_zero hzero
  obtain ⟨sem, pc', ha, -⟩ := hall i (holder_not_left hheld)
  unfold held at hheld
  cases hpc : s.pc i with
  | inside held todo =>
    rw [hpc] at hheld
    simp [Pc.held] at hheld
  | _ =>
    rw [hpc] at ha hheld
    cases ha <;> simp [Pc.held] at hheld

theorem Inv.cars_inside (h : Inv cars s) :
    (Finset.univ.filter fun i => (s.pc i).counts ≠ 0).card ≤ 3 := by
  have hle : (Finset.univ.filter fun i => (s.pc i).counts ≠ 0).card ≤ ∑ i, (s.pc i).counts := by
    rw [Finset.card_eq_sum_ones, Finset.sum_filter]
    refine Finset.sum_le_sum fun i _ => ?_
    split
    · rename_i hne
      exact Nat.one_le_iff_ne_zero.mpr hne
    · exact Nat.zero_le _
  have hnumber := h.number
  have hthree := h.three
  omega

/-- Blocked cars would stand in all four quadrants, each waiting for the next. -/
theorem Inv.no_deadlock (h : Inv cars s) (hi : s.pc i ≠ .left)
    (hall : ∀ i, s.pc i ≠ .left → Blocked cars s i) : False := by
  have hfree := h.staus_free hall
  have hwaits : ∀ q, s.count (.quadrant q) = 0 →
      ∃ i todo, s.pc i = .inside q (q.next :: todo) ∧ s.count (.quadrant q.next) = 0 := by
    intro q hzero
    obtain ⟨i, hheld⟩ := h.permits.exists_holder Nat.one_ne_zero hzero
    exact ⟨i, h.holder_waits hfree hheld (hall i (holder_not_left hheld))⟩
  obtain ⟨q, hq⟩ : ∃ q, s.count (.quadrant q) = 0 := by
    obtain ⟨sem, pc', -, hzero⟩ := hall i hi
    cases sem with
    | quadrant q => exact ⟨q, hzero⟩
    | staus => exact absurd hzero hfree
  have hzero : ∀ q, s.count (.quadrant q) = 0 :=
    Quadrant.forall_of_next hq fun q hq => by
      obtain ⟨i, todo, -, hnext⟩ := hwaits q hq
      exact hnext
  choose car todo hcar _ using fun q => hwaits q (hzero q)
  have hinj : Function.Injective car := by
    intro a b hab
    have hpc := hcar a
    rw [hab, hcar b] at hpc
    cases hpc
    rfl
  have hfour : (Finset.univ.image car).card ≤ 3 := by
    refine (Finset.card_le_card fun i hi => ?_).trans h.cars_inside
    obtain ⟨q, -, rfl⟩ := Finset.mem_image.mp hi
    rw [Finset.mem_filter, hcar q]
    exact ⟨Finset.mem_univ _, Nat.one_ne_zero⟩
  rw [Finset.card_image_of_injective _ hinj] at hfour
  exact absurd hfour (by decide)

end invariant

/-- Whatever way the cars come from and turn and however their steps interleave: a quadrant is
held by one car at most, at most three cars are counted as inside, and it never happens that some
car has not left while all such cars are blocked. -/
theorem intersection_safe {n : Nat} (cars : Fin n → Car) {as : List (Fin n × Bool)}
    {s : Crossing n} (h : Lts.Run (Step cars) createcars as s) :
    (∀ q i j, s.held cars i (.quadrant q) ≠ 0 → s.held cars j (.quadrant q) ≠ 0 → i = j) ∧
      (Finset.univ.filter fun i => (s.pc i).counts ≠ 0).card ≤ 3 ∧
      ¬ ((∃ i, s.pc i ≠ .left) ∧ ∀ i, s.pc i ≠ .left → Blocked cars s i) := by
  have hinv : Inv cars s := h.invariant (Inv cars) (fun _ _ _ hstep hs => hs.step hstep) .createcars
  refine ⟨fun q i j hi hj => hinv.permits.holder_unique rfl hi hj, hinv.cars_inside, ?_⟩
  rintro ⟨⟨i, hi⟩, hall⟩
  exact hinv.no_deadlock hi hall

/-- Two cars from the north turn right: the first is in the north-west quadrant, for which the
second one waits. -/
theorem intersection_safe_queue :
    ∃ s : Crossing 2, Lts.Run (Step fun _ => ⟨0, 0⟩) createcars
        (List.replicate 9 (0, true) ++ List.replicate 3 (1, true)) s ∧
      (s.pc 0 = .inside .nw [] ∧ Blocked (fun _ => ⟨0, 0⟩) s 1) ∧
      ¬ ((∃ i, s.pc i ≠ .left) ∧ ∀ i, s.pc i ≠ .left → Blocked (fun _ => ⟨0, 0⟩) s i) := by
  refine Lts.exists_run_and ⟨_, .head rfl (.head rfl (.head rfl (.head rfl (.head rfl (.head rfl
    (.head rfl (.head rfl (.head rfl (.head rfl (.head rfl (.head rfl .refl))))))))))),
    rfl, _, _, rfl, rfl⟩ fun s hrun _ => (intersection_safe _ hrun).2.2

end Stoplight
end OS161
