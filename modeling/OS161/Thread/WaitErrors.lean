import OS161.Thread.Refine

/-! `sys_wait` frees the slot and removes the child before it copies the status out. -/
namespace OS161

open Threads

/-- What a call of `sys_wait` comes to until it sleeps or returns. -/
inductive WaitResult where
  | failed (e : Errno) (s : Threads)
  | asleep (s : Threads)
  | returned (ret : Word) (s : Threads)
  | crashed (c : Crash)

namespace Threads
variable (s : Threads) (p : Nat)

/-- `sys_wait` from the point on where it reads the code; `copyout` is the result of `copyout`. -/
def sysWaitEnd (index : Nat) (copyout : Option Errno) (item : ChildInfo) : WaitResult :=
  let s := s.reap p item.childTid index
  match copyout with
  | some e => .failed e s
  | none => .returned item.ret s

def sysWait (tid : Nat) (option : Word) (copyout : Option Errno) : WaitResult :=
  if option ≠ 0#32 then .failed .einval s
  else
    match s.findChild p tid with
    | none => .failed .einval s
    | some index =>
      match (s.thread p).childList[index]? with
      | none => .crashed .assertion
      | some item =>
        if item.status ≠ .dead then .asleep (s.join p tid index)
        else s.sysWaitEnd p index copyout item

end Threads

/-- A call of `sys_wait`, or the rest of one that has slept. -/
inductive WaitCall where
  | start (tid : Nat) (option : Word)
  | resume (index : Nat)

namespace Threads
variable (s : Threads) (p : Nat)

def wait (copyout : Option Errno) : WaitCall → WaitResult
  | .start tid option => s.sysWait p tid option copyout
  | .resume index =>
    match (s.thread p).childList[index]? with
    | none => .crashed .assertion
    | some item => s.sysWaitEnd p index copyout item

/-- The child has exited, and the code can still be had. -/
structure Waitable (tid : Nat) (ret : Word) : Prop where
  returns : ∃ s', s.sysWait p tid 0#32 none = .returned ret s'
  slot : (s.table.table tid).isFree = false

/-- A call that fails leaves every child to be waited for. -/
def KeepsChildren (copyout : Option Errno) (call : WaitCall) : Prop :=
  ∀ e s', s.wait p copyout call = .failed e s' →
    ∀ tid ret, s.Waitable p tid ret → s'.Waitable p tid ret

/-- The call gets to the point where it reads the code of this child. -/
def Reaches (index : Nat) (item : ChildInfo) : WaitCall → Prop
  | .start tid option => option = 0#32 ∧ s.findChild p tid = some index ∧
      (s.thread p).childList[index]? = some item ∧ item.status = .dead
  | .resume i => i = index ∧ (s.thread p).childList[index]? = some item

/-- The call gets to a child that has exited. -/
def FindsDead (call : WaitCall) : Prop :=
  ∃ index item, s.Reaches p index item call ∧ item.status = .dead

/-- The children have tids of their own, whose slots are taken. -/
structure Kin : Prop where
  nodup : ((s.thread p).childList.map ChildInfo.childTid).Nodup
  taken : ∀ item ∈ (s.thread p).childList, (s.table.table item.childTid).isFree = false

end Threads

variable {s s' : Threads} {p tid index : Nat} {option : Word} {copyout : Option Errno}
  {item : ChildInfo} {ret : Word} {call : WaitCall}

theorem Threads.Reaches.getElem? (hr : s.Reaches p index item call) :
    (s.thread p).childList[index]? = some item := by
  cases call with
  | start tid option => exact hr.2.2.1
  | resume i => exact hr.2

theorem Threads.Reaches.wait_eq (hr : s.Reaches p index item call) :
    s.wait p copyout call = s.sysWaitEnd p index copyout item := by
  cases call with
  | start tid option =>
    obtain ⟨rfl, hc, hi, hd⟩ := hr
    simp only [Threads.wait, sysWait, ne_eq, not_true_eq_false, if_false, hc, hi, hd]
  | resume i =>
    obtain ⟨rfl, hi⟩ := hr
    simp only [Threads.wait, hi]

/-- A call that does not get to a child changes nothing when it fails. -/
theorem wait_failed {e : Errno} (h : s.wait p copyout call = .failed e s') :
    s' = s ∨ ∃ index item, s.Reaches p index item call ∧ copyout = some e ∧
      s' = s.reap p item.childTid index := by
  have hend : ∀ {index item}, s.Reaches p index item call → ∃ index item,
      s.Reaches p index item call ∧ copyout = some e ∧ s' = s.reap p item.childTid index := by
    intro index item hr
    rw [hr.wait_eq] at h
    cases copyout with
    | none => cases h
    | some e' =>
      cases h
      exact ⟨index, item, hr, rfl, rfl⟩
  cases call with
  | start tid option =>
    by_cases ho : option = 0#32
    · cases hc : s.findChild p tid with
      | none =>
        simp only [Threads.wait, sysWait, ho, ne_eq, not_true_eq_false, if_false, hc] at h
        cases h
        exact .inl rfl
      | some index =>
        cases hi : (s.thread p).childList[index]? with
        | none => simp [Threads.wait, sysWait, ho, hc, hi] at h
        | some item =>
          by_cases hd : item.status = .dead
          · exact .inr (hend ⟨ho, hc, hi, hd⟩)
          · simp [Threads.wait, sysWait, ho, hc, hi, hd] at h
    · simp only [Threads.wait, sysWait, ne_eq, ho, not_false_eq_true, if_true] at h
      cases h
      exact .inl rfl
  | resume index =>
    cases hi : (s.thread p).childList[index]? with
    | none => simp [Threads.wait, hi] at h
    | some item => exact .inr (hend ⟨rfl, hi⟩)

theorem childList_reap (s : Threads) (p tid index : Nat) :
    ((s.reap p tid index).thread p).childList = (s.thread p).childList.eraseIdx index := by
  simp only [reap, Threads.set, Function.update_self]

section kin
variable (h : s.Kin p)
include h

theorem Threads.Kin.index_eq {i j : Nat} {x y : ChildInfo}
    (hi : (s.thread p).childList[i]? = some x) (hj : (s.thread p).childList[j]? = some y)
    (ht : x.childTid = y.childTid) : i = j := by
  have hget : ((s.thread p).childList.map ChildInfo.childTid)[i]? =
      ((s.thread p).childList.map ChildInfo.childTid)[j]? := by
    rw [List.getElem?_map, List.getElem?_map, hi, hj, Option.map_some, Option.map_some, ht]
  have hlt : i < ((s.thread p).childList.map ChildInfo.childTid).length := by
    rw [List.length_map]
    exact (List.getElem?_eq_some_iff.mp hi).1
  exact (List.getElem?_inj hlt h.nodup).mp hget

section
variable (hi : (s.thread p).childList[index]? = some item)
include hi

theorem Threads.Kin.findChild_eq : s.findChild p item.childTid = some index := by
  cases hf : s.findChild p item.childTid with
  | none =>
    have hnot := List.findIdx?_eq_none_iff.mp hf item (List.mem_of_getElem? hi)
    simp at hnot
  | some j =>
    obtain ⟨hlt, htid, -⟩ := List.findIdx?_eq_some_iff_getElem.mp hf
    rw [h.index_eq (List.getElem?_eq_getElem hlt) hi (by simpa using htid)]

omit hi in
/-- The children that can be waited for are the dead ones of the list. -/
theorem Threads.Kin.waitable_iff :
    s.Waitable p tid ret ↔ ⟨tid, ret, .dead⟩ ∈ (s.thread p).childList := by
  constructor
  · rintro ⟨⟨s', hs'⟩, -⟩
    cases hc : s.findChild p tid with
    | none => simp [sysWait, hc] at hs'
    | some index =>
      cases hi : (s.thread p).childList[index]? with
      | none => simp [sysWait, hc, hi] at hs'
      | some item =>
        have htid := childTid_of_findChild hc hi
        have hmem := List.mem_of_getElem? hi
        by_cases hd : item.status = .dead
        · simp only [sysWait, ne_eq, not_true_eq_false, if_false, hc, hi, hd, sysWaitEnd,
            WaitResult.returned.injEq] at hs'
          rwa [← htid, ← hs'.1, ← hd]
        · simp [sysWait, hc, hi, hd] at hs'
  · intro hmem
    obtain ⟨index, hi⟩ := List.mem_iff_getElem?.mp hmem
    have hr : s.Reaches p index ⟨tid, ret, .dead⟩ (.start tid 0#32) :=
      ⟨rfl, h.findChild_eq hi, hi, rfl⟩
    exact ⟨⟨_, hr.wait_eq⟩, h.taken _ hmem⟩

theorem Threads.Kin.mem_reap {x : ChildInfo} :
    x ∈ (s.thread p).childList.eraseIdx index ↔
      x ∈ (s.thread p).childList ∧ x.childTid ≠ item.childTid := by
  rw [List.mem_eraseIdx_iff_getElem?]
  constructor
  · rintro ⟨j, hne, hj⟩
    exact ⟨List.mem_of_getElem? hj, fun ht => hne (h.index_eq hj hi ht)⟩
  rintro ⟨hx, hne⟩
  obtain ⟨j, hj⟩ := List.mem_iff_getElem?.mp hx
  refine ⟨j, ?_, hj⟩
  rintro rfl
  rw [hj, Option.some.injEq] at hi
  exact hne (congrArg _ hi)

theorem Threads.Kin.reap : (s.reap p item.childTid index).Kin p := by
  refine ⟨?_, ?_⟩
  · rw [childList_reap]
    exact h.nodup.sublist ((List.eraseIdx_sublist ..).map _)
  intro x hx
  rw [childList_reap, h.mem_reap hi] at hx
  have hslot : (s.reap p item.childTid index).table.table x.childTid =
      s.table.table x.childTid := Function.update_of_ne hx.2 ..
  rw [hslot]
  exact h.taken x hx.1

theorem Threads.Kin.waitable_reap :
    (s.reap p item.childTid index).Waitable p tid ret ↔
      s.Waitable p tid ret ∧ tid ≠ item.childTid := by
  rw [(h.reap hi).waitable_iff, childList_reap, h.mem_reap hi, h.waitable_iff]

end

/-- A call of `sys_wait` that fails leaves the children to be waited for exactly unless it has got
to one that has exited and the copy of the status fails. -/
theorem failed_wait_keeps_iff (copyout : Option Errno) (call : WaitCall) :
    s.KeepsChildren p copyout call ↔ ¬ (s.FindsDead p call ∧ copyout ≠ none) := by
  constructor
  · rintro hkeeps ⟨⟨index, item, hr, hd⟩, hne⟩
    obtain ⟨e, rfl⟩ := Option.ne_none_iff_exists'.mp hne
    have hmem := List.mem_of_getElem? hr.getElem?
    have hw : s.Waitable p item.childTid item.ret := by
      rw [h.waitable_iff, ← hd]
      exact hmem
    have hlost := hkeeps e _ (hr.wait_eq.trans rfl) _ _ hw
    exact ((h.waitable_reap hr.getElem?).mp hlost).2 rfl
  · intro hnot e s' hfail tid ret hw
    rcases wait_failed hfail with rfl | ⟨index, item, hr, rfl, rfl⟩
    · exact hw
    -- The child that goes is not dead, so it is not one of those with a code.
    · refine (h.waitable_reap hr.getElem?).mpr ⟨hw, ?_⟩
      rintro rfl
      have heq := List.inj_on_of_nodup_map h.nodup (h.waitable_iff.mp hw)
        (List.mem_of_getElem? hr.getElem?) rfl
      exact hnot ⟨⟨index, item, hr, heq ▸ rfl⟩, Option.some_ne_none e⟩

end kin

theorem Sim.kin {F : Processes} (h : Sim s F) (hwf : F.WF) (hp : F.fate p = .alive) : s.Kin p := by
  have hkids := h.link.children p hp
  have htids : (s.thread p).childList.map ChildInfo.childTid = (F.kids p).map F.tid := by
    refine List.forall₂_eq_eq_eq ▸ List.forall₂_map_left_iff.mpr ?_
    exact List.forall₂_map_right_iff.mpr (hkids.imp fun _ _ hx => hx.tid)
  refine ⟨?_, ?_⟩
  · rw [htids]
    refine (hwf.nodup p).map_on ?_
    intro x hx y hy ht
    exact hwf.tids x y (hwf.kid p x hx).2 (hwf.kid p y hy).2 ht
  · intro item hitem
    have hmem : item.childTid ∈ (F.kids p).map F.tid := htids ▸ List.mem_map_of_mem hitem
    obtain ⟨x, hx, ht⟩ := List.mem_map.mp hmem
    rw [Bool.eq_false_iff]
    exact fun hfree => h.table.free hfree (hwf.kid p x hx).2 ht

/-- In a run in which no fork fails with its slot taken the children of a process that is alive have
tids of their own. -/
theorem run_kin {found : Option Nat} {es : List ThreadEvent}
    (h : Lts.Run (Lts.Restrict ThreadStep CleanFork) (threadBootstrap found) es s)
    (hp : s.Alive p) : s.Kin p := by
  obtain ⟨F, ht, hsim, -⟩ := run_refines h
  exact hsim.kin ht.wf (hsim.alive_of_running hp.1 hp.2)

namespace Launch

theorem kin_exited : (afterExit doubled 2 7#32).Kin 1 :=
  run_kin (run_history.mono fun _ _ _ hs => ⟨hs.1, hs.2.1⟩)
    ⟨by decide +kernel, by decide +kernel⟩

theorem reaches_exited :
    (afterExit doubled 2 7#32).Reaches 1 0 ⟨36, 7#32, .dead⟩ (.start 36 0#32) :=
  ⟨rfl, by decide +kernel, by decide +kernel, rfl⟩

/-- A wait for a process that is no child leaves the child that has exited. -/
theorem failed_wait_keeps_other :
    (afterExit doubled 2 7#32).KeepsChildren 1 (some .efault) (.start 35 0#32) := by
  refine (failed_wait_keeps_iff kin_exited _ _).mpr ?_
  rintro ⟨⟨index, item, ⟨-, hc, -⟩, -⟩, -⟩
  cases hc

/-- The program waits for its child with a bad pointer and can then not get the code. -/
theorem failed_wait_reaps :
    ∃ s', (afterExit doubled 2 7#32).sysWait 1 36 0#32 (some .efault) = .failed .efault s' ∧
      (afterExit doubled 2 7#32).Waitable 1 36 7#32 ∧ ¬ s'.Waitable 1 36 7#32 ∧
      s'.sysWait 1 36 0#32 none = .failed .einval s' := by
  refine ⟨_, reaches_exited.wait_eq, ?_, ?_, ?_⟩
  · exact kin_exited.waitable_iff.mpr (List.mem_of_getElem? reaches_exited.getElem?)
  · exact fun hw => ((kin_exited.waitable_reap reaches_exited.getElem?).mp hw).2 rfl
  have hnone : ((afterExit doubled 2 7#32).reap 1 36 0).findChild 1 36 = none := by
    decide +kernel
  simp only [sysWait, ne_eq, not_true_eq_false, if_false, hnone]

end Launch

end OS161
