import OS161.Kern.Containers
import OS161.Thread.Threads
import OS161.Vm.AsCopy
import OS161.Vm.Frames

/-! `thread_fork` with each of its allocations; the buffers of containers are not counted. -/
namespace OS161

open Finset (subset_insert mem_erase mem_insert_self erase_insert)

/-- What `thread_fork` works on. -/
structure Kstate where
  mem : Kmem
  /-- `process_table`, with the addresses of the threads. -/
  table : Hashtable Word
  /-- Of the current thread, 0 for NULL. -/
  tCwd : Word
  tVmspace : AddrSpace
  childList : Arr Word
  sleepers : Arr Word
  zombies : Arr Word
  runqueue : Queue Word
  numthreads : Nat
  curspl : Nat

/-- The arguments: whether there is a name, whether the thread is to start in `md_forkentry`, and
what `snprintf` makes of its address. -/
structure ForkCall where
  named : Bool
  user : Bool
  key : List Byte

/-- What the calls of `kmalloc` return, in their order, and what the local variable `s` holds until
it is set. -/
structure ForkBlocks where
  thread : Option Word
  nameCopy : Option Word
  childList : Option Word
  name : Option Word
  copy : CopyMem
  entry : Option Word
  key : Option Word
  /-- What stood in the place of the new entry's pointer. -/
  found : Word
  item : Option Word
  listRoom : Bool
  sleepersRoom : Bool
  zombiesRoom : Bool
  queueRoom : Bool
  tailRoom : Bool
  spl : Nat

/-- Where the function fails. -/
inductive ForkPoint where
  | thread | kstrdup | stack | name | asCopy | slot | item | childList
  | sleepers | zombies | scheduler | runnable
  deriving DecidableEq

/-- The parts of the new thread that `fail` gives back. -/
structure Kid where
  thread : Word
  stack : Vaddr
  name : Word
  deriving DecidableEq

inductive ForkEnd where
  | failed (point : ForkPoint) (e : Errno)
  | forked (kid : Kid) (tid : Nat) (space : Option (Word × AddrSpace))

def splMax : Nat := 15

def Kmem.kfree (k : Kmem) (addr : Word) : Kmem := { k with blocks := k.blocks.erase addr }

/-- The block of a call of `kmalloc` that may fail. -/
def Kmem.take (k : Kmem) : Option Word → Kmem
  | some addr => k.kmalloc addr
  | none => k

/-- How far `kmalloc` gets in `ht_add_element`. -/
def ForkBlocks.add (b : ForkBlocks) : AddMem Word :=
  match b.entry, b.key with
  | none, _ => .noEntry
  | some _, none => .noKey b.found
  | some _, some _ => .enough

/-- The blocks that `ht_add_element` has taken by the time it returns. -/
def ForkBlocks.takeEntry (b : ForkBlocks) (k : Kmem) : Kmem :=
  match b.entry with
  | none => k
  | some entry => (k.kmalloc entry).take b.key

namespace Kstate
variable (k : Kstate)

def increfCwd : Kmem := if k.tCwd = 0#32 then k.mem else k.mem.vopIncref k.tCwd

def decrefCwd : Except Crash Kmem := if k.tCwd = 0#32 then .ok k.mem else k.mem.vopDecref k.tCwd

/-- `thread_create`. The test for a failed `array_create` is missing. -/
def threadCreate (call : ForkCall) (b : ForkBlocks) : Except ForkPoint Word × Kstate :=
  match b.thread with
  | none => (.error .thread, k)
  | some thread =>
    let k := { k with mem := k.mem.kmalloc thread }
    if call.named then
      match b.nameCopy with
      | none => (.error .kstrdup, { k with mem := k.mem.kfree thread })
      | some name => (.ok thread, { k with mem := (k.mem.kmalloc name).take b.childList })
    else (.ok thread, { k with mem := k.mem.take b.childList })

/-- The label `fail`; `s` is what the variable holds by then. -/
def fail (kid : Kid) (s : Nat) (point : ForkPoint) (e : Errno) :
    Except Crash (ForkEnd × Kstate) := do
  let k := { k with curspl := s }
  let mem ← k.decrefCwd
  let mem := { mem with mach := mem.mach.kfreePage kid.stack }
  return (.failed point e, { k with mem := (mem.kfree kid.name).kfree kid.thread })

/-- From the preallocations on, with interrupts off. -/
def forkRunnable (b : ForkBlocks) (kid : Kid) (tid : Nat) (space : Option (Word × AddrSpace)) :
    Except Crash (ForkEnd × Kstate) := do
  let s := k.curspl
  let k := { k with curspl := splMax }
  match ← k.sleepers.arrayPreallocate (k.numthreads + 1) b.sleepersRoom with
  | none => k.fail kid s .sleepers .enomem
  | some sleepers =>
    let k := { k with sleepers := sleepers }
    match ← k.zombies.arrayPreallocate (k.numthreads + 1) b.zombiesRoom with
    | none => k.fail kid s .zombies .enomem
    | some zombies =>
      let k := { k with zombies := zombies }
      match ← k.runqueue.qPreallocate (k.numthreads + 1) b.queueRoom with
      | none => k.fail kid s .scheduler .enomem
      | some runqueue =>
        let k := { k with runqueue := runqueue }
        match ← k.runqueue.qAddtail kid.thread b.tailRoom with
        | none => k.fail kid s .runnable .enomem
        | some runqueue =>
          return (.forked kid tid space,
            { k with runqueue := runqueue, numthreads := k.numthreads + 1, curspl := s })

/-- From the `child_info` on. -/
def forkItem (b : ForkBlocks) (kid : Kid) (tid : Nat) (space : Option (Word × AddrSpace)) :
    Except Crash (ForkEnd × Kstate) :=
  match b.item with
  | none => k.fail kid b.spl .item .enomem
  | some item => do
    let k := { k with mem := k.mem.kmalloc item }
    match ← k.childList.arrayAdd item b.listRoom with
    | none => k.fail kid b.spl .childList .enomem
    | some list =>
      let k := { k with childList := list }
      k.forkRunnable b kid tid space

/-- From `ht_add_element` on. -/
def forkSlot (call : ForkCall) (b : ForkBlocks) (kid : Kid) (space : Option (Word × AddrSpace)) :
    Except Crash (ForkEnd × Kstate) :=
  if (k.table.probe ((hashfunction call.key).toNat % k.table.size) k.table.size 0).isNone then
    k.fail kid b.spl .slot .enomem
  else
    let k := { k with mem := b.takeEntry k.mem }
    match k.table.htAddElement call.key kid.thread b.add with
    | (none, table) => { k with table := table }.fail kid b.spl .slot .enomem
    | (some tid, table) => { k with table := table }.forkItem b kid tid space

/-- From `as_copy` on. -/
def forkSpace (call : ForkCall) (b : ForkBlocks) (kid : Kid) : Except Crash (ForkEnd × Kstate) :=
  if call.user then do
    match ← k.mem.asCopy k.tVmspace b.copy with
    | (.error e, mem) =>
      let k := { k with mem := mem }
      k.fail kid b.spl .asCopy e
    | (.ok space, mem) =>
      let k := { k with mem := mem }
      k.forkSlot call b kid (some space)
  else k.forkSlot call b kid none

def threadFork (call : ForkCall) (b : ForkBlocks) : Except Crash (ForkEnd × Kstate) :=
  match k.threadCreate call b with
  | (.error point, k) => .ok (.failed point .enomem, k)
  | (.ok thread, k) =>
    match k.mem.mach.kmallocPage with
    | (none, m) =>
      .ok (.failed .stack .enomem, { k with mem := { k.mem with mach := m }.kfree thread })
    | (some stack, m) =>
      let k := { k with mem := { k.mem with mach := m } }
      let k := { k with mem := k.increfCwd }
      match b.name with
      | none => k.fail ⟨thread, stack, 0#32⟩ b.spl .name .enomem
      | some name => { k with mem := k.mem.kmalloc name }.forkSpace call b ⟨thread, stack, name⟩

end Kstate

/-- The state after `fail`. -/
structure GaveUp (k : Kstate) (kid : Kid) (s : Nat) (k' : Kstate) : Prop where
  table : k'.table = k.table
  childList : k'.childList = k.childList
  runqueue : k'.runqueue = k.runqueue
  numthreads : k'.numthreads = k.numthreads
  curspl : k'.curspl = s
  blocks : k'.mem.blocks = (k.mem.blocks.erase kid.name).erase kid.thread
  refs : k'.mem.refs = if k.tCwd = 0#32 then k.mem.refs else
    Function.update k.mem.refs k.tCwd (k.mem.refs k.tCwd - 1)
  mach : k'.mem.mach = k.mem.mach.kfreePage kid.stack

/-- What no failure undoes once there is a stack: every block but two stays, and the level is what
the variable `s` happened to hold, until the caller's list has got longer. -/
structure Left (b : ForkBlocks) (kid : Kid) (k k' : Kstate) : Prop where
  blocks : ∀ x ∈ k.mem.blocks, x ≠ kid.name → x ≠ kid.thread → x ∈ k'.mem.blocks
  level : k'.childList.items = k.childList.items → k'.curspl = b.spl

section
variable {k k' : Kstate} {kid : Kid} {call : ForkCall} {b : ForkBlocks} {point point' : ForkPoint}
  {e e' : Errno} {n tid : Nat} {space : Option (Word × AddrSpace)}

theorem Kstate.fail_gaveUp (h : k.fail kid n point e = .ok (.failed point' e', k')) :
    GaveUp k kid n k' := by
  obtain ⟨mem, hmem, h⟩ := bind_eq_ok.mp h
  have hdec : mem.blocks = k.mem.blocks ∧ mem.mach = k.mem.mach ∧
      mem.refs = if k.tCwd = 0#32 then k.mem.refs else
        Function.update k.mem.refs k.tCwd (k.mem.refs k.tCwd - 1) := by
    by_cases hz : k.tCwd = 0#32
    · simp only [decrefCwd, if_pos hz] at hmem
      cases hmem
      exact ⟨rfl, rfl, (if_pos hz).symm⟩
    simp only [decrefCwd, if_neg hz, Kmem.vopDecref] at hmem
    split at hmem
    · cases hmem
    · cases hmem
      exact ⟨rfl, rfl, (if_neg hz).symm⟩
  obtain ⟨hblocks, hmach, hrefs⟩ := hdec
  cases h
  refine ⟨rfl, rfl, rfl, rfl, rfl, ?_, hrefs, ?_⟩
  · simp only [Kmem.kfree, hblocks]
  · simp only [Kmem.kfree, hmach]

theorem mem_erase_erase {s : Finset Word} {x name thread : Word} (hx : x ∈ s) (hn : x ≠ name)
    (ht : x ≠ thread) : x ∈ (s.erase name).erase thread :=
  mem_erase.mpr ⟨ht, mem_erase.mpr ⟨hn, hx⟩⟩

theorem GaveUp.left (h : GaveUp k kid b.spl k') : Left b kid k k' :=
  ⟨fun _ hx hn ht => h.blocks ▸ mem_erase_erase hx hn ht, fun _ => h.curspl⟩

/-- A preallocation fails and the label is reached, or the thread can run. -/
theorem Kstate.forkRunnable_cases {r : ForkEnd} (h : k.forkRunnable b kid tid space = .ok (r, k')) :
    (∃ (k₁ : Kstate) (s : Nat) (point : ForkPoint) (e : Errno),
      k₁.fail kid s point e = .ok (r, k') ∧ k₁.table = k.table ∧ k₁.childList = k.childList ∧
      k₁.mem = k.mem) ∨
    r = .forked kid tid space ∧ k'.mem = k.mem ∧ k'.tVmspace = k.tVmspace ∧
      k'.zombies.items = k.zombies.items := by
  obtain ⟨sleepers, -, h⟩ := bind_eq_ok.mp h
  cases sleepers with
  | none => exact .inl ⟨_, _, _, _, h, rfl, rfl, rfl⟩
  | some sleepers =>
    obtain ⟨zombies, hz, h⟩ := bind_eq_ok.mp h
    cases zombies with
    | none => exact .inl ⟨_, _, _, _, h, rfl, rfl, rfl⟩
    | some zombies =>
      obtain ⟨queue, -, h⟩ := bind_eq_ok.mp h
      cases queue with
      | none => exact .inl ⟨_, _, _, _, h, rfl, rfl, rfl⟩
      | some queue =>
        obtain ⟨tail, -, h⟩ := bind_eq_ok.mp h
        cases tail with
        | none => exact .inl ⟨_, _, _, _, h, rfl, rfl, rfl⟩
        | some tail =>
          cases h
          refine .inr ⟨rfl, rfl, rfl, ?_⟩
          unfold Arr.arrayPreallocate at hz
          split at hz
          · split at hz
            · cases hz
              rfl
            · cases hz
          · cases hz

theorem Kstate.forkRunnable_failed
    (h : k.forkRunnable b kid tid space = .ok (.failed point e, k')) :
    k'.table = k.table ∧ k'.childList = k.childList ∧
      k'.mem.blocks = (k.mem.blocks.erase kid.name).erase kid.thread := by
  rcases forkRunnable_cases h with ⟨k₁, _, _, _, hfail, htable, hlist, hmem⟩ | ⟨hr, -⟩
  · have hr := fail_gaveUp hfail
    exact ⟨hr.table.trans htable, hr.childList.trans hlist, by rw [hr.blocks, hmem]⟩
  · cases hr

theorem Kstate.forkItem_failed (h : k.forkItem b kid tid space = .ok (.failed point e, k')) :
    k'.table = k.table ∧ Left b kid k k' := by
  unfold forkItem at h
  split at h
  · have hr := fail_gaveUp h
    exact ⟨hr.table, hr.left⟩
  rename_i item _
  obtain ⟨list, hlist, h⟩ := bind_eq_ok.mp h
  cases list with
  | none =>
    have hr := fail_gaveUp h
    exact ⟨hr.table, fun x hx => hr.left.blocks x (subset_insert _ _ hx), hr.left.level⟩
  | some list =>
    obtain ⟨htable, hchildren, hblocks⟩ := forkRunnable_failed h
    refine ⟨htable, fun x hx hn ht => ?_, fun hsame => ?_⟩
    · rw [hblocks]
      exact mem_erase_erase (subset_insert _ _ hx) hn ht
    · rw [hchildren, Arr.items_arrayAdd hlist] at hsame
      simp at hsame

theorem blocks_takeEntry (b : ForkBlocks) (m : Kmem) : m.blocks ⊆ (b.takeEntry m).blocks ∧
    ∀ x, b.entry = some x → x ∈ (b.takeEntry m).blocks := by
  unfold ForkBlocks.takeEntry
  split
  · rename_i hentry
    exact ⟨Finset.Subset.refl _, by simp [hentry]⟩
  rename_i entry hentry
  have hsub : (m.kmalloc entry).blocks ⊆ ((m.kmalloc entry).take b.key).blocks := by
    unfold Kmem.take
    split
    · exact subset_insert _ _
    · exact Finset.Subset.refl _
  refine ⟨(subset_insert _ _).trans hsub, fun x hx => hsub ?_⟩
  cases hentry.symm.trans hx
  exact mem_insert_self ..

/-- `ht_add_element` takes nothing and changes nothing: no slot is free, or there is no memory for
the entry and the slot it would have had is unused (one marked deleted becomes NULL). -/
def Kstate.NoEntry (k : Kstate) (call : ForkCall) (b : ForkBlocks) : Prop :=
  ∀ i, k.table.probe ((hashfunction call.key).toNat % k.table.size) k.table.size 0 = some i →
    b.entry = none ∧ k.table.table i = .null

theorem Kstate.noEntry_of_same {table : Hashtable Word} {r : Option Nat} {ptr : Word}
    (htab : k.table.htAddElement call.key ptr b.add = (r, table)) (hsame : table = k.table)
    (hentry : b.entry = none) : k.NoEntry call b := by
  intro i hi
  refine ⟨hentry, ?_⟩
  simp only [Hashtable.htAddElement, hi, ForkBlocks.add, hentry] at htab
  rw [← hsame, ← (Prod.mk.inj htab).2]
  exact Function.update_self ..

/-- The blocks that are taken after the name and that nothing gives back, up to the entry. -/
def ForkBlocks.later (b : ForkBlocks) : List Word :=
  (b.copy.newSpace.map Prod.fst).toList ++ b.entry.toList

/-- None of them is in use in the end. -/
def ForkBlocks.NoneLeft (b : ForkBlocks) (kid : Kid) (k' : Kstate) : Prop :=
  ∀ x ∈ b.later, x ≠ kid.name ∧ x ≠ kid.thread ∧ x ∉ k'.mem.blocks

theorem Kstate.forkSlot_failed (h : k.forkSlot call b kid space = .ok (.failed point e, k')) :
    Left b kid k k' ∧ (k'.table = k.table → b.NoneLeft kid k' → k.NoEntry call b) := by
  unfold forkSlot at h
  split at h
  · rename_i hfull
    exact ⟨(fail_gaveUp h).left, fun _ _ i hi => by simp [hi] at hfull⟩
  obtain ⟨hblocks, hentry⟩ := blocks_takeEntry b k.mem
  have hnone : ∀ k₁ : Kstate, k₁.mem = b.takeEntry k.mem → Left b kid k₁ k' →
      b.NoneLeft kid k' → b.entry = none := by
    intro k₁ hk₁ hleft hno
    by_contra hne
    obtain ⟨x, hx⟩ := Option.ne_none_iff_exists'.mp hne
    obtain ⟨hn, ht, hout⟩ := hno x (by simp [ForkBlocks.later, hx])
    exact hout (hleft.blocks x (hk₁ ▸ hentry x hx) hn ht)
  dsimp only at h
  split at h
  · rename_i table htab
    have hr := fail_gaveUp h
    exact ⟨⟨fun x hx => hr.left.blocks x (hblocks hx), hr.left.level⟩, fun hsame hno =>
      noEntry_of_same htab (hr.table.symm.trans hsame) (hnone _ rfl hr.left hno)⟩
  · rename_i tid table htab
    obtain ⟨htable, hleft⟩ := forkItem_failed h
    exact ⟨⟨fun x hx => hleft.blocks x (hblocks hx), hleft.level⟩, fun hsame hno =>
      noEntry_of_same htab (htable.symm.trans hsame) (hnone _ rfl hleft hno)⟩

/-- What a call of `as_copy` takes: nothing, the record alone, or the record and the region table
of the copy it returns. -/
theorem Kmem.asCopy_cases {m m' : Kmem} {old : AddrSpace} {mem : CopyMem}
    {r : Except Errno (Word × AddrSpace)} (h : m.asCopy old mem = .ok (r, m')) :
    (mem.newSpace = none ∧ r = .error .enomem ∧ m' = m) ∨
    (∃ addr found, mem.newSpace = some (addr, found) ∧ r = .error .enomem ∧
      m' = m.kmalloc addr) ∨
    ∃ addr found regions new, mem.newSpace = some (addr, found) ∧ mem.newRegions = some regions ∧
      r = .ok (addr, new) ∧ m'.blocks = ((m.kmalloc addr).kmalloc regions).blocks := by
  unfold Kmem.asCopy at h
  split at h
  · cases h
    rename_i hs
    exact .inl ⟨hs, rfl, rfl⟩
  rename_i addr found hs
  split at h
  · cases h
    exact .inr (.inl ⟨addr, found, hs, rfl, rfl⟩)
  rename_i regions hr
  refine .inr (.inr ⟨addr, found, regions, ?_⟩)
  obtain ⟨c, -, h⟩ := bind_eq_ok.mp h
  split at h
  · obtain ⟨m₁, hm₁, h⟩ := bind_eq_ok.mp h
    obtain ⟨m₂, hm₂, hm₁⟩ := bind_eq_ok.mp hm₁
    have hback := Kmem.vopIncref_decref ((m.kmalloc addr).kmalloc regions) old.v c.mach
    cases hback.symm.trans hm₂
    cases hm₁
    cases h
    exact ⟨_, hs, hr, rfl, by split <;> rfl⟩
  · cases h
    exact ⟨_, hs, hr, rfl, rfl⟩

theorem Kmem.asCopy_grows {m m' : Kmem} {old : AddrSpace} {mem : CopyMem}
    {r : Except Errno (Word × AddrSpace)} (h : m.asCopy old mem = .ok (r, m')) :
    m.blocks ⊆ m'.blocks ∧ ∀ addr found, mem.newSpace = some (addr, found) → addr ∈ m'.blocks := by
  rcases asCopy_cases h with ⟨hs, -, rfl⟩ | ⟨addr, found, hs, -, rfl⟩ |
    ⟨addr, found, regions, new, hs, -, -, hblocks⟩ <;> rw [hs]
  · exact ⟨Finset.Subset.refl _, by simp⟩
  · refine ⟨subset_insert _ _, ?_⟩
    rintro _ _ ⟨⟩
    exact mem_insert_self ..
  · rw [hblocks]
    refine ⟨(subset_insert _ _).trans (subset_insert _ _), ?_⟩
    rintro _ _ ⟨⟩
    exact Finset.mem_insert_of_mem (mem_insert_self ..)

/-- The call ends before it has taken one of them. -/
def Kstate.StopsEarly (k : Kstate) (call : ForkCall) (b : ForkBlocks) : Prop :=
  b.name = none ∨ if call.user then b.copy.newSpace = none else k.NoEntry call b

theorem Kstate.forkSpace_failed (h : k.forkSpace call b kid = .ok (.failed point e, k')) :
    Left b kid k k' ∧ (k'.table = k.table → b.NoneLeft kid k' → k.StopsEarly call b) := by
  unfold forkSpace at h
  unfold StopsEarly
  split at h
  · rename_i huser
    rw [if_pos huser]
    obtain ⟨⟨r, mem⟩, hcopy, h⟩ := bind_eq_ok.mp h
    obtain ⟨hblocks, hspace⟩ := Kmem.asCopy_grows hcopy
    have hleft : Left b kid { k with mem := mem } k' := by
      cases r with
      | error e₀ => exact (fail_gaveUp h).left
      | ok space => exact (forkSlot_failed h).1
    refine ⟨⟨fun x hx => hleft.blocks x (hblocks hx), hleft.level⟩, fun _ hno => .inr ?_⟩
    by_contra hne
    obtain ⟨⟨addr, found⟩, hs⟩ := Option.ne_none_iff_exists'.mp hne
    obtain ⟨hn, ht, hout⟩ := hno addr (by simp [ForkBlocks.later, hs])
    exact hout (hleft.blocks addr (hspace addr found hs) hn ht)
  · rename_i huser
    rw [if_neg huser]
    obtain ⟨hleft, hno⟩ := forkSlot_failed h
    exact ⟨hleft, fun hsame hnone => .inr (hno hsame hnone)⟩

/-- In that case the label is reached with nothing changed. -/
theorem Kstate.forkSpace_early (h : k.forkSpace call b kid = .ok (.failed point e, k'))
    (hname : b.name ≠ none) (he : k.StopsEarly call b) : GaveUp k kid b.spl k' := by
  have he := he.resolve_left hname
  unfold forkSpace at h
  split at h
  · rename_i huser
    rw [if_pos huser] at he
    simp only [Kmem.asCopy, he] at h
    exact fail_gaveUp h
  rename_i huser
  rw [if_neg huser] at he
  unfold forkSlot at h
  split at h
  · exact fail_gaveUp h
  rename_i hfull
  rw [Option.isNone_iff_eq_none] at hfull
  obtain ⟨i, hi⟩ := Option.ne_none_iff_exists'.mp hfull
  obtain ⟨hentry, hnull⟩ := he i hi
  have hset : k.table.set i .null = k.table := by
    simp only [Hashtable.set, ← hnull, Function.update_eq_self]
  simp only [Hashtable.htAddElement, hi, ForkBlocks.add, ForkBlocks.takeEntry, hentry,
    hset] at h
  exact fail_gaveUp h

/-- The blocks that may be lost first. -/
def ForkBlocks.others (b : ForkBlocks) : List Word :=
  b.nameCopy.toList ++ b.childList.toList ++ b.later

/-- `kmalloc` returns no block that is in use, and NULL is none. -/
structure ForkBlocks.Fresh (b : ForkBlocks) (k : Kstate) : Prop where
  null : 0#32 ∉ k.mem.blocks
  thread : ∀ x, b.thread = some x → x ∉ k.mem.blocks ∧ x ≠ 0#32
  name : ∀ x, b.name = some x → x ∉ k.mem.blocks ∧ b.thread ≠ some x
  others : ∀ x ∈ b.others, x ∉ k.mem.blocks ∧ b.thread ≠ some x ∧ b.name ≠ some x ∧ x ≠ 0#32

/-- What the caller and the rest of the kernel can see is as it was. -/
structure Kstate.Same (k k' : Kstate) : Prop where
  table : k'.table = k.table
  children : k'.childList.items = k.childList.items
  numthreads : k'.numthreads = k.numthreads
  queue : k'.runqueue = k.runqueue
  cwd : k'.mem.refs k.tCwd = k.mem.refs k.tCwd
  blocks : k'.mem.blocks = k.mem.blocks
  frames : ∀ i, (k'.mem.mach.coremap.entries i).status = (k.mem.mach.coremap.entries i).status
  curspl : k'.curspl = k.curspl

theorem Kstate.Same.refl (k : Kstate) : k.Same k :=
  ⟨rfl, rfl, rfl, rfl, rfl, rfl, fun _ => rfl, rfl⟩

theorem Kstate.threadCreate_error (hfresh : b.Fresh k)
    (h : k.threadCreate call b = (.error point, k')) : k' = k ∧
      (b.thread = none ∨ call.named = true ∧ b.nameCopy = none) := by
  unfold threadCreate at h
  split at h
  · rename_i ht
    cases h
    exact ⟨rfl, .inl ht⟩
  rename_i thread ht
  split at h
  · rename_i hnamed
    split at h
    · rename_i hcopy
      cases h
      refine ⟨?_, .inr ⟨hnamed, hcopy⟩⟩
      simp only [Kmem.kfree, Kmem.kmalloc, erase_insert (hfresh.thread thread ht).1]
    · cases h
  · cases h

/-- What `thread_create` takes and nothing gives back. -/
def ForkBlocks.created (b : ForkBlocks) (call : ForkCall) : List Word :=
  (if call.named then b.nameCopy.toList else []) ++ b.childList.toList

theorem ForkBlocks.mem_others {x : Word} (h : x ∈ b.created call ∨ x ∈ b.later) : x ∈ b.others := by
  simp only [created, others, List.mem_append] at h ⊢
  rcases h with (h | h) | h
  · split at h
    · exact .inl (.inl h)
    · cases h
  · exact .inl (.inr h)
  · exact .inr h

theorem Kstate.threadCreate_ok {thread : Word} (h : k.threadCreate call b = (.ok thread, k')) :
    b.thread = some thread ∧ ∃ blocks, k' = { k with mem := { k.mem with blocks := blocks } } ∧
      ∀ x ∈ b.created call, x ∈ blocks := by
  have htake : ∀ m : Kmem, ∃ blocks, m.take b.childList = { m with blocks := blocks } ∧
      m.blocks ⊆ blocks ∧ ∀ x ∈ b.childList.toList, x ∈ blocks := by
    intro m
    cases b.childList with
    | none => exact ⟨m.blocks, rfl, Finset.Subset.refl _, by simp⟩
    | some list => exact ⟨insert list m.blocks, rfl, subset_insert _ _, by simp⟩
  unfold threadCreate at h
  unfold ForkBlocks.created
  split at h
  · cases h
  rename_i thread ht
  split at h
  · rename_i hnamed
    split at h
    · cases h
    rename_i name hname
    cases h
    obtain ⟨blocks, hblocks, hsub, hmem⟩ := htake ((k.mem.kmalloc thread).kmalloc name)
    refine ⟨ht, blocks, by rw [hblocks]; rfl, ?_⟩
    simp only [hnamed, if_true, hname, Option.toList_some, List.singleton_append,
      List.forall_mem_cons]
    exact ⟨hsub (mem_insert_self ..), hmem⟩
  · rename_i hnamed
    cases h
    obtain ⟨blocks, hblocks, -, hmem⟩ := htake (k.mem.kmalloc thread)
    refine ⟨ht, blocks, by rw [hblocks]; rfl, ?_⟩
    rw [if_neg hnamed, List.nil_append]
    exact hmem

theorem Kstate.blocks_increfCwd (k : Kstate) : k.increfCwd.blocks = k.mem.blocks := by
  unfold increfCwd
  split <;> rfl

theorem Kstate.refs_increfCwd (k : Kstate) : k.increfCwd.refs = if k.tCwd = 0#32 then k.mem.refs
    else Function.update k.mem.refs k.tCwd (k.mem.refs k.tCwd + 1) := by
  unfold increfCwd
  split <;> rfl

/-- The failures that change nothing: inside `thread_create`, or, if it has taken nothing that is
lost, for want of a stack, or before anything else that is lost is taken and with the right level
in the variable `s` by chance. -/
def Kstate.Harmless (k : Kstate) (call : ForkCall) (b : ForkBlocks) : Prop :=
  b.thread = none ∨ (call.named = true ∧ b.nameCopy = none) ∨
  call.named = false ∧ b.childList = none ∧
    (¬ k.mem.mach.coremap.HasFrame ∨ b.spl = k.curspl ∧ k.StopsEarly call b)

theorem Kstate.harmless_of_lost (hfresh : b.Fresh k) (hs : k.Same k')
    (hlost : ∀ x ∈ b.created call, x ∈ k'.mem.blocks)
    (hrest : ¬ k.mem.mach.coremap.HasFrame ∨ b.spl = k.curspl ∧ k.StopsEarly call b) :
    k.Harmless call b := by
  have hnil : b.created call = [] := by
    refine List.eq_nil_iff_forall_not_mem.mpr fun x hx => ?_
    exact (hfresh.others x (ForkBlocks.mem_others (.inl hx))).1 (hs.blocks ▸ hlost x hx)
  simp only [ForkBlocks.created, List.append_eq_nil_iff, Option.toList_eq_nil_iff] at hnil
  obtain ⟨hcopy, hlist⟩ := hnil
  cases hnamed : call.named with
  | false => exact .inr (.inr ⟨hnamed, hlist, hrest⟩)
  | true =>
    rw [hnamed, if_pos rfl, Option.toList_eq_nil_iff] at hcopy
    exact .inr (.inl ⟨hnamed, hcopy⟩)

theorem Kstate.threadFork_left {thread : Word} {stack : Vaddr} {k₀ : Kstate} {m : Machine}
    (hk : k.threadCreate call b = (.ok thread, k₀)) (hm : k₀.mem.mach.kmallocPage = (some stack, m))
    (h : k.threadFork call b = .ok (.failed point e, k')) :
    ∃ name, (b.name = some name ∨ name = 0#32) ∧ Left b ⟨thread, stack, name⟩ k₀ k' ∧
      (k'.table = k₀.table → b.NoneLeft ⟨thread, stack, name⟩ k' → k₀.StopsEarly call b) := by
  simp only [threadFork, hk, hm] at h
  have hblocks : { k₀ with mem := { k₀.mem with mach := m } }.increfCwd.blocks = k₀.mem.blocks :=
    blocks_increfCwd _
  split at h
  · rename_i hname
    have hleft := (fail_gaveUp h).left
    refine ⟨_, .inr rfl, ⟨fun x hx => hleft.blocks x ?_, hleft.level⟩, fun _ _ => .inl hname⟩
    exact hblocks.symm ▸ hx
  · rename_i name hname
    obtain ⟨hleft, hearly⟩ := forkSpace_failed h
    refine ⟨name, .inl hname, ⟨fun x hx => hleft.blocks x ?_, hleft.level⟩, hearly⟩
    exact subset_insert _ _ (hblocks.symm ▸ hx)

theorem Kstate.harmless_of_same (hfresh : b.Fresh k)
    (h : k.threadFork call b = .ok (.failed point e, k')) (hs : k.Same k') : k.Harmless call b := by
  cases hk : k.threadCreate call b with
  | mk r k₀ =>
    cases r with
    | error point₀ =>
      obtain ⟨-, hwhy⟩ := threadCreate_error hfresh hk
      exact hwhy.imp_right .inl
    | ok thread =>
      obtain ⟨hthread, blocks, rfl, hblocks⟩ := threadCreate_ok hk
      have hnt : ∀ x ∈ b.others, x ≠ thread := by
        rintro x hx rfl
        exact (hfresh.others x hx).2.1 hthread
      cases hm : k.mem.mach.kmallocPage with
      | mk stack m =>
        cases stack with
        | none =>
          refine harmless_of_lost hfresh hs (fun x hx => ?_) (.inl fun hframe => ?_)
          · simp only [threadFork, hk, hm] at h
            cases h
            exact mem_erase.mpr ⟨hnt x (ForkBlocks.mem_others (.inl hx)), hblocks x hx⟩
          · obtain ⟨pa, c, hc⟩ := hframe.allocateFrame
            simp [Machine.kmallocPage, hc] at hm
        | some stack =>
          obtain ⟨name, hname, hleft, hearly⟩ := threadFork_left hk hm h
          have hnn : ∀ x ∈ b.others, x ≠ name := by
            rintro x hx rfl
            obtain ⟨-, -, hn, hzero⟩ := hfresh.others x hx
            exact hname.elim hn hzero
          refine harmless_of_lost hfresh hs (fun x hx => ?_) (.inr ⟨?_, ?_⟩)
          · have hx' := ForkBlocks.mem_others (.inl hx)
            exact hleft.blocks x (hblocks x hx) (hnn x hx') (hnt x hx')
          · exact (hleft.level hs.children).symm.trans hs.curspl
          refine hearly hs.table fun x hx => ?_
          have hx' := @ForkBlocks.mem_others call b x (.inr hx)
          exact ⟨hnn x hx', hnt x hx', hs.blocks ▸ (hfresh.others x hx').1⟩

theorem Machine.kfreePage_status {m m' : Machine} {va : Vaddr}
    (h : m.kmallocPage = (some va, m')) (j : Nat) :
    ((m'.kfreePage va).coremap.entries j).status = (m.coremap.entries j).status := by
  unfold kmallocPage at h
  split at h
  · rename_i pa c hc
    obtain ⟨hva, rfl⟩ := Prod.mk.inj h
    rw [← Option.some.inj hva]
    obtain ⟨i, -, hr⟩ := (Coremap.restored_iff hc).mpr ⟨by omega, .inl (Nat.le_refl 1)⟩
    by_cases hj : i ≤ j ∧ j < i + 1
    · simp only [kfreePage, hr.block j hj.1 hj.2, hr.free.2 j hj.1 hj.2]
      rfl
    · simp only [kfreePage, hr.rest j hj]
  · cases h

/-- The label gives back the stack, the name and the thread. -/
theorem GaveUp.same {thread : Word} {stack : Vaddr} {m : Machine} {k₀ : Kstate}
    (hfresh : b.Fresh k) (hthread : b.thread = some thread)
    (hm : k.mem.mach.kmallocPage = (some stack, m))
    (hk₀ : k₀ = { k with mem := { k.mem.kmalloc thread with mach := m } })
    (h : GaveUp { k₀ with mem := k₀.increfCwd.take b.name } ⟨thread, stack, b.name.getD 0#32⟩
      k.curspl k') : k.Same k' := by
  subst hk₀
  have hrefs := Kstate.refs_increfCwd { k with mem := { k.mem.kmalloc thread with mach := m } }
  have htake : ∀ (x : Kmem) (o : Option Word),
      (x.take o).refs = x.refs ∧ (x.take o).mach = x.mach := by
    rintro x (_ | _) <;> exact ⟨rfl, rfl⟩
  refine ⟨h.table, congrArg Arr.items h.childList, h.numthreads, h.runqueue, ?_, ?_, ?_, h.curspl⟩
  · rw [h.refs, (htake _ _).1, hrefs]
    by_cases hz : k.tCwd = 0#32
    · simp only [if_pos hz]
      rfl
    · simp only [if_neg hz, Function.update_self, Nat.add_sub_cancel]
      rfl
  · rw [h.blocks]
    obtain ⟨hnew, hzero⟩ := hfresh.thread thread hthread
    cases hname : b.name with
    | none =>
      simp only [Kmem.take, Option.getD_none, Kstate.blocks_increfCwd, Kmem.kmalloc]
      rw [Finset.erase_eq_of_notMem (a := 0#32), erase_insert hnew]
      simp [hzero.symm, hfresh.null]
    | some name =>
      obtain ⟨hnname, hne⟩ := hfresh.name name hname
      simp only [Kmem.take, Option.getD_some, Kstate.blocks_increfCwd, Kmem.kmalloc]
      rw [erase_insert, erase_insert hnew]
      intro hmem
      rcases Finset.mem_insert.mp hmem with rfl | hmem
      · exact hne hthread
      · exact hnname hmem
  · intro j
    have hmach : k'.mem.mach = m.kfreePage stack := by
      rw [h.mach, (htake _ _).2]
      simp only [Kstate.increfCwd]
      split <;> rfl
    rw [hmach]
    exact Machine.kfreePage_status hm j

theorem Kstate.Harmless.same (hfresh : b.Fresh k) (hh : k.Harmless call b)
    (h : k.threadFork call b = .ok (.failed point e, k')) : k.Same k' := by
  have hcreating : (b.thread = none ∨ call.named = true ∧ b.nameCopy = none) → k.Same k' := by
    intro hwhy
    have herror : ∃ point₀ k₀, k.threadCreate call b = (.error point₀, k₀) := by
      unfold threadCreate
      rcases hwhy with hthread | ⟨hnamed, hcopy⟩
      · simp [hthread]
      · cases b.thread <;> simp [hnamed, hcopy]
    obtain ⟨point₀, k₀, hk⟩ := herror
    obtain ⟨rfl, -⟩ := threadCreate_error hfresh hk
    simp only [threadFork, hk] at h
    cases h
    exact .refl _
  rcases hh with hthread | hcopy | ⟨hnamed, hlist, hrest⟩
  · exact hcreating (.inl hthread)
  · exact hcreating (.inr hcopy)
  cases hthread : b.thread with
  | none => exact hcreating (.inl hthread)
  | some thread =>
    have hk : k.threadCreate call b = (.ok thread, { k with mem := k.mem.kmalloc thread }) := by
      simp [threadCreate, hthread, hnamed, hlist, Kmem.take]
    have hmach : (k.mem.kmalloc thread).mach = k.mem.mach := rfl
    simp only [threadFork, hk, hmach] at h
    split at h
    · rename_i m hm
      cases h
      obtain rfl := Machine.kmallocPage_none hm
      refine ⟨rfl, rfl, rfl, rfl, rfl, ?_, fun _ => rfl, rfl⟩
      exact erase_insert (hfresh.thread thread hthread).1
    · rename_i stack m hm
      obtain ⟨hspl, hearly⟩ := hrest.resolve_left (not_not.mpr (by
        simp only [Machine.kmallocPage] at hm
        split at hm
        · rename_i hc
          exact Coremap.hasFrame_of_allocateFrame hc
        · cases hm))
      have hsame := fun h => show k.Same k' from GaveUp.same hfresh hthread hm rfl h
      split at h
      · rename_i hname
        simp only [hname] at hsame
        exact hsame (hspl ▸ fail_gaveUp h)
      rename_i name hname
      simp only [hname] at hsame
      have hgave := forkSpace_early h (by simp [hname]) hearly
      rw [hspl] at hgave
      exact hsame hgave

/-- A call that fails changes nothing exactly in these cases. -/
theorem thread_fork_failed (hfresh : b.Fresh k)
    (h : k.threadFork call b = .ok (.failed point e, k')) : k.Same k' ↔ k.Harmless call b :=
  ⟨Kstate.harmless_of_same hfresh h, fun hh => hh.same hfresh h⟩

end

namespace OnePage

/-- What `snprintf` makes of the address of the thread of `program`. -/
def programKey : List Byte := [0x38, 0x30, 0x31, 0x30, 0x30, 0x30, 0x30, 0x30]

/-- What it makes of the address of the thread that is created. -/
def kidKey : List Byte := [0x38, 0x30, 0x31, 0x30, 0x30, 0x31, 0x30, 0x30]

/-- The kernel while the thread of `program` is its only one. -/
def kernel : Kstate where
  mem := forking
  table := (((Hashtable.htCreate ptbSize none).set 0 .reserved).htAddElement programKey
    0x80100000#32 .enough).2
  tCwd := 2#32
  tVmspace := (written.proc 0).as
  childList := arrayCreate
  sleepers := arrayCreate
  zombies := arrayCreate
  runqueue := qCreate 32
  numthreads := 1
  curspl := 0

/-- Memory for everything up to the `child_info`. -/
def noItem : ForkBlocks where
  thread := some 0x80100100#32
  nameCopy := none
  childList := some 0x80100140#32
  name := some 0x80100180#32
  copy := copyMem program
  entry := some 0x801001c0#32
  key := some 0x80100200#32
  found := 0#32
  item := none
  listRoom := true
  sleepersRoom := true
  zombiesRoom := true
  queueRoom := true
  tailRoom := true
  spl := 7

/-- No memory for the child's list and its name, and the level in the variable. -/
def noName : ForkBlocks := { noItem with childList := none, name := none, spl := 0 }

/-- In that case nothing has happened. -/
theorem thread_fork_failed_name : ∃ k',
    kernel.threadFork ⟨false, true, kidKey⟩ noName = .ok (.failed .name .enomem, k') ∧
      kernel.Same k' := by
  have hfresh : noName.Fresh kernel := by
    refine ⟨by decide, ?_, by rintro _ ⟨⟩, ?_⟩
    · rintro _ ⟨⟩
      decide
    have hothers : noName.others = [0x80100040#32, 0x801001c0#32] := rfl
    rw [hothers]
    intro x hx
    simp only [List.mem_cons, List.not_mem_nil, or_false] at hx
    rcases hx with rfl | rfl <;> decide
  have hrun : ∃ k', kernel.threadFork ⟨false, true, kidKey⟩ noName
      = .ok (.failed .name .enomem, k') := ⟨_, rfl⟩
  obtain ⟨k', hrun⟩ := hrun
  refine ⟨k', hrun, (thread_fork_failed hfresh hrun).mpr (.inr (.inr ⟨rfl, rfl, ?_⟩))⟩
  exact .inr ⟨rfl, .inl rfl⟩

/-- Without memory for the `child_info` the process table keeps the freed thread, three blocks are
lost, and the interrupt level is what the variable held. -/
theorem failed_fork_keeps_thread : ∃ k',
    kernel.threadFork ⟨false, false, kidKey⟩ noItem = .ok (.failed .item .enomem, k') ∧
      k'.table.table 35 = .entry (some kidKey) 0x80100100#32 ∧
      k'.mem.blocks = {0x80100000#32, 0x80100140#32, 0x801001c0#32, 0x80100200#32} ∧
      kernel.curspl = 0 ∧ k'.curspl = 7 := by
  refine ⟨_, rfl, ?_, ?_, rfl, rfl⟩
  · decide +kernel
  · decide +kernel

end OnePage

end OS161
