import Mathlib.Algebra.Order.BigOperators.Group.Multiset
import Mathlib.Tactic.Abel
import OS161.Thread.Fork

/-! Every block of a child, from the `kmalloc` that returns it to the `kfree` that gives it back. -/
namespace OS161

open Machine
open Multiset (mem_add nodup_add singleton_add coe_add coe_nil card_add)

/-- A child's `struct thread`. -/
structure ForkedThread where
  kid : Kid
  tid : Nat
  childList : Option Word
  tVmspace : Option (Word × AddrSpace)
  tCwd : Word
  /-- The trapframe it starts with, until `md_forkentry` has copied it. -/
  tf : Option Word
  deriving DecidableEq

/-- The kernel as the parent sees it, with the structures of its children and what its
`child_info`s hold: the tid, and whether the status is DEAD. -/
structure Lineage where
  k : Kstate
  threads : List ForkedThread
  info : Word → Nat × Bool

namespace Kmem
variable (k : Kmem)

/-- The reference to a vnode is given up unless the pointer is NULL. -/
def decrefIfAny (v : Word) : Except Crash Kmem := if v = 0#32 then .ok k else k.vopDecref v

def asDestroy (as : AddrSpace) : Except Crash Kmem :=
  let k := if as.pageTable = 0#32 then k
    else { k with mach := k.mach.ptDeepDestroy as.pageTable }
  k.decrefIfAny as.v

/-- `thread_exit` gives up the address space, if there is one. -/
def leaveSpace : Option (Word × AddrSpace) → Except Crash Kmem
  | some (_, as) => k.asDestroy as
  | none => .ok k

end Kmem

/-- The two calls of `make_readonly` at the end of `sys_fork`. -/
def Kstate.makeReadonly (k : Kstate) : Option (Word × AddrSpace) → Kstate
  | none => k
  | some (_, child) =>
    let mach := k.mem.mach.makeReadonly k.tVmspace.pageTable false
    { k with mem := { k.mem with mach := mach.makeReadonly child.pageTable true } }

namespace Lineage
variable (l : Lineage)

/-- What the kernel holds once there is a child. -/
def addChild (k : Kstate) (t : ForkedThread) (item : Option Word) : Lineage where
  k := k
  threads := t :: l.threads
  info := match item with
    | some item => Function.update l.info item (t.tid, false)
    | none => l.info

/-- `sys_fork`; `tf` is the block for the copy of the trapframe. -/
def sysFork (tf : Option Word) (key : List Byte) (b : ForkBlocks) :
    Except Crash (Except Errno Nat × Lineage) :=
  match tf with
  | none => .ok (.error .enomem, l)
  | some tf => do
    let k := { l.k with mem := l.k.mem.kmalloc tf }
    match ← k.threadFork ⟨false, true, key⟩ b with
    | (.failed _ e, k) => return (.error e, { l with k := k })
    | (.forked kid tid space, k) =>
      return (.ok tid, l.addChild (k.makeReadonly space)
        ⟨kid, tid, b.childList, space, k.tCwd, some tf⟩ b.item)

def mdForkentry (t : ForkedThread) (tf : Word) : Lineage :=
  { l with
    k := { l.k with mem := l.k.mem.kfree tf }
    threads := { t with tf := none } :: l.threads.erase t }

/-- Where the parent's `child_list` has a tid. -/
def child (tid : Nat) : Option (Nat × Word) :=
  let items := l.k.childList.items
  (items.findIdx? fun item => (l.info item).1 = tid).bind fun i =>
    items[i]?.map fun item => (i, item)

def markDead (tid : Nat) : Word → Nat × Bool :=
  match l.child tid with
  | some (_, item) => Function.update l.info item (tid, true)
  | none => l.info

/-- `thread_exit`, up to the switch. -/
def threadExit (t : ForkedThread) (room : Bool) : Except Crash Lineage := do
  let mem ← l.k.mem.leaveSpace t.tVmspace
  let mem ← mem.decrefIfAny t.tCwd
  if l.k.numthreads = 0 then .error .assertion
  else
    match ← l.k.zombies.arrayAdd t.kid.thread room with
    | none => .error .assertion
    | some zombies =>
      return { l with
        k := { l.k with mem := mem, numthreads := l.k.numthreads - 1, zombies := zombies }
        threads := { t with tVmspace := none, tCwd := 0#32 } :: l.threads.erase t }

/-- `sys_exit`, of a child that has no children of its own. -/
def sysExit (t : ForkedThread) (room : Bool) : Except Crash Lineage :=
  { l with
    k := { l.k with table := l.k.table.set t.tid .reserved }
    info := l.markDead t.tid }.threadExit t room

/-- `sys_wait`; `none` while the caller sleeps. -/
def sysWait (tid : Nat) (option : Word) (copyout : Option Errno) :
    Except Crash (Option (Except Errno Nat × Lineage)) :=
  if option ≠ 0#32 then .ok (some (.error .einval, l))
  else
    match l.child tid with
    | none => .ok (some (.error .einval, l))
    | some (index, item) =>
      if (l.info item).2 then do
        let list ← l.k.childList.arrayRemove index
        let l := { l with k := { l.k with table := l.k.table.set tid .deleted, childList := list } }
        match copyout with
        | some e => return some (.error e, l)
        | none => return some (.ok tid, l)
      else .ok none

def threadDestroy (z : Word) : Except Crash Lineage :=
  match l.threads.find? fun t => t.kid.thread = z with
  | none => .error .badPointer
  | some t =>
    if t.tVmspace.isSome ∨ t.tCwd ≠ 0#32 then .error .assertion
    else
      match t.childList with
      | none => .error .nullDeref
      | some list =>
        let mem := { l.k.mem with mach := l.k.mem.mach.kfreePage t.kid.stack }
        let mem := ((mem.kfree t.kid.name).kfree list).kfree t.kid.thread
        .ok { l with k := { l.k with mem := mem }, threads := l.threads.erase t }

def exorcise : Except Crash Lineage := do
  let l ← l.k.zombies.items.foldlM threadDestroy l
  match ← l.k.zombies.arraySetsize 0 true with
  | none => .error .assertion
  | some zombies => return { l with k := { l.k with zombies := zombies } }

end Lineage

/-- What `thread_fork` takes for a child of `sys_fork`, in the order of the calls. -/
def ForkBlocks.taken (b : ForkBlocks) : List Word :=
  b.thread.toList ++ b.childList.toList ++ b.name.toList ++ (b.copy.newSpace.map Prod.fst).toList ++
    b.copy.newRegions.toList ++ b.entry.toList ++ b.key.toList ++ b.item.toList

inductive LifeEvent where
  | fork (tf : Word) (key : List Byte) (b : ForkBlocks)
  | start (t : ForkedThread)
  | run
  | exit (t : ForkedThread)
  | wait (tid : Nat)
  | exorcise

inductive LifeStep : Lineage → LifeEvent → Lineage → Prop where
  | fork {l l' : Lineage} {tf : Word} {key : List Byte} {b : ForkBlocks} {tid : Nat}
      (hnew : (tf :: b.taken).Nodup ∧ ∀ x ∈ tf :: b.taken, x ∉ l.k.mem.blocks)
      (h : l.sysFork (some tf) key b = .ok (.ok tid, l')) : LifeStep l (.fork tf key b) l'
  | start {l : Lineage} {t : ForkedThread} {tf : Word} (ht : t ∈ l.threads) (htf : t.tf = some tf) :
    LifeStep l (.start t) (l.mdForkentry t tf)
  /-- The parent or a child takes faults, which work on pages only. -/
  | run {l : Lineage} {m : Machine} :
    LifeStep l .run { l with k := { l.k with mem := { l.k.mem with mach := m } } }
  | exit {l l' : Lineage} {t : ForkedThread} {room : Bool} (ht : t ∈ l.threads) (htf : t.tf = none)
      (has : t.tVmspace.isSome) (h : l.sysExit t room = .ok l') : LifeStep l (.exit t) l'
  | wait {l l' : Lineage} {tid : Nat} {option : Word} {copyout : Option Errno}
      {r : Except Errno Nat} (h : l.sysWait tid option copyout = .ok (some (r, l'))) :
    LifeStep l (.wait tid) l'
  | exorcise {l l' : Lineage} (h : l.exorcise = .ok l') : LifeStep l .exorcise l'

/-- The frames, and the address space that `as_copy` reads. -/
def Kstate.pages (k : Kstate) : Machine × AddrSpace := (k.mem.mach, k.tVmspace)

/-- From one state to another the blocks of a list have been taken. -/
structure Took (k : Kstate) (l : List Word) (k' : Kstate) : Prop where
  blocks : k'.mem.blocks = k.mem.blocks ∪ l.toFinset
  zombies : k'.zombies.items = k.zombies.items

section
variable {k k' k₁ : Kstate} {kid kid' : Kid} {call : ForkCall} {b : ForkBlocks} {tid : Nat}
  {space : Option (Word × AddrSpace)} {xs ys : List Word}

theorem Took.trans (h : Took k xs k₁) (h' : Took k₁ ys k') : Took k (xs ++ ys) k' :=
  ⟨by rw [h'.blocks, h.blocks, List.toFinset_append, Finset.union_assoc],
    h'.zombies.trans h.zombies⟩

theorem Kmem.blocks_take (m : Kmem) (x : Option Word) :
    (m.take x).blocks = m.blocks ∪ x.toList.toFinset := by
  cases x with
  | none => simp [take]
  | some x => simp [take, kmalloc]

theorem Kmem.mach_take (m : Kmem) (x : Option Word) : (m.take x).mach = m.mach := by
  cases x <;> rfl

theorem took_mach (k : Kstate) (mach : Machine) :
    Took k [] { k with mem := { k.mem with mach := mach } } := ⟨by simp, rfl⟩

theorem Kstate.makeReadonly_took (k : Kstate) (space : Option (Word × AddrSpace)) :
    Took k [] (k.makeReadonly space) := by
  cases space with
  | none => exact ⟨by simp [makeReadonly], rfl⟩
  | some space =>
    exact took_mach k _

theorem Kstate.fail_not_forked {n : Nat} {point : ForkPoint} {e : Errno}
    (h : k.fail kid n point e = .ok (.forked kid' tid space, k')) : False := by
  obtain ⟨mem, -, h⟩ := bind_eq_ok.mp h
  cases h

theorem Kstate.forkRunnable_forked
    (h : k.forkRunnable b kid tid space = .ok (.forked kid' tid' space', k')) :
    kid' = kid ∧ space' = space ∧ k'.pages = k.pages ∧ Took k [] k' := by
  rcases forkRunnable_cases h with ⟨_, _, _, _, hfail, -⟩ | ⟨hr, hmem, has, hz⟩
  · cases fail_not_forked hfail
  · cases hr
    exact ⟨rfl, rfl, by rw [pages, hmem, has, pages], by simp [hmem], hz⟩

theorem Kstate.forkItem_forked
    (h : k.forkItem b kid tid space = .ok (.forked kid' tid' space', k')) :
    kid' = kid ∧ space' = space ∧ k'.pages = k.pages ∧ b.item.isSome ∧ Took k b.item.toList k' := by
  unfold forkItem at h
  cases hi : b.item with
  | none =>
    simp only [hi] at h
    cases fail_not_forked h
  | some item =>
    simp only [hi] at h
    obtain ⟨list, -, h⟩ := bind_eq_ok.mp h
    cases list with
    | none => cases fail_not_forked h
    | some list =>
      obtain ⟨hkid, hspace, hpages, htook⟩ := forkRunnable_forked h
      refine ⟨hkid, hspace, hpages, rfl, ?_, htook.zombies⟩
      rw [htook.blocks]
      simp [Kmem.kmalloc]

theorem ForkBlocks.add_enough (h : b.add = .enough) : b.entry.isSome ∧ b.key.isSome := by
  unfold add at h
  split at h <;> simp_all

theorem ForkBlocks.blocks_takeEntry_of_isSome (h : b.entry.isSome) (m : Kmem) :
    (b.takeEntry m).blocks = m.blocks ∪ (b.entry.toList ++ b.key.toList).toFinset := by
  obtain ⟨entry, hentry⟩ := Option.isSome_iff_exists.mp h
  simp only [takeEntry, hentry, Kmem.blocks_take]
  simp [Kmem.kmalloc]

theorem ForkBlocks.mach_takeEntry (m : Kmem) : (b.takeEntry m).mach = m.mach := by
  unfold takeEntry
  split
  · rfl
  · exact Kmem.mach_take ..

theorem Kstate.forkSlot_forked
    (h : k.forkSlot call b kid space = .ok (.forked kid' tid' space', k')) :
    kid' = kid ∧ space' = space ∧ k'.pages = k.pages ∧
      (b.entry.isSome ∧ b.key.isSome ∧ b.item.isSome) ∧
      Took k (b.entry.toList ++ b.key.toList ++ b.item.toList) k' := by
  unfold forkSlot at h
  split at h
  · cases fail_not_forked h
  dsimp only at h
  split at h
  · cases fail_not_forked h
  rename_i tid table htab
  obtain ⟨hkid, hspace, hpages, hitem, htook⟩ := forkItem_forked h
  have hadd : b.add = .enough := by
    rcases k.table.htAddElement_cases call.key kid.thread b.add with hnone | ⟨i, -, hcase⟩
    · cases htab.symm.trans hnone
    rcases hcase with ⟨-, hadd⟩ | ⟨found, -, hadd⟩ | ⟨henough, -⟩
    · cases htab.symm.trans hadd
    · cases htab.symm.trans hadd
    · exact henough
  obtain ⟨hentry, hkey⟩ := ForkBlocks.add_enough hadd
  have hslot : Took k (b.entry.toList ++ b.key.toList)
      { k with mem := b.takeEntry k.mem, table := table } :=
    ⟨ForkBlocks.blocks_takeEntry_of_isSome hentry k.mem, rfl⟩
  refine ⟨hkid, hspace, hpages.trans ?_, ⟨hentry, hkey, hitem⟩, hslot.trans htook⟩
  simp only [pages, ForkBlocks.mach_takeEntry]

theorem Kstate.forkSpace_forked (huser : call.user = true)
    (h : k.forkSpace call b kid = .ok (.forked kid' tid' space', k')) :
    kid' = kid ∧ (∃ new, ∃ mem : Kmem, space' = some new ∧
        k.mem.asCopy k.tVmspace b.copy = .ok (.ok new, mem) ∧ k'.pages = (mem.mach, k.tVmspace)) ∧
      ((b.copy.newSpace.isSome ∧ b.copy.newRegions.isSome) ∧
        b.entry.isSome ∧ b.key.isSome ∧ b.item.isSome) ∧
      Took k (((b.copy.newSpace.map Prod.fst).toList ++ b.copy.newRegions.toList) ++
        (b.entry.toList ++ b.key.toList ++ b.item.toList)) k' := by
  rw [forkSpace, if_pos huser] at h
  obtain ⟨⟨r, mem⟩, hcopy, h⟩ := bind_eq_ok.mp h
  rcases Kmem.asCopy_cases hcopy with ⟨-, rfl, rfl⟩ | ⟨addr, found, -, rfl, rfl⟩ |
    ⟨addr, found, regions, new, hs, hr, rfl, hblocks⟩
  · cases fail_not_forked h
  · cases fail_not_forked h
  obtain ⟨hkid, hspace, hpages, hsome, htook⟩ := forkSlot_forked h
  have hcopied : Took k ((b.copy.newSpace.map Prod.fst).toList ++ b.copy.newRegions.toList)
      { k with mem := mem } := by
    refine ⟨?_, rfl⟩
    simp only [hblocks, hs, hr]
    simp [Kmem.kmalloc, Finset.insert_comm]
  exact ⟨hkid, ⟨(addr, new), mem, hspace, hcopy, hpages⟩, ⟨⟨by simp [hs], by simp [hr]⟩, hsome⟩,
    hcopied.trans htook⟩

/-- A successful call of `sys_fork`'s kind has taken everything. -/
theorem Kstate.threadFork_forked (huser : call.user = true) (hnamed : call.named = false)
    (h : k.threadFork call b = .ok (.forked kid tid space, k')) :
    b.thread = some kid.thread ∧ b.name = some kid.name ∧
      (∃ new, ∃ mem mem' : Kmem, space = some new ∧
        k.mem.mach.kmallocPage = (some kid.stack, mem.mach) ∧
        mem.asCopy k.tVmspace b.copy = .ok (.ok new, mem') ∧ k'.pages = (mem'.mach, k.tVmspace)) ∧
      ((b.copy.newSpace.isSome ∧ b.copy.newRegions.isSome) ∧
        b.entry.isSome ∧ b.key.isSome ∧ b.item.isSome) ∧ Took k b.taken k' := by
  cases hthread : b.thread with
  | none =>
    simp only [threadFork, threadCreate, hthread] at h
    cases h
  | some thread =>
    have hcreate : k.threadCreate call b
        = (.ok thread, { k with mem := (k.mem.kmalloc thread).take b.childList }) := by
      simp only [threadCreate, hthread, hnamed, Bool.false_eq_true, if_false]
    simp only [threadFork, hcreate] at h
    split at h
    · cases h
    rename_i stack m hstack
    split at h
    · cases fail_not_forked h
    rename_i name hname
    obtain ⟨rfl, ⟨new, mem, hspace, hcopy, hpages⟩, hsome, htook⟩ := forkSpace_forked huser h
    rw [Kmem.mach_take] at hstack
    refine ⟨rfl, hname, ⟨new, _, mem, hspace, hstack.trans ?_, hcopy, hpages⟩, hsome, ?_,
      htook.zombies⟩
    · simp only [Kmem.kmalloc, increfCwd]
      split <;> rfl
    rw [htook.blocks, ForkBlocks.taken, hthread, hname]
    simp only [Kmem.kmalloc, blocks_increfCwd, Kmem.blocks_take]
    ext x
    simp only [Finset.mem_union, Finset.mem_insert, List.mem_toFinset, List.mem_append,
      Option.toList_some, List.mem_singleton]
    tauto

end

/-- The blocks that `md_forkentry` and `thread_destroy` will free. -/
def ForkedThread.held (t : ForkedThread) : Multiset Word :=
  ↑(t.tf.toList ++ t.kid.thread :: t.kid.name :: t.childList.toList)

/-- The blocks of a child that nothing frees: its address space and region table, its entry in the
process table with the key, and its `child_info`. -/
def LifeEvent.lost : LifeEvent → Multiset Word
  | .fork _ _ b => ↑((b.copy.newSpace.map Prod.fst).toList ++ b.copy.newRegions.toList ++
      b.entry.toList ++ b.key.toList ++ b.item.toList)
  | _ => 0

def LifeEvent.isFork : LifeEvent → Bool
  | .fork .. => true
  | _ => false

open ForkedThread (held)

def heldBy (threads : List ForkedThread) : Multiset Word := (threads.map held).sum

/-- The blocks in use are those of a fixed part and those the children hold. -/
structure Account (base : Multiset Word) (l : Lineage) : Prop where
  blocks : l.k.mem.blocks.val = base + heldBy l.threads
  zombies : ∀ z ∈ l.k.zombies.items, ∃ t ∈ l.threads, t.kid.thread = z
  started : ∀ t ∈ l.threads, t.kid.thread ∈ l.k.zombies.items → t.tf = none

open LifeEvent (lost isFork)

section
variable {l l' : Lineage} {t t' : ForkedThread} {base : Multiset Word} {threads : List ForkedThread}
  {tf : Word} {b : ForkBlocks}

theorem heldBy_cons (t : ForkedThread) (threads : List ForkedThread) :
    heldBy (t :: threads) = t.held + heldBy threads := by
  simp [heldBy]

theorem heldBy_erase (ht : t ∈ threads) : heldBy threads = t.held + heldBy (threads.erase t) := by
  exact ((List.perm_cons_erase ht).map _).sum_eq

theorem mem_held (t : ForkedThread) : t.kid.thread ∈ t.held := by
  simp [held]

theorem mem_heldBy (ht : t ∈ threads) : t.kid.thread ∈ heldBy threads := by
  rw [heldBy_erase ht]
  exact mem_add.mpr (.inl (mem_held t))

/-- No two children have their structures in one place. -/
theorem Account.unique (h : Account base l) (ht : t ∈ l.threads) (ht' : t' ∈ l.threads.erase t) :
    t'.kid.thread ≠ t.kid.thread := by
  intro heq
  have hnodup := l.k.mem.blocks.nodup
  rw [h.blocks, heldBy_erase ht] at hnodup
  obtain ⟨-, hheld, -⟩ := nodup_add.mp hnodup
  obtain ⟨-, -, hdisj⟩ := nodup_add.mp hheld
  exact Multiset.disjoint_left.mp hdisj (mem_held t) (heq ▸ mem_heldBy ht')

variable {room : Bool} {m m' : Kmem} {a : LifeEvent} {key : List Byte} {es : List LifeEvent}
  {tid : Nat} {z : Word}

theorem val_kfree {x : Word} {s : Multiset Word} (h : m.blocks.val = x ::ₘ s) :
    (m.kfree x).blocks.val = s := by
  simp only [Kmem.kfree, Finset.erase_val, h, Multiset.erase_cons_head]

theorem exists_replaced (hkid : t'.kid = t.kid)
    (h : ∃ u ∈ threads, u.kid.thread = z) : ∃ u ∈ t' :: threads.erase t, u.kid.thread = z := by
  obtain ⟨u, hu, rfl⟩ := h
  by_cases heq : u = t
  · exact ⟨t', List.mem_cons_self, by rw [hkid, heq]⟩
  · exact ⟨u, List.mem_cons_of_mem _ ((List.mem_erase_of_ne heq).mpr hu), rfl⟩

theorem Account.start (h : Account base l) (ht : t ∈ l.threads) (htf : t.tf = some tf) :
    Account base (l.mdForkentry t tf) := by
  have hheld : t.held = tf ::ₘ held { t with tf := none } := by
    simp only [held, htf]
    rfl
  refine ⟨?_, fun z hz => exists_replaced rfl (h.zombies z hz), ?_⟩
  · refine val_kfree ?_
    simp only [Lineage.mdForkentry]
    rw [h.blocks, heldBy_erase ht, heldBy_cons, hheld, Multiset.cons_add, Multiset.add_cons]
  · intro u hu hz
    rcases List.mem_cons.mp hu with rfl | hu
    · rfl
    · exact h.started u (List.mem_of_mem_erase hu) hz

theorem Kmem.blocks_decrefIfAny {v : Word} (h : m.decrefIfAny v = .ok m') :
    m'.blocks = m.blocks := by
  unfold decrefIfAny vopDecref at h
  split at h
  · cases h
    rfl
  split at h
  · cases h
  · cases h
    rfl

theorem Kmem.blocks_leaveSpace {space : Option (Word × AddrSpace)}
    (h : m.leaveSpace space = .ok m') : m'.blocks = m.blocks := by
  cases space with
  | none =>
    cases h
    rfl
  | some space =>
    have hdeep : (if space.2.pageTable = 0#32 then m
        else { m with mach := m.mach.ptDeepDestroy space.2.pageTable }).blocks = m.blocks := by
      split <;> rfl
    exact (blocks_decrefIfAny h).trans hdeep

theorem Lineage.sysExit_ok (h : l.sysExit t room = .ok l') :
    l'.k.mem.blocks = l.k.mem.blocks ∧
      l'.threads = { t with tVmspace := none, tCwd := 0#32 } :: l.threads.erase t ∧
      l'.k.zombies.items = l.k.zombies.items ++ [t.kid.thread] := by
  obtain ⟨mem, hmem, h⟩ := bind_eq_ok.mp h
  obtain ⟨mem', hmem', h⟩ := bind_eq_ok.mp h
  have hblocks : mem'.blocks = l.k.mem.blocks :=
    (Kmem.blocks_decrefIfAny hmem').trans (Kmem.blocks_leaveSpace hmem)
  split at h
  · cases h
  obtain ⟨zombies, hz, h⟩ := bind_eq_ok.mp h
  cases zombies with
  | none => cases h
  | some zombies =>
    cases h
    exact ⟨hblocks, rfl, Arr.items_arrayAdd hz⟩

theorem Account.exit (h : Account base l) (ht : t ∈ l.threads) (htf : t.tf = none)
    (hexit : l.sysExit t room = .ok l') : Account base l' := by
  obtain ⟨hblocks, hthreads, hzombies⟩ := Lineage.sysExit_ok hexit
  refine ⟨?_, ?_, ?_⟩
  · rw [hblocks, hthreads, h.blocks, heldBy_cons, heldBy_erase ht]
    rfl
  · intro z hz
    rw [hzombies, List.mem_append, List.mem_singleton] at hz
    rw [hthreads]
    rcases hz with hz | rfl
    · exact exists_replaced rfl (h.zombies z hz)
    · exact ⟨_, List.mem_cons_self, rfl⟩
  · intro u hu hz
    rw [hthreads] at hu
    rw [hzombies, List.mem_append, List.mem_singleton] at hz
    rcases List.mem_cons.mp hu with rfl | hu
    · exact htf
    rcases hz with hz | heq
    · exact h.started u (List.mem_of_mem_erase hu) hz
    · exact (h.unique ht hu heq).elim

theorem Lineage.threadDestroy_ok (h : l.threadDestroy z = .ok l') :
    ∃ t ∈ l.threads, t.kid.thread = z ∧ l'.threads = l.threads.erase t ∧
      l'.k.zombies = l.k.zombies ∧ ∃ list, t.childList = some list ∧
      l'.k.mem.blocks = (((l.k.mem.kfree t.kid.name).kfree list).kfree t.kid.thread).blocks := by
  unfold threadDestroy at h
  split at h
  · cases h
  rename_i t hfind
  split at h
  · cases h
  split at h
  · cases h
  rename_i list hlist
  cases h
  have hthread : t.kid.thread = z := by simpa using List.find?_some hfind
  exact ⟨t, List.mem_of_find?_eq_some hfind, hthread, rfl, rfl, list, hlist, rfl⟩

theorem Account.destroyed (hblocks : l.k.mem.blocks.val = base + heldBy l.threads)
    (hstarted : ∀ t ∈ l.threads, t.kid.thread = z → t.tf = none)
    (h : l.threadDestroy z = .ok l') : l'.k.mem.blocks.val = base + heldBy l'.threads := by
  obtain ⟨t, ht, hz, hthreads, -, list, hlist, hblocks'⟩ := Lineage.threadDestroy_ok h
  have hheld : t.held = {t.kid.thread, t.kid.name, list} := by
    simp only [held, hstarted t ht hz, hlist]
    rfl
  rw [hblocks', hthreads]
  refine val_kfree (val_kfree (val_kfree ?_))
  rw [hblocks, heldBy_erase ht, hheld]
  simp only [Multiset.insert_eq_cons, ← singleton_add]
  abel

theorem Account.exorcise (h : Account base l) (hex : l.exorcise = .ok l') : Account base l' := by
  have hfold : ∀ (zs : List Word) (l l' : Lineage),
      l.k.mem.blocks.val = base + heldBy l.threads →
      (∀ t ∈ l.threads, t.kid.thread ∈ zs → t.tf = none) →
      zs.foldlM Lineage.threadDestroy l = .ok l' →
      l'.k.mem.blocks.val = base + heldBy l'.threads := by
    intro zs
    induction zs with
    | nil =>
      intro l l' hblocks _ h
      cases h
      exact hblocks
    | cons z zs ih =>
      intro l l' hblocks hstarted h
      obtain ⟨l₁, hl₁, h⟩ := bind_eq_ok.mp h
      refine ih l₁ l' ?_ ?_ h
      · exact destroyed hblocks (fun t ht hz => hstarted t ht (by simp [hz])) hl₁
      intro u hu hz
      obtain ⟨t, -, -, hthreads, -⟩ := Lineage.threadDestroy_ok hl₁
      rw [hthreads] at hu
      exact hstarted u (List.mem_of_mem_erase hu) (List.mem_cons_of_mem _ hz)
  obtain ⟨l₁, hl₁, hex⟩ := bind_eq_ok.mp hex
  obtain ⟨zombies, hz, hex⟩ := bind_eq_ok.mp hex
  cases zombies with
  | none => cases hex
  | some zombies =>
    cases hex
    have hempty : zombies.items = [] := Arr.items_arraySetsize_zero hz
    refine ⟨hfold _ l l₁ h.blocks h.started hl₁, ?_, ?_⟩
    · simp [hempty]
    · simp [hempty]

theorem Lineage.sysFork_ok
    (h : l.sysFork (some tf) key b = .ok (.ok tid, l')) :
    ((b.copy.newSpace.isSome ∧ b.copy.newRegions.isSome) ∧
      b.entry.isSome ∧ b.key.isSome ∧ b.item.isSome) ∧
    l'.k.mem.blocks = l.k.mem.blocks ∪ (tf :: b.taken).toFinset ∧
    l'.k.zombies.items = l.k.zombies.items ∧
    ∃ t, l'.threads = t :: l.threads ∧ b.thread = some t.kid.thread ∧ b.name = some t.kid.name ∧
      t.childList = b.childList ∧ t.tf = some tf ∧ ∃ new, ∃ mem mem' : Kmem,
        t.tVmspace = some new ∧ l.k.mem.mach.kmallocPage = (some t.kid.stack, mem.mach) ∧
        mem.asCopy l.k.tVmspace b.copy = .ok (.ok new, mem') ∧
        l'.k.mem.mach = (mem'.mach.makeReadonly l.k.tVmspace.pageTable false).makeReadonly
          new.2.pageTable true := by
  obtain ⟨⟨r, k⟩, hfork, h⟩ := bind_eq_ok.mp h
  cases r with
  | failed point e => cases h
  | forked kid tid space =>
    obtain ⟨hthread, hname, ⟨⟨addr, as⟩, mem, mem', rfl, hstack, hcopy, hpages⟩, hsome, htook⟩ :=
      Kstate.threadFork_forked rfl rfl hfork
    obtain ⟨-, rfl⟩ := Prod.mk.inj (Except.ok.inj h)
    have hdone := htook.trans (k.makeReadonly_took (some (addr, as)))
    obtain ⟨hmach, has⟩ := Prod.mk.inj hpages
    refine ⟨hsome, hdone.blocks.trans ?_, hdone.zombies, _, rfl, hthread, hname, rfl, rfl,
      _, mem, mem', rfl, hstack, hcopy, ?_⟩
    · simp [Kmem.kmalloc]
    · simp only [Lineage.addChild, Kstate.makeReadonly, hmach, has]

/-- A fork that finds frames for its page tables takes one for the child's stack and then makes the
step of `Step.fork`. -/
theorem Lineage.sysFork_step {s : Sys} {p : Nat} (hr : s.Runs p) (hz : s.pt p ≠ 0#32)
    (hcard : s.live.card < 200) (hmach : l.k.mem.mach = s.mach)
    (has : l.k.tVmspace = (s.proc p).as) (h : l.sysFork (some tf) key b = .ok (.ok tid, l')) :
    ∃ t m, l'.threads = t :: l.threads ∧ s.mach.kmallocPage = (some t.kid.stack, m) ∧
      ∀ table m', m.ptCopy (s.pt p) = .ok (some table, m') → ∃ heapbase breakaddr s',
        Step { s with mach := m } (.fork p s.next heapbase breakaddr) s' ∧
        s'.mach = l'.k.mem.mach ∧ t.tVmspace.map Prod.snd = some (s'.proc s.next).as := by
  obtain ⟨⟨⟨hspace, hregions⟩, -⟩, -, -, t, hthreads, -, -, -, -, new, mem, mem', ht, hstack, hcopy,
    hdone⟩ := sysFork_ok h
  rw [hmach] at hstack
  refine ⟨t, mem.mach, hthreads, hstack, fun table m' htable => ?_⟩
  obtain ⟨⟨addr, found⟩, hspace⟩ := Option.isSome_iff_exists.mp hspace
  obtain ⟨regions, hregions⟩ := Option.isSome_iff_exists.mp hregions
  rw [has] at hcopy hdone
  cases (Kmem.asCopy_done hspace hregions ((ptCopyAll_done hz).mpr htable)).symm.trans hcopy
  refine ⟨found.asHeapbase, found.breakaddr, _,
    .fork (s := { s with mach := mem.mach }) hr hz hcard htable, ?_, ?_⟩
  · rw [hdone]
    simp only [AddrSpace.copyOver, Sys.pt]
  · simp only [ht, Option.map_some, Sys.child, Function.update_self]
    rfl

theorem Account.fork (h : Account base l)
    (hnew : (tf :: b.taken).Nodup ∧ ∀ x ∈ tf :: b.taken, x ∉ l.k.mem.blocks)
    (hfork : l.sysFork (some tf) key b = .ok (.ok tid, l')) :
    Account (base + lost (.fork tf key b)) l' := by
  obtain ⟨-, hblocks, hzombies, t, hthreads, hthread, hname, hlist, htf, -⟩ :=
    Lineage.sysFork_ok hfork
  have htaken : (↑(tf :: b.taken) : Multiset Word)
      = lost (.fork tf key b) + t.held := by
    simp only [lost, held, ForkBlocks.taken, hthread, hname, hlist, htf,
      Option.toList_some]
    simp only [← coe_add, ← Multiset.cons_coe, ← singleton_add, coe_nil]
    abel
  have hval : (l.k.mem.blocks ∪ (tf :: b.taken).toFinset).val
      = l.k.mem.blocks.val + ↑(tf :: b.taken) := by
    have hdisj : Disjoint l.k.mem.blocks (tf :: b.taken).toFinset :=
      Finset.disjoint_right.mpr fun x hx => hnew.2 x (List.mem_toFinset.mp hx)
    rw [← Finset.disjUnion_eq_union _ _ hdisj, Finset.disjUnion_val, List.toFinset_val,
      hnew.1.dedup]
  refine ⟨?_, ?_, ?_⟩
  · rw [hblocks, hval, hthreads, heldBy_cons, h.blocks, htaken]
    abel
  · intro z hz
    rw [hzombies] at hz
    obtain ⟨u, hu, hz⟩ := h.zombies z hz
    exact ⟨u, hthreads ▸ List.mem_cons_of_mem _ hu, hz⟩
  intro u hu hz
  rw [hzombies] at hz
  rw [hthreads] at hu
  rcases List.mem_cons.mp hu with rfl | hu
  · -- The new structure is not where a zombie is.
    obtain ⟨v, hv, heq⟩ := h.zombies _ hz
    have hold : u.kid.thread ∈ l.k.mem.blocks := by
      rw [← heq, ← Finset.mem_val, h.blocks]
      exact mem_add.mpr (.inr (mem_heldBy hv))
    refine (hnew.2 _ ?_ hold).elim
    simp [ForkBlocks.taken, hthread]
  · exact h.started u hu hz

theorem Lineage.sysWait_ok {option : Word} {copyout : Option Errno}
    {r : Except Errno Nat} (h : l.sysWait tid option copyout = .ok (some (r, l'))) :
    l'.k.mem = l.k.mem ∧ l'.k.zombies = l.k.zombies ∧ l'.threads = l.threads := by
  unfold sysWait at h
  split at h
  · cases h
    exact ⟨rfl, rfl, rfl⟩
  split at h
  · cases h
    exact ⟨rfl, rfl, rfl⟩
  split at h
  · obtain ⟨list, -, h⟩ := bind_eq_ok.mp h
    split at h
    · cases h
      exact ⟨rfl, rfl, rfl⟩
    · cases h
      exact ⟨rfl, rfl, rfl⟩
  · cases h

theorem Account.step (h : Account base l) (hs : LifeStep l a l') : Account (base + a.lost) l' := by
  cases hs with
  | fork hnew hfork => exact h.fork hnew hfork
  | start ht htf => exact (add_zero base).symm ▸ h.start ht htf
  | run => exact ⟨by rw [h.blocks]; simp [lost], h.zombies, h.started⟩
  | exit ht htf _ hexit => exact (add_zero base).symm ▸ h.exit ht htf hexit
  | wait hwait =>
    obtain ⟨hmem, hzombies, hthreads⟩ := Lineage.sysWait_ok hwait
    refine (add_zero base).symm ▸ ⟨?_, ?_, ?_⟩
    · rw [hmem, hthreads, h.blocks]
    · rw [hzombies, hthreads]
      exact h.zombies
    · rw [hzombies, hthreads]
      exact h.started
  | exorcise hex => exact (add_zero base).symm ▸ h.exorcise hex

theorem Account.run (h : Account base l) (hr : Lts.Run LifeStep l es l') :
    Account (base + (es.map lost).sum) l' := by
  induction hr generalizing base with
  | refl => simpa using h
  | head hs _ ih =>
    rw [List.map_cons, List.sum_cons, ← add_assoc]
    exact ih (h.step hs)

theorem LifeStep.card_lost (hs : LifeStep l a l') : a.lost.card = if a.isFork then 5 else 0 := by
  cases hs with
  | fork hnew hfork =>
    obtain ⟨⟨⟨hs, hr⟩, he, hk, hi⟩, -⟩ := Lineage.sysFork_ok hfork
    obtain ⟨s, hs⟩ := Option.isSome_iff_exists.mp hs
    obtain ⟨r, hr⟩ := Option.isSome_iff_exists.mp hr
    obtain ⟨e, he⟩ := Option.isSome_iff_exists.mp he
    obtain ⟨k, hk⟩ := Option.isSome_iff_exists.mp hk
    simp [lost, isFork, hs, hr, he, hk, hi]
  | start | run | exit | wait | exorcise => rfl

theorem card_lost_run (hr : Lts.Run LifeStep l es l') :
    (es.map lost).sum.card = 5 * es.countP isFork := by
  induction hr with
  | refl => rfl
  | @head _ _ _ a _ hs _ ih =>
    rw [List.map_cons, List.sum_cons, card_add, hs.card_lost, ih, List.countP_cons]
    split <;> omega

/-- Every child costs the kernel five blocks for good. -/
theorem fork_wait_account (hthreads : l.threads = [])
    (hzombies : l.k.zombies.items = []) (hr : Lts.Run LifeStep l es l') :
    l'.k.mem.blocks.val
        = l.k.mem.blocks.val + (es.map lost).sum + heldBy l'.threads ∧
      (es.map lost).sum.card = 5 * es.countP isFork ∧
      (l'.threads = [] →
        l'.k.mem.blocks.card = l.k.mem.blocks.card + 5 * es.countP isFork ∧
        (l'.k.mem.blocks = l.k.mem.blocks ↔ es.countP isFork = 0)) := by
  have hstart : Account l.k.mem.blocks.val l :=
    ⟨by simp [hthreads, heldBy], by simp [hzombies], by simp [hthreads]⟩
  have hend := (hstart.run hr).blocks
  have hcard := card_lost_run hr
  refine ⟨hend, hcard, ?_⟩
  intro hnone
  have hcount : l'.k.mem.blocks.card
      = l.k.mem.blocks.card + 5 * es.countP isFork := by
    rw [Finset.card_def, hend, hnone, card_add, card_add, hcard]
    rfl
  refine ⟨hcount, fun heq => ?_, fun hzero => ?_⟩
  · rw [heq] at hcount
    omega
  · rw [hzero] at hcard
    rw [← Finset.val_inj, hend, hnone, Multiset.card_eq_zero.mp hcard]
    simp [heldBy]

end

namespace OnePage

/-- Memory for everything. -/
def enough : ForkBlocks := { noItem with item := some 0x80100240#32 }

def alone : Lineage := ⟨kernel, [], fun _ => (0, false)⟩

/-- The machine when the child has its stack, in frame 3; its tables come to frames 4 and 5. -/
def stackTaken : Machine := written.mach.kmallocPage.2

def tablesCopied : Machine :=
  (ptCopyEntry (written.pt 0) 0x80005000#32 511
    (stackTaken.kmallocPage.2.setPage 0x80005000#32 zeroPage)).getD stackTaken

theorem ptCopy_stackTaken :
    stackTaken.ptCopy (written.pt 0) = .ok (some 0x80005000#32, tablesCopied) :=
  ptCopy_single (by decide : 511 < 1024) rfl rfl rfl rfl

/-- The child's address space. -/
def kidSpace : AddrSpace := (written.proc 0).as.copyOver program 0x80005000#32

def kidThread : ForkedThread where
  kid := ⟨0x80100100#32, 0x80004000#32, 0x80100180#32⟩
  tid := 35
  childList := some 0x80100140#32
  tVmspace := some (0x80100040#32, kidSpace)
  tCwd := 2#32
  tf := some 0x80100280#32

/-- The memory when the child's name has been allocated. -/
def named : Kmem :=
  { (((((forking.kmalloc 0x80100280#32).kmalloc 0x80100100#32).kmalloc 0x80100140#32).vopIncref
    2#32).kmalloc 0x80100180#32) with mach := stackTaken }

theorem threadFork_named :
    { kernel with mem := kernel.mem.kmalloc 0x80100280#32 }.threadFork ⟨false, true, kidKey⟩ enough
      = { kernel with mem := named }.forkSpace ⟨false, true, kidKey⟩ enough kidThread.kid := rfl

/-- The memory when the child has its address space. -/
def spaced : Kmem :=
  { ((named.kmalloc 0x80100040#32).kmalloc 0x80100080#32).vopIncref 1#32 with mach := tablesCopied }

theorem asCopy_named : named.asCopy (written.proc 0).as (copyMem program)
    = .ok (.ok (0x80100040#32, kidSpace), spaced) :=
  Kmem.asCopy_done rfl rfl ((ptCopyAll_done (by decide)).mpr ptCopy_stackTaken)

/-- The kernel with the child, whatever the memory is. -/
def made (mem : Kmem) : Kstate :=
  { kernel with
    mem := mem
    table := (kernel.table.htAddElement kidKey kidThread.kid.thread .enough).2
    childList := ⟨[0x80100240#32], 2⟩
    sleepers := ⟨[], 2⟩
    zombies := ⟨[], 2⟩
    runqueue := kernel.runqueue.put (some kidThread.kid.thread)
    numthreads := 2 }

theorem forkSlot_made (mem : Kmem) : { kernel with mem := mem }.forkSlot
      ⟨false, true, kidKey⟩ enough kidThread.kid kidThread.tVmspace
    = .ok (.forked kidThread.kid 35 kidThread.tVmspace,
        made ((enough.takeEntry mem).kmalloc 0x80100240#32)) := by
  have hprobe : kernel.table.probe ((hashfunction kidKey).toNat % kernel.table.size)
      kernel.table.size 0 = some 35 := by decide +kernel
  have htid : (kernel.table.htAddElement kidKey kidThread.kid.thread enough.add).1 = some 35 := by
    decide +kernel
  have hadd : kernel.table.htAddElement kidKey kidThread.kid.thread enough.add
      = (some 35, (made mem).table) := Prod.ext htid rfl
  have hitem : ∀ mem table, { kernel with mem := mem, table := table }.forkItem
      enough kidThread.kid 35 kidThread.tVmspace = .ok (.forked kidThread.kid 35 kidThread.tVmspace,
        { made (mem.kmalloc 0x80100240#32) with table := table }) :=
    fun _ _ => rfl
  unfold Kstate.forkSlot
  dsimp only
  rw [hprobe, if_neg (by simp), hadd]
  exact hitem (enough.takeEntry mem) (made mem).table

/-- The lineage when the child is there. -/
def born (mem : Kmem) : Lineage := alone.addChild (made mem) kidThread enough.item

theorem sysFork_alone : ∃ mem : Kmem, alone.sysFork (some 0x80100280#32) kidKey enough
      = .ok (.ok 35, born mem) ∧
    mem.blocks = {0x80100240#32, 0x80100200#32, 0x801001c0#32, 0x80100080#32, 0x80100040#32,
      0x80100180#32, 0x80100140#32, 0x80100100#32, 0x80100280#32, 0x80100000#32} ∧
    mem.refs 1#32 = 2 ∧ mem.refs 2#32 = 1 := by
  have hfork : { kernel with mem := kernel.mem.kmalloc 0x80100280#32 }.threadFork
      ⟨false, true, kidKey⟩ enough = .ok (.forked kidThread.kid 35 kidThread.tVmspace,
        made ((enough.takeEntry spaced).kmalloc 0x80100240#32)) := by
    rw [threadFork_named]
    exact bind_eq_ok.mpr ⟨_, asCopy_named, forkSlot_made spaced⟩
  have hready : ∀ mem, ∃ m, (made mem).makeReadonly kidThread.tVmspace
      = made { mem with mach := m } := fun _ => ⟨_, rfl⟩
  obtain ⟨m, hm⟩ := hready ((enough.takeEntry spaced).kmalloc 0x80100240#32)
  refine ⟨{ (enough.takeEntry spaced).kmalloc 0x80100240#32 with mach := m },
    bind_eq_ok.mpr ⟨_, hfork, ?_⟩, rfl, rfl, rfl⟩
  dsimp only
  rw [hm]
  rfl

/-- The lineage when the child has exited. -/
def exited (mem : Kmem) : Lineage where
  k := { made mem with
    table := (made mem).table.set 35 .reserved, zombies := ⟨[kidThread.kid.thread], 2⟩
    numthreads := 1 }
  threads := [{ kidThread with tVmspace := none, tCwd := 0#32, tf := none }]
  info := Function.update (born mem).info 0x80100240#32 (35, true)

theorem sysExit_born {mem : Kmem} (h₁ : mem.refs 1#32 = 2) (h₂ : mem.refs 2#32 = 1) :
    ∃ mem' : Kmem, ((born mem).mdForkentry kidThread 0x80100280#32).sysExit
        { kidThread with tf := none } true = .ok (exited mem') ∧
      mem'.blocks = mem.blocks.erase 0x80100280#32 := by
  have hdec : ∀ (m : Kmem) (v w : Word), v ≠ w → m.refs v ≠ 0 →
      ∃ m', m.decrefIfAny v = .ok m' ∧ m'.refs w = m.refs w := by
    intro m v w hne hv
    by_cases hz : v = 0#32
    · exact ⟨m, by rw [Kmem.decrefIfAny, if_pos hz], rfl⟩
    · exact ⟨_, by rw [Kmem.decrefIfAny, if_neg hz, Kmem.vopDecref, if_neg hv],
        Function.update_of_ne hne.symm ..⟩
  obtain ⟨mem₁, hmem₁, hrefs⟩ := hdec { mem.kfree 0x80100280#32 with
    mach := mem.mach.ptDeepDestroy kidSpace.pageTable } 1#32 2#32 (by decide)
    (by simp [Kmem.kfree, h₁])
  obtain ⟨mem₂, hmem₂, -⟩ := hdec mem₁ 2#32 0#32 (by decide) (by simp [hrefs, Kmem.kfree, h₂])
  refine ⟨mem₂, bind_eq_ok.mpr ⟨mem₁, hmem₁, bind_eq_ok.mpr ⟨mem₂, hmem₂, ?_⟩⟩,
    (Kmem.blocks_decrefIfAny hmem₂).trans (Kmem.blocks_decrefIfAny hmem₁)⟩
  rfl

/-- The lineage when the child has been waited for. -/
def waited (mem : Kmem) : Lineage :=
  { exited mem with
    k := { (exited mem).k with
      table := (exited mem).k.table.set 35 .deleted, childList := ⟨[], 2⟩ } }

/-- The lineage when the child has been destroyed. -/
def exorcised (mem : Kmem) : Lineage :=
  { waited mem with k := { (waited mem).k with zombies := ⟨[], 2⟩ }, threads := [] }

theorem exorcise_waited (mem : Kmem) : ∃ m, (waited mem).exorcise = .ok (exorcised
    ((({ mem with mach := m }.kfree 0x80100180#32).kfree 0x80100140#32).kfree 0x80100100#32)) :=
  ⟨_, rfl⟩

/-- The child is forked, starts, exits, is waited for and is destroyed. -/
def life : List LifeEvent :=
  [.fork 0x80100280#32 kidKey enough, .start kidThread, .exit { kidThread with tf := none },
    .wait 35, .exorcise]

theorem run_life : ∃ l', Lts.Run LifeStep alone life l' ∧ l'.threads = [] ∧
    l'.k.mem.blocks = {0x80100000#32, 0x80100040#32, 0x80100080#32, 0x801001c0#32, 0x80100200#32,
      0x80100240#32} := by
  obtain ⟨mem, hfork, hblocks, h₁, h₂⟩ := sysFork_alone
  obtain ⟨mem', hexit, hblocks'⟩ := sysExit_born h₁ h₂
  have hall : (0x80100280#32 :: enough.taken).all (fun x => x ∉ alone.k.mem.blocks) = true := by
    decide +kernel
  have hnew : (0x80100280#32 :: enough.taken).Nodup ∧
      ∀ x ∈ 0x80100280#32 :: enough.taken, x ∉ alone.k.mem.blocks :=
    ⟨by decide +kernel, fun x hx => of_decide_eq_true (List.all_eq_true.mp hall x hx)⟩
  obtain ⟨m, hex⟩ := exorcise_waited mem'
  have hwait : (exited mem').sysWait 35 0#32 none = .ok (some (.ok 35, waited mem')) := rfl
  refine ⟨_, .head (.fork hnew hfork) (.head (.start List.mem_cons_self rfl)
    (.head (.exit List.mem_cons_self rfl rfl hexit)
    (.head (.wait hwait) (.single (.exorcise hex))))), rfl, ?_⟩
  have hfreed : (((mem'.kfree 0x80100180#32).kfree 0x80100140#32).kfree 0x80100100#32).blocks
      = {0x80100000#32, 0x80100040#32, 0x80100080#32, 0x801001c0#32, 0x80100200#32,
        0x80100240#32} := by
    simp only [Kmem.kfree, hblocks', hblocks]
    decide +kernel
  exact hfreed

/-- The account of one child. -/
theorem fork_wait_account_life : ∃ l', Lts.Run LifeStep alone life l' ∧
    l'.k.mem.blocks.card = alone.k.mem.blocks.card + 5 := by
  obtain ⟨l', hr, hthreads, -⟩ := run_life
  exact ⟨l', hr, ((fork_wait_account rfl rfl hr).2.2 hthreads).1⟩

/-- The child's address space, region table, process table entry, key and `child_info` are left. -/
theorem fork_wait_loses_blocks : ∃ l', Lts.Run LifeStep alone life l' ∧ l'.threads = [] ∧
    alone.k.mem.blocks = {0x80100000#32} ∧
    l'.k.mem.blocks = {0x80100000#32, 0x80100040#32, 0x80100080#32, 0x801001c0#32, 0x80100200#32,
      0x80100240#32} := by
  obtain ⟨l', hr, hthreads, hblocks⟩ := run_life
  exact ⟨l', hr, hthreads, rfl, hblocks⟩

end OnePage

end OS161
