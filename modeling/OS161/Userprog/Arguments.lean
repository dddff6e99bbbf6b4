import OS161.Userprog.ArgBlock
import OS161.Userprog.Start
import OS161.Vm.StackGrowth

/-! The arguments that `sys_execv` copies, and the block `vm_fault` lays out from them. -/
namespace OS161

open Machine
open BitVec (ofNat toNat_sub toNat_add toNat_ofNat)

section
variable {live : Finset Nat} {pt : Nat → Vaddr} {own : Nat → Owner} {m m' : Machine} {c c' : Ctx}
  {p r f rand : Nat} {va : Vaddr} {ft : FaultType} {region : Mapping} {lookup : Lookup}
  {flags : Word} {a : Args}

theorem Owned.mapPage_view (h : Owned live pt own m) (hp : p ∈ live) (hz : pt p ≠ 0#32)
    (hw : m.word (pt p) (index1 va) ≠ 0#32) (hf : own f = .pending r)
    (hinv : isValid (m.entry (pt p) (index1 va) (index2 va)) = false)
    (hm' : (m.updateSecondPtEntry (pt p) va (m.kva f) flags).2 = m') :
    m'.view (pt p) (index1 va) (index2 va) = some (m.mem f) := by
  have hlt : f < m.coremap.size := h.inside f (by simp [hf])
  obtain ⟨-, hst, hs, hmem⟩ := h.mapPage hp hz hw hf hinv hm'
  have hent := hst p hp (index1 va) (index2 va) (index1_lt va)
  rw [if_pos ⟨rfl, rfl, rfl⟩] at hent
  rw [view, hent, if_pos (isValid_newEntry _), ppage_newEntry hlt, hs.frameIndex,
    Coremap.frameIndex_frameAddr hlt, hmem f (by simp [hf])]

section
variable (h : Owned live pt own c.mach) (hp : p ∈ live) (hpt : pt p = c.as.pageTable)
  (hargs : c.args = some a)
include h hp hpt hargs

theorem Ctx.growStack_view (hz : c.as.pageTable ≠ 0#32)
    (hw : c.mach.word c.as.pageTable (index1 va) ≠ 0#32) (hinv : isValid (c.pte va) = false)
    (ho : c.growStack va rand = .done c') :
    c'.mach.view c'.as.pageTable (index1 va) (index2 va) = some (a.page (pageOf va)) := by
  unfold Ctx.growStack at ho
  split at ho
  · rename_i frame m₁ hk
    cases ho
    obtain ⟨f, own', hlt, rfl, hfo, hq, hword⟩ := c.kmallocZeroed_quiet h hp hpt hz hk
    have hz' : pt p ≠ 0#32 := by rw [hpt]; exact hz
    have hfill := hq.owned.fill hfo (a.page (pageOf va))
    have hent := (hq.trans hfill).entries p hp (index1 va) (index2 va) (index1_lt va)
    have hw' : (m₁.setPage (m₁.kva f) (a.page (pageOf va))).word (pt p) (index1 va) ≠ 0#32 := by
      rw [hq.owned.fill_word hp hz' hfo, hpt, hword]
      exact hw
    have hview := hfill.owned.mapPage_view hp hz' hw' hfo (by rw [hent, hpt]; exact hinv)
      (show (updateSecondPtEntry _ _ _ _ pfW).2 = _ from rfl)
    rw [hargs]
    refine Eq.trans ?_ (hview.trans ?_)
    · rw [hpt]
      rfl
    · rw [setPage_mem, frameOf_kva hlt, Function.update_self]
  · cases ho

theorem Ctx.mapMissing_view (hz : c.as.pageTable ≠ 0#32)
    (hl : lookup = .noSecondLevelPt ↔ c.mach.word c.as.pageTable (index1 va) = 0#32)
    (hinv : isValid (c.pte va) = false)
    (ho : c.mapMissing va rand region lookup = .done c') (hnone : c'.args = none) :
    c'.mach.view c'.as.pageTable (index1 va) (index2 va) = some (a.page (pageOf va)) := by
  rcases @Ctx.mapMissing_cases c va rand lookup region with ⟨-, hkept⟩ | ⟨rfl, -⟩
  · rw [ho] at hkept
    change c'.args = c.args at hkept
    rw [hnone, hargs] at hkept
    cases hkept
  unfold Ctx.mapMissing at ho
  split at ho
  · cases ho
  rename_i c₁ hc₁
  obtain ⟨own', hq, hw, hc⟩ := c.ensureSecond_quiet h hpt hp hz hl hc₁
  have hargs₁ : c₁.args = some a := by rw [hc]; exact hargs
  have htable : c₁.as.pageTable = c.as.pageTable := by rw [hc]
  have hent := hq.entries p hp (index1 va) (index2 va) (index1_lt va)
  refine c₁.growStack_view hq.owned hp (hpt.trans htable.symm) hargs₁ ?_ ?_ ?_ ho
  · rw [htable]
    exact hz
  · rw [htable]
    exact hw
  · rw [Ctx.pte, htable, ← hpt, hent, hpt]
    exact hinv

theorem Ctx.access_view (hz : c.as.pageTable ≠ 0#32)
    (ho : c.access va ft rand region = .done c') (hnone : c'.args = none) (hft : ft ≠ .readonly) :
    c'.mach.view c'.as.pageTable (index1 va) (index2 va) = some (a.page (pageOf va)) := by
  by_cases hv : isValid (c.pte va) = true
  · -- The page is there already, and the arguments stay where they are.
    rw [access, ptLookup_valid hft hv] at ho
    cases ho
    rw [hargs] at hnone
    cases hnone
  · obtain ⟨lookup, heq, hl⟩ := access_missing ft rand region hz hv
    exact c.mapMissing_view h hp hpt hargs hz hl (by simpa using hv) (heq ▸ ho) hnone

/-- The fault that takes the arguments has laid them out in the page it maps. -/
theorem Ctx.vmFault_view {o : Outcome} (ho : c.vmFault ft va rand = .ok o)
    (hnone : o.ctx.args = none) :
    o.ctx.mach.view o.ctx.as.pageTable (index1 va) (index2 va) = some (a.page (pageOf va)) := by
  have hsame : c.args = o.ctx.args → False := by
    intro heq
    rw [hargs, hnone] at heq
    cases heq
  cases Ctx.vmFault_cases ho with
  | noRegion | noTable => exact (hsame rfl).elim
  | @modify _ c₁ _ _ hc₁ _ hm =>
    exact (hsame ((Ctx.modify_same hm).2.trans (Ctx.ensureTable_same hc₁).2).symm).elim
  | @access region c₁ _ _ hc₁ hft ho =>
    subst ho
    obtain ⟨own', hq, hz, -⟩ := c.ensureTable_quiet h hpt hc₁
    have hargs₁ : c₁.args = some a := (Ctx.ensureTable_same hc₁).2.trans hargs
    rcases c₁.access_cases va ft rand region with ⟨-, hkept⟩ | ⟨rfl, c', hc', -⟩
    · rw [hkept, hargs₁] at hnone
      cases hnone
    · rw [hc'] at hnone ⊢
      exact c₁.access_view hq.owned hp (Function.update_self ..) hargs₁ hz hc' hnone hft

end

theorem Ctx.vmFault_readonly_args {o : Outcome} (ho : c.vmFault .readonly va rand = .ok o) :
    o.ctx.args = c.args := by
  cases Ctx.vmFault_cases ho with
  | noRegion | noTable => rfl
  | modify _ hc₁ _ hm => exact (Ctx.modify_same hm).2.trans (Ctx.ensureTable_same hc₁).2
  | access _ _ hft _ => exact (hft rfl).elim

end

section
variable {s t : Sys} {e : Event} {p : Nat} {a : Args} {exits : Bool}

/-- The step that takes the arguments of a process has laid them out in the page below
USERSTACK. -/
theorem SteadyInv.args_laid_out (hi : SteadyInv exits s) (h : Step s e t) (hok : Steady exits s e)
    (hp : p ∈ s.live) (hr : s.StackReady p) (hargs : (s.proc p).args = some a)
    (hnone : (t.proc p).args = none) :
    t.mach.view (t.pt p) 511 1023 = some (a.page (userstack - pageSizeW)) := by
  cases (hi.stackStep h hok hp hr.mapped).1 with
  | same _ hkept =>
    rw [hnone, hargs] at hkept
    cases hkept
  | @grown rand ft va hmode _ hbase hdown _ =>
    rw [hr.waiting (by rw [hargs]; simp), hbase, toNat_userstack] at hdown
    have hpage : pageOf va = userstack - pageSizeW := by
      refine BitVec.eq_of_toNat_eq ?_
      rw [show (userstack - pageSizeW).toNat = 2147479552 from rfl]
      omega
    have hva := toNat_pageOf va
    have h₁ : index1 va = 511 := by
      rw [index1_eq]
      omega
    have h₂ : index2 va = 1023 := by
      rw [index2_eq]
      omega
    obtain ⟨o, ho, rfl⟩ := h.fault_outcome hmode
    obtain ⟨mode, hput⟩ := settle_eq_put (s := s) (p := p) (o := o)
    rw [hput] at hnone ⊢
    have hnone' : o.ctx.args = none := by
      simpa [Sys.put] using hnone
    have hft : ft ≠ .readonly := by
      rintro rfl
      have hkept := (Ctx.vmFault_readonly_args ho).symm
      rw [hnone'] at hkept
      exact absurd (hargs.symm.trans hkept) (by simp)
    obtain ⟨lost, own, hl, -⟩ := hi
    have ho' : ((s.ctx p).recount (putBack lost)).vmFault ft va rand
        = .ok (o.recount (putBack lost)) := by
      rw [Ctx.vmFault_recount _ hft, ho]
      rfl
    have hview := Ctx.vmFault_view hl.inv.owned hp rfl hargs ho' (by cases o <;> exact hnone')
    rw [hpage, h₁, h₂] at hview
    rw [pt_put, Function.update_self]
    refine Eq.trans ?_ hview
    cases o <;> rfl

end

/-- From its start on the arguments of a process wait or have been taken. -/
theorem pending_run {u₀ u : Sys} {as : AddrSpace} {es : List Event}
    (hreach : Lts.Reachable Init (Lts.Restrict Step (SteadyStart exits)) u₀)
    (hrun : Lts.Run (Lts.Restrict Step (SteadyStart exits)) u₀ (.start p as (some a) :: es) u)
    (hp : p ∈ u.live) : SteadyInv exits u ∧ u.StackReady p ∧
      ((u.proc p).args = none ∨ (u.proc p).args = some a) := by
  cases hrun with
  | @head _ u₁ _ _ _ hstart hrun =>
    have hnext : p < u₁.next := by
      cases hstart.1
      exact Nat.lt_succ_self _
    let Waits : Sys → Prop := fun u =>
      (SteadyInv exits u ∧ ∀ q, q ∈ u.live → u.StackReady q) ∧ p < u.next ∧
        (p ∈ u.live → (u.proc p).args = none ∨ (u.proc p).args = some a)
    have hinv : Waits u := by
      refine hrun.invariant Waits (fun s e t hstep hs => ?_)
        ⟨stackReady_reachable (hreach.next hstart), hnext,
          fun _ => .inr (by rw [hstart.1.started])⟩
      obtain ⟨⟨hi, hr⟩, hlt, hargs⟩ := hs
      obtain ⟨hle, hold⟩ := hstep.1.live_next
      refine ⟨⟨(hi.step hstep.1 hstep.2.1).1, hi.stackReady_step hr hstep.1 hstep.2⟩,
        Nat.lt_of_lt_of_le hlt hle, fun hpt => ?_⟩
      have hps := hold p hlt hpt
      cases (hi.stackStep hstep.1 hstep.2.1 hps (hr p hps).mapped).1 with
      | same _ hsame =>
        rw [hsame]
        exact hargs hps
      | grown _ _ _ _ hnone => exact .inl hnone
    obtain ⟨⟨hi, hr⟩, -, hargs⟩ := hinv
    exact ⟨hi, hr p hp, hargs hp⟩

/-- The user memory has the string at an address, with its NUL. -/
structure ExecCall.StringAt (call : ExecCall) (ptr : Vaddr) (str : List Byte) : Prop where
  chars : ∀ k b, str[k]? = some b → b ≠ 0#8 ∧ call.user (ptr + ofNat 32 k) = some b
  nul : call.user (ptr + ofNat 32 str.length) = some 0#8

/-- The `i`th pointer is there, and `str` is the string at it. -/
def ExecCall.HasArg (call : ExecCall) (i : Nat) (str : List Byte) : Prop :=
  ∃ ptr, call.argv i = some ptr ∧ ptr ≠ 0#32 ∧ call.StringAt ptr str

section
variable {call : ExecCall} {s s' : Image} {c c' : ArgCopy} {n i argc : Nat} {str : List Byte}
  {e : Errno} {src argv stackptr entry : Vaddr}

theorem ExecCall.copystr_ok (h : call.copystr e n src = .ok str) :
    str.length < n ∧ call.StringAt src str := by
  induction n generalizing src str with
  | zero => cases h
  | succ n ih =>
    unfold copystr at h
    split at h
    · cases h
    rename_i b hb
    split at h
    · rename_i hz
      cases h
      subst hz
      exact ⟨by simp, by simp, by simpa using hb⟩
    rename_i hz
    obtain ⟨rest, hrest, rfl⟩ : ∃ rest, call.copystr e n (src + 1#32) = .ok rest ∧
        str = b :: rest := by
      cases hrest : call.copystr e n (src + 1#32) with
      | error e' =>
        rw [hrest] at h
        cases h
      | ok rest =>
        rw [hrest] at h
        cases h
        exact ⟨rest, rfl, rfl⟩
    obtain ⟨hlen, hchars, hnul⟩ := ih hrest
    have hnext : ∀ k, src + ofNat 32 (k + 1) = src + 1#32 + ofNat 32 k := by
      intro k
      rw [BitVec.add_assoc, Nat.add_comm k 1, BitVec.ofNat_add]
    refine ⟨by simpa using hlen, ?_, ?_⟩
    · intro k x hx
      cases k with
      | zero =>
        simp only [List.getElem?_cons_zero, Option.some.injEq] at hx
        subst hx
        exact ⟨hz, by simpa using hb⟩
      | succ k =>
        rw [hnext]
        exact hchars k x hx
    · rw [List.length_cons, hnext]
      exact hnul

theorem ExecCall.copyinstr_ok {len : Nat} (h : call.copyinstr src len = .ok str) :
    str.length < len ∧ call.StringAt src str := by
  obtain ⟨stoplen, -, h⟩ := bind_eq_ok.mp h
  obtain ⟨hlen, hstr⟩ := copystr_ok h
  exact ⟨by omega, hstr⟩

/-- The loop copies the strings up to the first NULL pointer, or finds none and counts no
argument. -/
theorem ExecCall.copyArgs_ok (h : call.copyArgs n i c = .ok (c', .ok argc)) :
    ∃ strs : List (List Byte), c'.strings = c.strings ++ strs ∧
      (∀ k str, strs[k]? = some str → str.length < 30 ∧ call.HasArg (i + k) str) ∧
      (strs.length < n ∧ call.argv (i + strs.length) = some 0#32 ∧ argc = i + strs.length ∨
        strs.length = n ∧ argc = 0) := by
  induction n generalizing i c with
  | zero =>
    cases h
    exact ⟨[], by simp, by simp, .inr ⟨rfl, rfl⟩⟩
  | succ n ih =>
    unfold copyArgs at h
    split at h
    · cases h
    rename_i ptr hptr
    split at h
    · rename_i hz
      cases h
      subst hz
      exact ⟨[], by simp, by simp, .inl ⟨by simp, hptr, rfl⟩⟩
    rename_i hz
    split at h
    · cases h
    split at h
    · cases h
    rename_i str hstr
    obtain ⟨hlen, hat⟩ := copyinstr_ok hstr
    obtain ⟨strs, hstrs, hargs, hend⟩ := ih h
    refine ⟨str :: strs, by rw [hstrs]; simp, ?_, ?_⟩
    · intro k x hx
      cases k with
      | zero =>
        simp only [List.getElem?_cons_zero, Option.some.injEq] at hx
        subst hx
        exact ⟨hlen, ptr, hptr, hz, hat⟩
      | succ k =>
        rw [← Nat.succ_add_eq_add_succ i k]
        exact hargs k x hx
    · rw [List.length_cons]
      refine hend.imp ?_ ?_
      · rintro ⟨hlt, hnull, hargc⟩
        refine ⟨by omega, ?_, by omega⟩
        rw [← Nat.succ_add_eq_add_succ i]
        exact hnull
      · rintro ⟨hlen', hargc⟩
        exact ⟨by omega, hargc⟩

/-- Every turn reads a pointer as it is. -/
theorem ExecCall.copyArgs_unprotected {r : Except Errno Nat}
    (h : call.copyArgs n i c = .ok (c', r)) (hc : c.unprotected = true ∨ n ≠ 0) :
    c'.unprotected = true := by
  induction n generalizing i c with
  | zero =>
    cases h
    simpa using hc
  | succ n ih =>
    unfold copyArgs at h
    split at h
    · cases h
    dsimp only at h
    split at h
    · cases h
      rfl
    split at h
    · cases h
      rfl
    split at h
    · cases h
      rfl
    · exact ih h (.inl rfl)

theorem ExecCall.copyIn_ok {name : List Byte} (h : call.copyIn = .ok (c, .ok (name, n))) :
    ∃ c₀, call.copyArgs 16 0 c₀ = .ok (c, .ok n) ∧ c₀.strings = [] := by
  unfold copyIn at h
  split at h
  · cases h
  split at h
  · split at h
    · cases h
    obtain ⟨⟨c', r⟩, hcopy, h⟩ := bind_eq_ok.mp h
    cases r with
    | error e => cases h
    | ok n' =>
      cases h
      exact ⟨_, hcopy, rfl⟩
  · cases h

theorem stackFor_toNat {strs : List (List Byte)} (hn : strs.length ≤ 15)
    (hlen : ∀ str ∈ strs, str.length < 30) (h : (stackptr, argv) = stackFor strs.length strs) :
    stackptr.toNat + (argStart strs strs.length + 4 * (strs.length + 1)) = userstack.toNat ∧
      argv.toNat + 4 * (strs.length + 1) = userstack.toNat := by
  have hle := argStart_le hlen
  have htop : userstack.toNat = 2147483648 := rfl
  simp only [stackFor, Prod.mk.injEq] at h
  obtain ⟨rfl, rfl⟩ := h
  change (_ - (_ + ofNat 32 (argStart strs strs.length))).toNat + _ = _ ∧
    (_ - (_ + ofNat 32 (argStart strs strs.length)) +
      ofNat 32 (argStart strs strs.length)).toNat + _ = _
  constructor
  · rw [toNat_sub, toNat_add, toNat_ofNat, toNat_ofNat, htop]
    omega
  · rw [toNat_add, toNat_sub, toNat_add, toNat_ofNat, toNat_ofNat, htop]
    omega

theorem ExecCall.sysExecv_args (h : call.sysExecv s = .ok (.entered argc argv stackptr entry s')) :
    s'.as.asStackvbase = userstack ∧ ∃ c₀ c, call.copyArgs 16 0 c₀ = .ok (c, .ok argc) ∧
      c₀.strings = [] ∧ s'.args = some (c.strings.take argc) ∧
      (stackptr, argv) = stackFor argc c.strings := by
  obtain ⟨c, r, ⟨_, _, _, _, s₀⟩ | _, hcopy, h, hmark⟩ := sysExecv_ok h <;> cases hmark
  cases r with
  | error e => exact absurd h Image.fail_ne_entered
  | ok r =>
    obtain ⟨name, n⟩ := r
    obtain ⟨c₀, hargs, hnil⟩ := copyIn_ok hcopy
    cases hopen : call.vfsOpen name with
    | error e =>
      simp only [goOn, load, hopen] at h
      exact absurd h Image.fail_ne_entered
    | ok p =>
      obtain ⟨addr, left, as, -, hload, has, hstrs, rfl, hstack⟩ := load_entered hopen h
      refine ⟨?_, c₀, c, hargs, hnil, hstrs, hstack⟩
      obtain rfl := File.loadElf_eq hload
      exact congrArg AddrSpace.asStackvbase has

/-- The call gives up before it reads a pointer. -/
def ExecCall.FailsEarly (call : ExecCall) : Prop :=
  call.argBlock ≠ none ∧
    (call.nameBlock = false ∨ ∃ e, call.copyinstr call.progname 30 = .error e)

theorem ArgCopy.kfreeArg_foldlM {blocks : List Word} {is : List Nat}
    (h : ∀ i ∈ is, c.arg i = 0#32 ∨ c.arg i = deadbeef) :
    is.foldlM c.kfreeArg blocks = .ok blocks := by
  induction is with
  | nil => rfl
  | cons i is ih =>
    rw [List.foldlM_cons, kfreeArg, if_pos (h i List.mem_cons_self)]
    exact ih fun j hj => h j (List.mem_cons_of_mem _ hj)

theorem ExecCall.copyIn_failsEarly (h : call.FailsEarly) : ∃ found e, call.argBlock = some found ∧
    call.copyIn = .ok (⟨fun i => if i < 10 then 0#32 else found i, [], [], false⟩, .error e) := by
  obtain ⟨hblock, hwhy⟩ := h
  obtain ⟨found, hfound⟩ := Option.ne_none_iff_exists'.mp hblock
  refine ⟨found, ?_⟩
  rcases hwhy with hname | ⟨e, he⟩
  · exact ⟨.enomem, hfound, by simp [copyIn, hfound, hname]⟩
  cases hname : call.nameBlock with
  | false => exact ⟨.enomem, hfound, by simp [copyIn, hfound, hname]⟩
  | true => exact ⟨e, hfound, by simp [copyIn, hfound, hname, he]⟩

theorem ExecCall.failsEarly_of_protected {result : ExecResult} (h : call.sysExecv s = .ok result)
    (hread : result.image.unprotected = false) : call.FailsEarly := by
  obtain ⟨c, r, result₀, hcopy, -, rfl⟩ := sysExecv_ok h
  have hc : c.unprotected = false := by
    cases result₀ <;> exact hread
  unfold copyIn at hcopy
  split at hcopy
  · cases hcopy
  rename_i found hfound
  refine ⟨by simp [hfound], ?_⟩
  split at hcopy
  · split at hcopy
    · rename_i e he
      exact .inr ⟨e, he⟩
    obtain ⟨⟨c', r'⟩, hargs, hcopy⟩ := bind_eq_ok.mp hcopy
    cases hcopy
    rw [copyArgs_unprotected hargs (.inr (by decide))] at hc
    cases hc
  · rename_i hname
    exact .inl (Bool.eq_false_iff.mpr hname)

/-- What the program that is started gets: the strings at the pointers before the first NULL, which
wait until the first fault on its stack has laid them out in the page it maps. -/
def ExecCall.Delivers (call : ExecCall) (argc : Nat) (argv stackptr : Vaddr) (s' : Image) : Prop :=
  s'.as.asStackvbase = userstack ∧ ∃ a : Args, s'.args = some a.strings ∧
    argc = a.strings.length ∧ call.argv argc = some 0#32 ∧
    (∀ i str, a.strings[i]? = some str → call.HasArg i str) ∧
    ∀ (exits : Bool) (u₀ u : Sys) (p : Nat) (es : List Event),
      Lts.Reachable Init (Lts.Restrict Step (SteadyStart exits)) u₀ →
      Lts.Run (Lts.Restrict Step (SteadyStart exits)) u₀ (.start p s'.as (some a) :: es) u →
      p ∈ u.live → (u.proc p).args = none ∨ (u.proc p).args = some a ∧
        ∀ e t, Step u e t → Steady exits u e → (t.proc p).args = none →
          ∃ pg, t.mach.view (t.pt p) 511 1023 = some pg ∧ a.Delivered stackptr argv pg

theorem ExecCall.delivers_iff (h : call.sysExecv s = .ok (.entered argc argv stackptr entry s')) :
    call.Delivers argc argv stackptr s' ↔ ∃ n < 16, call.argv n = some 0#32 := by
  constructor
  · rintro ⟨-, a, -, rfl, hnull, -⟩
    exact ⟨_, a.argc_lt, hnull⟩
  rintro ⟨n, hn, hzero⟩
  obtain ⟨hbase, c₀, c, hargs, hnil, htaken, hstack⟩ := sysExecv_args h
  obtain ⟨strs, hstrs, hat, hend⟩ := copyArgs_ok hargs
  rw [hnil, List.nil_append] at hstrs
  simp only [Nat.zero_add] at hat hend
  rcases hend with ⟨hlt, hnull, rfl⟩ | ⟨hlen, rfl⟩
  · have hshort : ∀ str ∈ strs, str.length < 30 := by
      intro str hmem
      obtain ⟨k, hk⟩ := List.mem_iff_getElem?.mp hmem
      exact (hat k str hk).1
    have hle := argStart_le hshort
    have hfits : (strs.flatMap (· ++ [0#8])).length + 4 * (strs.length + 1) ≤ pageSize := by
      rw [length_argStrings, pageSize]
      omega
    rw [hstrs] at hstack
    rw [hstrs, List.take_length] at htaken
    obtain ⟨hsp, hargv⟩ := stackFor_toNat (by omega) hshort hstack
    refine ⟨hbase, ⟨strs, hlt, hfits⟩, htaken, rfl, hnull, fun i str hx => (hat i str hx).2, ?_⟩
    intro exits u₀ u p es hreach hrun hp
    obtain ⟨hi, hr, hpending⟩ := pending_run hreach hrun hp
    refine hpending.imp_right fun hpend => ⟨hpend, fun e t hstep hok hnone => ?_⟩
    exact ⟨_, hi.args_laid_out hstep hok hp hr hpend hnone, Args.delivered _ hsp hargv⟩
  · obtain ⟨-, ptr, hptr, hne, -⟩ := hat n _ (List.getElem?_eq_getElem (hlen ▸ hn))
    exact (hne (Option.some.inj (hptr.symm.trans hzero))).elim

/-- A call of `sys_execv` that does not crash reads user memory unprotected unless it fails before
it reads a pointer. A program that it starts is given its arguments exactly if a NULL is among the
first 16 pointers. -/
theorem execv_delivers_arguments (hf : call.Fresh s) :
    ((∃ result, call.sysExecv s = .ok result ∧ result.image.unprotected = false ∧
      ∀ argc argv stackptr entry s', result = .entered argc argv stackptr entry s' →
        call.Delivers argc argv stackptr s') ↔ call.FailsEarly) ∧
    ∀ argc argv stackptr entry s', call.sysExecv s = .ok (.entered argc argv stackptr entry s') →
      (call.Delivers argc argv stackptr s' ↔ ∃ n < 16, call.argv n = some 0#32) := by
  refine ⟨⟨?_, fun hearly => ?_⟩, fun _ _ _ _ _ h => ExecCall.delivers_iff h⟩
  · rintro ⟨result, h, hread, -⟩
    exact ExecCall.failsEarly_of_protected h hread
  obtain ⟨found, e, hfound, hcopy⟩ := ExecCall.copyIn_failsEarly hearly
  have hfail : s.fail ⟨fun i => if i < 10 then 0#32 else found i, [], [], false⟩ 0#32 e
      = .ok (.failed e s) := by
    rw [Image.fail, ArgCopy.kfreeArg_foldlM]
    · rfl
    intro i hi
    dsimp only
    split
    · exact .inl rfl
    · exact hf.arg found hfound i (by omega) (List.mem_range.mp hi)
  refine ⟨(ExecResult.failed e s).mark false, ?_, rfl, by simp [ExecResult.mark]⟩
  exact bind_eq_ok.mpr ⟨_, hcopy, bind_eq_ok.mpr ⟨_, hfail, rfl⟩⟩

end

namespace OnePage

/-- `execv` over a block of zeros. -/
abbrev execZeros (argv : Nat → Option Word) : ExecCall := execArgs ⟨[], 0, 0, 0, 0, 0, 0⟩ argv

/-- One argument, the name of the program. -/
def oneArg (i : Nat) : Option Word := some (if i = 0 then 0x10000000#32 else 0#32)

def oneName : Args := ⟨[[0x78#8]], by decide, by decide⟩

def overZeros : AddrSpace := ⟨program.asRegion, userstack, 0, 0x10001000#32, 0, 0, 1⟩

/-- The program, started with its name. -/
def started : Sys :=
  { running with proc := Function.update boot.proc 0 ⟨overZeros, some oneName, .user⟩ }

/-- After its first fault on its stack it has its name there. -/
theorem execv_delivers_one : ∃ s' pg, (execZeros oneArg).Fresh caller ∧
    (execZeros oneArg).sysExecv caller
      = .ok (.entered 1 0x7ffffff8#32 0x7ffffff6#32 0x400000#32 s') ∧
    s'.as = overZeros ∧ s'.args = some oneName.strings ∧
    (afterFault started 0 .write stackVa).mach.view
      ((afterFault started 0 .write stackVa).pt 0) 511 1023 = some pg ∧
    oneName.Delivered 0x7ffffff6#32 0x7ffffff8#32 pg := by
  have hfresh : (execZeros oneArg).Fresh caller := by
    constructor
    · rintro _ _ ⟨⟩
      decide
    · rintro _ ⟨⟩ _ _ _
      exact .inr rfl
  have hargs : (execZeros oneArg).copyArgs 16 0 noArgs
      = .ok (⟨Function.update noArgs.arg 0 0x80100100#32, [0x80100100#32], [[0x78#8]], true⟩,
        .ok 1) := by rfl
  obtain ⟨s', hs', has, htaken⟩ := sysExecv_execArgs hargs loadElf_zeros rfl
  obtain ⟨-, a, ha, -, -, -, hdel⟩ :=
    ((execv_delivers_arguments hfresh).2 _ _ _ _ _ hs').mpr ⟨1, by decide, rfl⟩
  obtain rfl : a = oneName := by
    cases a
    cases Option.some.inj (ha.symm.trans htaken)
    rfl
  have hboot : Lts.Reachable Init (Lts.Restrict Step (SteadyStart false)) boot :=
    .of_init ⟨rfl, rfl, fun _ _ _ => rfl⟩
  obtain ⟨htrap, hfault⟩ := step_afterFault started 0 .write stackVa true ⟨rfl, by decide, rfl⟩
    (by decide) rfl rfl
  have hrun : Lts.Run (Lts.Restrict Step (SteadyStart false)) boot
      [.start 0 s'.as (some oneName), .switch (some 0), .trap 0 .write stackVa]
      (started.setMode 0 (.trapped .write stackVa)) := by
    rw [has]
    refine .head
      ⟨@Step.start boot overZeros (some oneName) rfl (by decide), by simp [Steady], ?_⟩ <|
      .head (t := started)
        ⟨Step.switch (q := some 0) (by simp [boot]), by simp [Steady], by simp [StartsEmpty]⟩ <|
      .head ⟨htrap, by simp [Steady], by simp [StartsEmpty]⟩ .refl
    rintro _ _ _ ⟨⟩
    rfl
  have hwait := hdel false boot _ 0 _ hboot hrun (by decide)
  rcases hwait with hnone | ⟨-, hwait⟩
  · cases hnone
  · obtain ⟨pg, hview, hpg⟩ := hwait _ _ hfault (by simp [Steady]) rfl
    exact ⟨s', pg, hfresh, hs', has, htaken, hview, hpg⟩

/-- With sixteen arguments the program is started without any; and with a vector that cannot be read
the kernel stops. -/
theorem execv_drops_arguments :
    (∀ i, i < 16 → (execZeros fun _ => some 0x10000000#32).argv i = some 0x10000000#32) ∧
    (∃ s', (execZeros fun _ => some 0x10000000#32).sysExecv caller
      = .ok (.entered 0 0x7ffffffc#32 0x7ffffffc#32 0x400000#32 s') ∧ s'.unprotected = true) ∧
    (execZeros fun _ => none).sysExecv caller = .error .panic := by
  refine ⟨fun _ _ => rfl, ?_, by rfl⟩
  obtain ⟨c, hargs⟩ : ∃ c, (execZeros fun _ => some 0x10000000#32).copyArgs 16 0 noArgs
      = .ok (c, .ok 0) := ⟨_, by rfl⟩
  have hstack : stackFor 0 c.strings = (0x7ffffffc#32, 0x7ffffffc#32) := by
    simp only [stackFor, List.take_zero, List.map_nil, List.sum_nil]
    decide
  obtain ⟨s', hs', -⟩ := sysExecv_execArgs hargs loadElf_zeros hstack
  refine ⟨s', hs', Bool.of_not_eq_false fun hread => ?_⟩
  obtain ⟨-, hname | ⟨e, he⟩⟩ := ExecCall.failsEarly_of_protected hs' hread
  · cases hname
  · cases he

end OnePage

end OS161
