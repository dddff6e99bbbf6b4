import Mathlib.Data.List.Nodup

/-! Null-terminated lists that run through a `next` field of their members. -/
namespace Linked

variable {α ε : Type*} {next next' : α → Option α} {head : Option α} {l xs ys : List α} {x y : α}

/-- From `head`, following `next`, one meets the members of the list in order and then NULL. -/
def Chain (next : α → Option α) : Option α → List α → Prop
  | head, [] => head = none
  | head, x :: l => head = some x ∧ Chain next (next x) l

theorem chain_none_iff : Chain next none l ↔ l = [] := by
  cases l with
  | nil | cons => simp [Chain]

theorem Chain.unique (h : Chain next head xs) (h' : Chain next head ys) : xs = ys := by
  induction xs generalizing head ys with
  | nil =>
    rw [show head = none from h, chain_none_iff] at h'
    exact h'.symm
  | cons x xs ih =>
    obtain ⟨rfl, hxs⟩ := h
    cases ys with
    | nil => cases h'
    | cons y ys =>
      obtain ⟨hy, hys⟩ := h'
      cases hy
      rw [ih hxs hys]

/-- A list survives every change of `next` outside it. -/
theorem Chain.congr (h : Chain next head l) (hn : ∀ x ∈ l, next' x = next x) :
    Chain next' head l := by
  induction l generalizing head with
  | nil => exact h
  | cons x l ih =>
    obtain ⟨hx, hl⟩ := h
    refine ⟨hx, ?_⟩
    rw [hn x List.mem_cons_self]
    exact ih hl fun y hy => hn y (List.mem_cons_of_mem x hy)

theorem Chain.push [DecidableEq α] (h : Chain next head l) (hx : x ∉ l) :
    Chain (Function.update next x head) (some x) (x :: l) := by
  refine ⟨rfl, ?_⟩
  rw [Function.update_self]
  refine h.congr fun y hy => Function.update_of_ne ?_ _ _
  rintro rfl
  exact hx hy

/-- `for (x = head; x; x = x->next) if (test(x)) break;` -/
def scan (next : α → Option α) (hang : ε) (test : α → Except ε Bool) :
    Nat → Option α → Except ε (Option α)
  | _, none => .ok none
  | 0, some _ => .error hang
  | n + 1, some x =>
    match test x with
    | .error e => .error e
    | .ok true => .ok (some x)
    | .ok false => scan next hang test n (next x)

theorem Chain.scan_eq {hang : ε} {test : α → Except ε Bool} {p : α → Bool} {fuel : Nat}
    (h : Chain next head l) (hfuel : l.length ≤ fuel) (ht : ∀ x ∈ l, test x = .ok (p x)) :
    scan next hang test fuel head = .ok (l.find? p) := by
  induction l generalizing fuel head with
  | nil =>
    rw [show head = none from h]
    cases fuel <;> rfl
  | cons x l ih =>
    obtain ⟨rfl, hl⟩ := h
    obtain ⟨fuel, rfl⟩ : ∃ n, fuel = n + 1 :=
      Nat.exists_eq_add_one.mpr (Nat.lt_of_lt_of_le (Nat.succ_pos _) hfuel)
    have hrest := ih hl (Nat.le_of_succ_le_succ hfuel) fun y hy => ht y (List.mem_cons_of_mem x hy)
    simp only [scan, ht x List.mem_cons_self]
    cases hp : p x with
    | true => simp [hp]
    | false => simp [hp, hrest]

/-- A list's head cell and the `next` cells of all nodes. -/
structure Links (α : Type*) where
  head : Option α
  next : α → Option α

namespace Links

/-- The cell a pointer to a pointer names: the head, or a node's `next`. -/
def cell (l : Links α) : Option α → Option α
  | none => l.head
  | some y => l.next y

def setCell [DecidableEq α] (l : Links α) (guy v : Option α) : Links α :=
  match guy with
  | none => { l with head := v }
  | some y => { l with next := Function.update l.next y v }

/-- `for (guy = &head; *guy; guy = &(*guy)->next) if (*guy == x) { *guy = x->next; break; }` -/
def remove [DecidableEq α] (l : Links α) (hang : ε) (x : α) :
    Nat → Option α → Except ε (Links α)
  | 0, _ => .error hang
  | n + 1, guy =>
    match l.cell guy with
    | none => .ok l
    | some y => if y = x then .ok (l.setCell guy (l.next x)) else remove l hang x n (some y)

variable [DecidableEq α] (links : Links α) (hang : ε) {fuel : Nat}

/-- The loop from a cell on, for a member that is still ahead. -/
theorem remove_from (guy : Option α) (h : Chain links.next (links.cell guy) ys) (hnd : ys.Nodup)
    (hguy : ∀ y ∈ ys, guy ≠ some y) (hx : x ∈ ys) (hfuel : ys.length ≤ fuel) :
    ∃ links' : Links α, links.remove hang x fuel guy = .ok links' ∧
      Chain links'.next (links'.cell guy) (ys.erase x) ∧
      (∀ y, y ∉ ys → guy ≠ some y → links'.next y = links.next y) ∧
      (guy ≠ none → links'.head = links.head) := by
  induction ys generalizing guy fuel with
  | nil => simp at hx
  | cons y ys ih =>
    obtain ⟨hcell, htail⟩ := h
    obtain ⟨hy, hnd⟩ := List.nodup_cons.mp hnd
    obtain ⟨fuel, rfl⟩ : ∃ n, fuel = n + 1 :=
      Nat.exists_eq_add_one.mpr (Nat.lt_of_lt_of_le (Nat.succ_pos _) hfuel)
    simp only [remove, hcell]
    by_cases hyx : y = x
    · subst hyx
      refine ⟨_, if_pos rfl, ?_, ?_, ?_⟩
      · rw [List.erase_cons_head]
        cases guy with
        | none => exact htail
        | some q =>
          simp only [setCell, cell, Function.update_self]
          refine htail.congr fun z hz => Function.update_of_ne ?_ _ _
          rintro rfl
          exact hguy z (List.mem_cons_of_mem y hz) rfl
      · intro z _ hne
        cases guy with
        | none => rfl
        | some q =>
          refine Function.update_of_ne ?_ _ _
          rintro rfl
          exact hne rfl
      · intro hne
        cases guy with
        | none => exact (hne rfl).elim
        | some q => rfl
    · have hxs : x ∈ ys := (List.mem_cons.mp hx).resolve_left fun hxy => hyx hxy.symm
      have hne : ∀ z ∈ ys, some y ≠ some z := by
        rintro z hz heq
        cases heq
        exact hy hz
      obtain ⟨links', hrun, hchain, hsame, hhead⟩ :=
        ih (some y) htail hnd hne hxs (Nat.le_of_succ_le_succ hfuel)
      refine ⟨links', by rw [if_neg hyx]; exact hrun, ?_, ?_, fun _ => hhead (by simp)⟩
      · rw [List.erase_cons_tail (by simpa using hyx)]
        refine ⟨?_, hchain⟩
        rw [← hcell]
        cases guy with
        | none => exact hhead (by simp)
        | some q =>
          have hq : ∀ z ∈ y :: ys, q ≠ z := fun z hz hqz => hguy z hz (hqz ▸ rfl)
          refine hsame q (fun hqs => hq q (List.mem_cons_of_mem y hqs) rfl) ?_
          intro heq
          cases heq
          exact hq y List.mem_cons_self rfl
      · intro z hz hzg
        refine hsame z (fun hzs => hz (List.mem_cons_of_mem y hzs)) ?_
        rintro heq
        cases heq
        exact hz List.mem_cons_self

/-- Removing a member takes it out of the list and leaves the other nodes' cells alone. -/
theorem remove_eq (h : Chain links.next links.head ys) (hnd : ys.Nodup) (hx : x ∈ ys)
    (hfuel : ys.length ≤ fuel) :
    ∃ links' : Links α, links.remove hang x fuel none = .ok links' ∧
      Chain links'.next links'.head (ys.erase x) ∧ ∀ y, y ∉ ys → links'.next y = links.next y := by
  obtain ⟨links', hrun, hchain, hsame, -⟩ :=
    remove_from links hang none h hnd (by simp) hx hfuel
  exact ⟨links', hrun, hchain, fun y hy => hsame y hy (by simp)⟩

end Links

end Linked
