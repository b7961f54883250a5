import IntroSystems.Elements.A7
import IntroSystems.Lib.Transition

/-!
# Creators, a list and a tree

The calls of a program of assignment 7 that creates elements and puts them into a list and a tree.

* `Program.references`: the creator's reference to an element, and those of the nodes.
* `sys`: the calls in any order.
* `Exact.run`: every call succeeds, and the counters stay exact.
* `exact_of_reach`: they are exact in all runs.
-/

set_option autoImplicit false

namespace IntroSystems.Elements.A7

open Containers CString

/-- The memory, and the elements that their creator has not released. -/
structure Program where
  mem : Containers Store
  owned : List ℕ

/-- A call. `deleteElement` is about a node of the list. -/
inductive Op
  | newInt (value : BitVec 32)
  | newStr (value : Str)
  | add (e : ℕ)
  | insert (e : ℕ)
  | release (e : ℕ)
  | deleteElement (n : ℕ)
  | deleteList
  | deleteTree
  | print

/-- The element has been created, and not been freed. -/
def Program.Live (s : Program) (e : ℕ) : Prop := ∃ x, s.mem.elems.blocks.get e = some x

/-- What the call is about is there. A creator releases an element once. -/
def Op.Valid (s : Program) : Op → Prop
  | newInt _ | newStr _ => True
  | add e => s.mem.list ≠ none ∧ s.Live e
  | insert e => s.mem.tree ≠ none ∧ s.Live e
  | release e => e ∈ s.owned
  | deleteElement n => s.mem.list ≠ none ∧ ∃ x, s.mem.listNodes.get n = some x
  | deleteList => s.mem.list ≠ none
  | deleteTree | print => s.mem.tree ≠ none

/-- A new element belongs to its creator. -/
def Program.create (new : Store → Option (Store × ℕ)) (s : Program) : Option Program := do
  let (elems, e) ← new s.mem.elems
  some { mem := { s.mem with elems }, owned := e :: s.owned }

variable (link : Link) (address : ℕ → BitVec 64)

def Op.run (s : Program) : Op → Option Program
  | newInt value => s.create (int_element_new value)
  | newStr value => s.create (str_element_new value)
  | add e => (s.mem.add rc_keep_ref e).map fun mem => { s with mem }
  | insert e =>
    (s.mem.insert (calls link address) noCall rc_keep_ref e).map fun mem => { s with mem }
  | release e => do
    let elems ← rc_free_ref e s.mem.elems
    some { mem := { s.mem with elems }, owned := s.owned.erase e }
  | deleteElement n => (s.mem.deleteElement (calls link address) n).map fun mem => { s with mem }
  | deleteList => (s.mem.deleteList (calls link address)).map fun mem => { s with mem }
  | deleteTree => (s.mem.deleteTree (calls link address)).map fun mem => { s with mem }
  | print => (s.mem.print (element address)).map fun _ => s

/-- Nothing has been created. -/
def Program.start : Program where
  mem := initial ⟨.empty, .empty, []⟩
  owned := []

/-- The calls in any order. -/
def sys : Sys Program Op where
  init s := s = .start
  step s op s' := op.Valid s ∧ op.run link address s = some s'

/-- The creator's reference, and those of the nodes. -/
def Program.references (s : Program) (e : ℕ) : ℕ := s.owned.count e + s.mem.number e

/-- Afterwards there are fewer than `2 ^ 31` references to every element. -/
def Few (s : Program) (op : Op) : Prop :=
  ∀ s', op.run link address s = some s' → ∀ e, s'.references e < 2 ^ 31

/-- The references are those of the creators and the nodes. -/
structure Exact (s : Program) : Prop where
  sound : Sound Held (fun e => s.owned.count e) s.mem
  nodup : s.owned.Nodup

variable {link : Link} {address : ℕ → BitVec 64}

variable {s : Program} {op : Op} {e n : ℕ}

namespace Exact

theorem held (h : Exact s) : Held s.mem.elems s.references := h.sound.held

theorem live_iff (h : Exact s) : s.Live e ↔ 0 < s.references e := h.held.pos_iff.symm

theorem live_of_owned (h : Exact s) (he : e ∈ s.owned) : s.Live e :=
  h.live_iff.mpr (Nat.add_pos_left (List.count_pos_iff.mpr he) _)

theorem references_size (h : Exact s) : s.references s.mem.elems.blocks.size = 0 :=
  Nat.eq_zero_of_not_pos fun hpos => Nat.lt_irrefl _ (h.held.lt_size hpos)

theorem create (h : Exact s) {new : Store → Option (Store × ℕ)} {elems : Store}
    (hnew : new s.mem.elems = some (elems, s.mem.elems.blocks.size))
    (hheld : Held elems (Function.update s.references s.mem.elems.blocks.size
      (s.references s.mem.elems.blocks.size + 1))) :
    s.create new = some ⟨{ s.mem with elems }, s.mem.elems.blocks.size :: s.owned⟩ ∧
      Exact ⟨{ s.mem with elems }, s.mem.elems.blocks.size :: s.owned⟩ := by
  constructor
  · simp only [Program.create, hnew, Option.bind_eq_bind, Option.bind_some]
  · refine ⟨h.sound.of_elems ?_, List.nodup_cons.mpr ⟨fun hmem => ?_, h.nodup⟩⟩
    · rwa [update_keep (fun e =>
        (s.mem.elems.blocks.size :: s.owned).count e + s.mem.number e) fun e => ?_] at hheld
      rw [List.count_cons, Program.references]
      simp only [beq_iff_eq]
      omega
    · obtain ⟨x, hx⟩ := h.live_of_owned hmem
      exact Nat.lt_irrefl _ (Heap.lt_size hx)

variable (link address)

theorem created (h : Exact s) (hop : (∃ v, op = .newInt v) ∨ ∃ v, op = .newStr v) :
    ∃ s', op.run link address s = some s' ∧ Exact s' ∧
      s'.owned = s.mem.elems.blocks.size :: s.owned ∧ s'.mem.list = s.mem.list ∧
      s'.mem.tree = s.mem.tree ∧ ∀ e, s'.mem.number e = s.mem.number e := by
  rcases hop with ⟨v, rfl⟩ | ⟨v, rfl⟩
  · obtain ⟨elems, hnew, hheld⟩ := int_element_new_spec h.held v
    obtain ⟨hrun, hexact⟩ := h.create hnew hheld
    exact ⟨_, hrun, hexact, rfl, rfl, rfl, fun _ => rfl⟩
  · obtain ⟨elems, hnew, hheld⟩ := str_element_new_spec h.held v
    obtain ⟨hrun, hexact⟩ := h.create hnew hheld
    exact ⟨_, hrun, hexact, rfl, rfl, rfl, fun _ => rfl⟩

theorem keep (h : Exact s) (hlive : s.Live e) : ∃ elems, rc_keep_ref e s.mem.elems = some elems ∧
    Held elems fun f => s.owned.count f + (s.mem.number f + if e = f then 1 else 0) := by
  obtain ⟨elems, hkeep, hheld⟩ := rc_keep_ref_spec h.held (h.live_iff.mp hlive)
  have hcount : ∀ f, s.owned.count f + (s.mem.number f + if e = f then 1 else 0) =
      s.references f + if e = f then 1 else 0 := fun f => (Nat.add_assoc _ _ _).symm
  exact ⟨elems, hkeep, update_keep _ hcount ▸ hheld⟩

theorem add (h : Exact s) (hlist : s.mem.list ≠ none) (hlive : s.Live e) :
    ∃ s', (Op.add e).run link address s = some s' ∧ Exact s' ∧ s'.owned = s.owned ∧
      s'.mem.list ≠ none ∧ s'.mem.tree = s.mem.tree ∧
      ∀ f, s'.mem.number f = s.mem.number f + if e = f then 1 else 0 := by
  obtain ⟨elems, hkeep, hheld⟩ := h.keep hlive
  obtain ⟨mem, hadd, hsound, -, hlist', htree, hnumber⟩ := h.sound.add hlist hkeep hheld
  exact ⟨{ s with mem }, by rw [Op.run, hadd, Option.map_some], ⟨hsound, h.nodup⟩, rfl, hlist',
    htree, hnumber⟩

theorem insert (h : Exact s) (htree : s.mem.tree ≠ none) (hlive : s.Live e) :
    ∃ s', (Op.insert e).run link address s = some s' ∧ Exact s' ∧ s'.owned = s.owned ∧
      s'.mem.list = s.mem.list ∧ s'.mem.listNodes = s.mem.listNodes ∧ s'.mem.tree ≠ none ∧
      ∀ f, s'.mem.number f = s.mem.number f + if e = f then 1 else 0 := by
  obtain ⟨elems, hkeep, hheld⟩ := h.keep hlive
  have hcall : noCall e s.mem.elems = some s.mem.elems := rfl
  obtain ⟨mem, hins, hsound, -, hlist, hnodes, htree', hnumber⟩ :=
    h.sound.insert (counts_held link address) htree hcall h.held
      (h.live_iff.mp hlive) (fun f => Nat.le_add_left _ _) hkeep hheld
  exact ⟨{ s with mem }, by rw [Op.run, hins, Option.map_some], ⟨hsound, h.nodup⟩, rfl, hlist,
    hnodes, htree', hnumber⟩

theorem release (h : Exact s) (he : e ∈ s.owned) (hlt : s.references e < 2 ^ 32) :
    ∃ s', (Op.release e).run link address s = some s' ∧ Exact s' ∧
      s'.owned = s.owned.erase e ∧ s'.mem.list = s.mem.list ∧ s'.mem.tree = s.mem.tree ∧
      ∀ f, s'.mem.number f = s.mem.number f := by
  obtain ⟨elems, hfree, hheld⟩ :=
    rc_free_ref_spec h.held (h.live_iff.mp (h.live_of_owned he)) hlt
  have hcount : ∀ f, (s.owned.erase e).count f + s.mem.number f + (if e = f then 1 else 0) =
      s.references f := fun f => by
    have hpos := List.count_pos_iff.mpr he
    rw [List.count_erase, Program.references]
    by_cases hf : e = f
    · subst hf
      simp only [beq_self_eq_true, if_true]
      omega
    · simp [hf]
  rw [update_free (fun f => (s.owned.erase e).count f + s.mem.number f) hcount] at hheld
  refine ⟨⟨{ s.mem with elems }, s.owned.erase e⟩, ?_, ⟨h.sound.of_elems hheld, h.nodup.erase e⟩,
    rfl, rfl, rfl, fun _ => rfl⟩
  simp only [Op.run, hfree, Option.bind_eq_bind, Option.bind_some]

theorem deleteList (h : Exact s) (hlist : s.mem.list ≠ none)
    (hlt : ∀ e, s.references e < 2 ^ 32) :
    ∃ s', Op.deleteList.run link address s = some s' ∧ Exact s' ∧ s'.owned = s.owned ∧
      s'.mem.list = none ∧ s'.mem.tree = s.mem.tree ∧ ∀ e, s'.mem.number e ≤ s.mem.number e := by
  obtain ⟨mem, hdel, hsound, hnone, htree, hle⟩ :=
    h.sound.deleteList (counts_held link address) hlist hlt
  exact ⟨{ s with mem }, by rw [Op.run, hdel, Option.map_some], ⟨hsound, h.nodup⟩, rfl, hnone,
    htree, hle⟩

theorem deleteTree (h : Exact s) (htree : s.mem.tree ≠ none)
    (hlt : ∀ e, s.references e < 2 ^ 32) :
    ∃ s', Op.deleteTree.run link address s = some s' ∧ Exact s' ∧ s'.owned = s.owned ∧
      s'.mem.tree = none ∧ s'.mem.list = s.mem.list ∧ ∀ e, s'.mem.number e ≤ s.mem.number e := by
  obtain ⟨mem, hdel, hsound, hnone, hlist, hle⟩ :=
    h.sound.deleteTree (counts_held link address) htree hlt
  exact ⟨{ s with mem }, by rw [Op.run, hdel, Option.map_some], ⟨hsound, h.nodup⟩, rfl, hnone,
    hlist, hle⟩

theorem print (h : Exact s) (htree : s.mem.tree ≠ none) :
    ∃ out, s.mem.print (element address) = some out :=
  h.sound.print htree fun _ hf => element_spec address h.held (Nat.add_pos_right _ hf)

/-- **Every call** succeeds, and the counters stay exact. -/
theorem run (h : Exact s) (hlt : ∀ e, s.references e < 2 ^ 32) (hv : op.Valid s) :
    ∃ s', op.run link address s = some s' ∧ Exact s' := by
  cases op with
  | newInt v =>
    obtain ⟨s', hrun, hexact, -⟩ := h.created link address (.inl ⟨v, rfl⟩)
    exact ⟨s', hrun, hexact⟩
  | newStr v =>
    obtain ⟨s', hrun, hexact, -⟩ := h.created link address (.inr ⟨v, rfl⟩)
    exact ⟨s', hrun, hexact⟩
  | add e =>
    obtain ⟨s', hrun, hexact, -⟩ := h.add link address hv.1 hv.2
    exact ⟨s', hrun, hexact⟩
  | insert e =>
    obtain ⟨s', hrun, hexact, -⟩ := h.insert link address hv.1 hv.2
    exact ⟨s', hrun, hexact⟩
  | release e =>
    obtain ⟨s', hrun, hexact, -⟩ := h.release link address hv (hlt e)
    exact ⟨s', hrun, hexact⟩
  | deleteElement n =>
    obtain ⟨hlist, x, hx⟩ := hv
    obtain ⟨mem, hdel, hsound, -⟩ :=
      h.sound.deleteElement (counts_held link address) hlist hx hlt
    exact ⟨{ s with mem }, by rw [Op.run, hdel, Option.map_some], hsound, h.nodup⟩
  | deleteList =>
    obtain ⟨s', hrun, hexact, -⟩ := h.deleteList link address hv hlt
    exact ⟨s', hrun, hexact⟩
  | deleteTree =>
    obtain ⟨s', hrun, hexact, -⟩ := h.deleteTree link address hv hlt
    exact ⟨s', hrun, hexact⟩
  | print =>
    obtain ⟨out, hout⟩ := h.print address hv
    exact ⟨s, by rw [Op.run, hout, Option.map_some], h⟩

end Exact

theorem exact_start : Exact .start := ⟨sound_initial held_empty, .nil⟩

theorem references_start (e : ℕ) : Program.start.references e = 0 := rfl

theorem exact_of_reach (hr : ((sys link address).restrict (Few link address)).Reach s) :
    Exact s ∧ ∀ e, s.references e < 2 ^ 31 := by
  refine Sys.Reach.invariant (I := fun s => Exact s ∧ ∀ e, s.references e < 2 ^ 31) ?_ ?_ hr
  · rintro _ rfl
    exact ⟨exact_start, fun e => by rw [references_start]; decide⟩
  · rintro s op s' - ⟨hexact, hlt⟩ ⟨hfew, hv, hrun⟩
    obtain ⟨s₁, hrun₁, hexact₁⟩ :=
      hexact.run link address (fun e => Nat.lt_trans (hlt e) (by decide)) hv
    obtain rfl := Option.some.inj (hrun.symm.trans hrun₁)
    exact ⟨hexact₁, hfew s' hrun⟩

theorem Exact.nothing_left (h : Exact s) (hlist : s.mem.list = none) (htree : s.mem.tree = none)
    (howned : s.owned = []) : (∀ e, s.references e = 0) ∧
      (∀ e, s.mem.elems.blocks.get e = none) ∧ ∀ p, s.mem.elems.strings.get p = none := by
  have hzero : ∀ e, s.references e = 0 := fun e => by
    have hnodes : listNumber s.mem.listNodes e = 0 :=
      Heap.number_eq_zero_of_none (h.sound.noList hlist)
    have htnodes : treeNumber s.mem.treeNodes e = 0 :=
      Heap.number_eq_zero_of_none (h.sound.noTree htree)
    rw [Program.references, howned, number, hnodes, htnodes]
    rfl
  refine ⟨hzero, fun e => h.held.gone e (hzero e), fun p => ?_⟩
  cases hp : s.mem.elems.strings.get p with
  | none => rfl
  | some t =>
    obtain ⟨e, x, hx, -⟩ := h.held.owner p t hp
    rw [h.held.gone e (hzero e)] at hx
    cases hx

end IntroSystems.Elements.A7
