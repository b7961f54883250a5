import IntroSystems.Elements.List
import IntroSystems.Elements.Tree

/-!
# A list and a tree of shared elements

The memory of a program with one list and one tree, and the calls that it makes on them.

* `Containers`, `number`: how many nodes hold an element.
* `add`, `insert`, `deleteElement`, `deleteList`, `deleteTree`, `print`.
* **`Sound`**: the nodes are those of the list and the tree, and each node holds one reference.
* `Sound.add` and so on: every call succeeds and keeps this.
-/

set_option autoImplicit false

namespace IntroSystems.Elements

/-- A list and a tree; either is `none` once it has been deleted. -/
structure Containers (E : Type) where
  elems : E
  listNodes : Heap ListNode
  list : Option ListHeader
  treeNodes : Heap TreeNode
  tree : Option (Option ℕ)

variable {E γ : Type}

namespace Containers

/-- How many nodes hold `e`. -/
def number (s : Containers E) (e : ℕ) : ℕ := listNumber s.listNodes e + treeNumber s.treeNodes e

/-! ### The calls -/

/-- After `list_new ()` and `tree_new ()`. -/
def initial (elems : E) : Containers E where
  elems := elems
  listNodes := .empty
  list := some ⟨none, none⟩
  treeNodes := .empty
  tree := some none

/-- `list_add_element (l, e)`. -/
def add (keep : ℕ → E → Option E) (e : ℕ) (s : Containers E) : Option (Containers E) := do
  let list ← s.list
  let (m, _) ← list_add_element keep e ⟨s.elems, s.listNodes, list⟩
  some { s with elems := m.elems, listNodes := m.nodes, list := some m.list }

/-- `tree_insert_node (t, e)`, with what it calls on `e` before and after the way down. -/
def insert (calls : Calls E) (before after : ℕ → E → Option E) (e : ℕ) (s : Containers E) :
    Option (Containers E) := do
  let root ← s.tree
  let elems ← before e s.elems
  let (m, _) ← tree_insert_node_helper calls after e (s.treeNodes.size + 1) .root
    ⟨elems, s.treeNodes, root⟩
  some { s with elems := m.elems, treeNodes := m.nodes, tree := some m.root }

/-- `list_delete_element (l, n)`. -/
def deleteElement (calls : Calls E) (n : ℕ) (s : Containers E) : Option (Containers E) := do
  let list ← s.list
  let m ← list_delete_element calls n ⟨s.elems, s.listNodes, list⟩
  some { s with elems := m.elems, listNodes := m.nodes, list := some m.list }

/-- `list_delete (l)`. -/
def deleteList (calls : Calls E) (s : Containers E) : Option (Containers E) := do
  let list ← s.list
  let (elems, listNodes) ← list_delete calls ⟨s.elems, s.listNodes, list⟩
  some { s with elems, listNodes, list := none }

/-- `tree_delete (t)`. -/
def deleteTree (calls : Calls E) (s : Containers E) : Option (Containers E) := do
  let root ← s.tree
  let (elems, treeNodes) ← tree_delete calls ⟨s.elems, s.treeNodes, root⟩
  some { s with elems, treeNodes, tree := none }

/-- `tree_ordered_print (t)`. -/
def print (line : ℕ → E → Option γ) (s : Containers E) : Option (List (ℕ × γ)) := do
  let root ← s.tree
  tree_ordered_print line ⟨s.elems, s.treeNodes, root⟩

end Containers

/-! ### What the nodes are for -/

/-- **The nodes are those of the list and the tree, and each holds one reference.** `b` counts the
references that others hold. -/
structure Sound (Holds : E → (ℕ → ℕ) → Prop) (b : ℕ → ℕ) (s : Containers E) : Prop where
  held : Holds s.elems fun e => b e + s.number e
  list : ∀ l, s.list = some l → ∃ ps, IsList s.listNodes l ps
  tree : ∀ root, s.tree = some root → ∃ t, IsTree s.treeNodes root t
  noList : s.list = none → ∀ p, s.listNodes.get p = none
  noTree : s.tree = none → ∀ p, s.treeNodes.get p = none

variable {Holds : E → (ℕ → ℕ) → Prop} {b : ℕ → ℕ} {s : Containers E} {e n : ℕ} {calls : Calls E}
  {elems : E}

open Containers

theorem sound_initial (h : Holds elems fun _ => 0) : Sound Holds (fun _ => 0) (initial elems) where
  held := h
  list l hl := ⟨[], by
    rw [← Option.some.inj hl]
    exact ⟨trivial, rfl, rfl, .nil, fun p x hp => absurd hp nofun⟩⟩
  tree root hroot := ⟨.nil, by
    rw [← Option.some.inj hroot]
    exact ⟨rfl, .nil, fun p x hp => absurd hp nofun⟩⟩
  noList _ _ := rfl
  noTree _ _ := rfl

theorem number_pos_of_listNode {x : ListNode} (h : s.listNodes.get n = some x) :
    0 < s.number x.elem :=
  Nat.add_pos_left (listNumber_pos h) _

theorem number_pos_of_treeNode {x : TreeNode} (h : s.treeNodes.get n = some x) :
    0 < s.number x.elem :=
  Nat.add_pos_right _ (treeNumber_pos h)

theorem number_le (s : Containers E) (e : ℕ) :
    s.number e ≤ s.listNodes.size + s.treeNodes.size :=
  Nat.add_le_add List.countP_le_length List.countP_le_length

theorem add_treeNodes {s' : Containers E} {keep : ℕ → E → Option E} (h : s.add keep e = some s') :
    s'.treeNodes = s.treeNodes := by
  simp only [Containers.add, Option.bind_eq_bind, Option.bind_eq_some_iff] at h
  obtain ⟨l, -, r, -, hs⟩ := h
  cases hs
  rfl

theorem deleteList_treeNodes {s' : Containers E} (h : s.deleteList calls = some s') :
    s'.treeNodes = s.treeNodes := by
  simp only [Containers.deleteList, Option.bind_eq_bind, Option.bind_eq_some_iff] at h
  obtain ⟨l, -, r, -, hs⟩ := h
  cases hs
  rfl

namespace Sound

theorem of_elems {b' : ℕ → ℕ} (h : Sound Holds b s)
    (hheld : Holds elems fun e => b' e + s.number e) : Sound Holds b' { s with elems } where
  held := hheld
  list := h.list
  tree := h.tree
  noList := h.noList
  noTree := h.noTree

/-- A new node of the list takes the reference that `keep` has made. -/
theorem add {keep : ℕ → E → Option E} {b' : ℕ → ℕ} (h : Sound Holds b s) (hlive : s.list ≠ none)
    (hkeep : keep e s.elems = some elems)
    (hheld : Holds elems fun f => b' f + (s.number f + if e = f then 1 else 0)) :
    ∃ s', s.add keep e = some s' ∧ Sound Holds b' s' ∧ s'.elems = elems ∧ s'.list ≠ none ∧
      s'.tree = s.tree ∧ ∀ f, s'.number f = s.number f + if e = f then 1 else 0 := by
  obtain ⟨l, hl⟩ := Option.ne_none_iff_exists'.mp hlive
  obtain ⟨ps, hlist⟩ := h.list l hl
  obtain ⟨m, hadd, rfl, hlist', hnumber⟩ :=
    list_add_spec (m := ⟨s.elems, s.listNodes, l⟩) hlist hkeep
  have hall : ∀ f, listNumber m.nodes f + treeNumber s.treeNodes f =
      s.number f + if e = f then 1 else 0 := fun f => by
    rw [hnumber f, number, Nat.add_right_comm]
  refine ⟨{ s with elems := m.elems, listNodes := m.nodes, list := some m.list }, ?_,
    ⟨?_, fun l' hl' => ⟨_, Option.some.inj hl' ▸ hlist'⟩, h.tree, nofun, h.noTree⟩, rfl, nofun, rfl,
    hall⟩
  · simp only [Containers.add, hl, hadd, Option.bind_eq_bind, Option.bind_some]
  · simpa only [number, hall] using hheld

theorem insert {before after : ℕ → E → Option E} {elems₁ : E} {c : ℕ → ℕ} {b' : ℕ → ℕ}
    (h : Sound Holds b s) (hcalls : Counts calls Holds) (hlive : s.tree ≠ none)
    (hbefore : before e s.elems = some elems₁) (hc : Holds elems₁ c) (hpos : 0 < c e)
    (hle : ∀ f, s.number f ≤ c f) (hafter : after e elems₁ = some elems)
    (hheld : Holds elems fun f => b' f + (s.number f + if e = f then 1 else 0)) :
    ∃ s', s.insert calls before after e = some s' ∧ Sound Holds b' s' ∧ s'.elems = elems ∧
      s'.list = s.list ∧ s'.listNodes = s.listNodes ∧ s'.tree ≠ none ∧
      ∀ f, s'.number f = s.number f + if e = f then 1 else 0 := by
  obtain ⟨root, hroot⟩ := Option.ne_none_iff_exists'.mp hlive
  obtain ⟨t, htree⟩ := h.tree root hroot
  have hcompare : ∀ q x, s.treeNodes.get q = some x →
      ∃ r, calls.compare e x.elem elems₁ = some r := fun q x hx =>
    hcalls.compare hc hpos (Nat.lt_of_lt_of_le (number_pos_of_treeNode hx) (hle _))
  obtain ⟨m, hins, rfl, htree', hnumber, -⟩ :=
    insert_spec (m := ⟨elems₁, s.treeNodes, root⟩) htree hcompare hafter
  have hall : ∀ f, listNumber s.listNodes f + treeNumber m.nodes f =
      s.number f + if e = f then 1 else 0 := fun f => by
    rw [hnumber f, number, Nat.add_assoc]
  refine ⟨{ s with elems := m.elems, treeNodes := m.nodes, tree := some m.root }, ?_,
    ⟨?_, h.list, fun r hr => ⟨_, Option.some.inj hr ▸ htree'⟩, h.noList, nofun⟩, rfl, rfl, rfl,
    nofun, hall⟩
  · simp only [Containers.insert, hroot, hbefore, hins, Option.bind_eq_bind, Option.bind_some]
  · simpa only [number, hall] using hheld

theorem deleteElement {x : ListNode} (h : Sound Holds b s) (hcalls : Counts calls Holds)
    (hlive : s.list ≠ none) (hn : s.listNodes.get n = some x)
    (hlt : ∀ f, b f + s.number f < 2 ^ 32) :
    ∃ s', s.deleteElement calls n = some s' ∧ Sound Holds b s' ∧ s'.list ≠ none ∧
      s'.tree = s.tree ∧ ∀ f, s'.number f + (if x.elem = f then 1 else 0) = s.number f := by
  obtain ⟨l, hl⟩ := Option.ne_none_iff_exists'.mp hlive
  obtain ⟨ps, hlist⟩ := h.list l hl
  obtain ⟨elems, hfree, hheld⟩ := hcalls.free h.held (e := x.elem)
    (Nat.add_pos_right _ (number_pos_of_listNode hn)) (hlt _)
  obtain ⟨m, hdel, rfl, hlist', -, hnumber⟩ :=
    list_delete_element_spec (m := ⟨s.elems, s.listNodes, l⟩) hlist (hlist.live n x hn) hn hfree
  have hall : ∀ f, listNumber m.nodes f + treeNumber s.treeNodes f +
      (if x.elem = f then 1 else 0) = s.number f := fun f => by
    rw [number, ← hnumber f, Nat.add_right_comm]
  rw [update_free (fun f => b f + (listNumber m.nodes f + treeNumber s.treeNodes f))
    fun f => by rw [← hall f, Nat.add_assoc]] at hheld
  refine ⟨{ s with elems := m.elems, listNodes := m.nodes, list := some m.list }, ?_,
    ⟨hheld, fun l' hl' => ⟨_, Option.some.inj hl' ▸ hlist'⟩, h.tree, nofun, h.noTree⟩, nofun, rfl,
    hall⟩
  simp only [Containers.deleteElement, hl, hdel, Option.bind_eq_bind, Option.bind_some]

theorem deleteList (h : Sound Holds b s) (hcalls : Counts calls Holds) (hlive : s.list ≠ none)
    (hlt : ∀ f, b f + s.number f < 2 ^ 32) :
    ∃ s', s.deleteList calls = some s' ∧ Sound Holds b s' ∧ s'.list = none ∧ s'.tree = s.tree ∧
      ∀ f, s'.number f ≤ s.number f := by
  obtain ⟨l, hl⟩ := Option.ne_none_iff_exists'.mp hlive
  obtain ⟨ps, hlist⟩ := h.list l hl
  have hsplit : ∀ f, b f + s.number f = b f + treeNumber s.treeNodes f + listNumber s.listNodes f :=
    fun f => by rw [number, Nat.add_assoc, Nat.add_comm (treeNumber _ _)]
  obtain ⟨elems, nodes, hdel, hheld, -, hnone⟩ :=
    list_delete_spec (m := ⟨s.elems, s.listNodes, l⟩) hcalls hlist
      (by simpa only [hsplit] using h.held) (by simpa only [hsplit] using hlt)
  have hzero : ∀ f, listNumber nodes f = 0 := fun f => Heap.number_eq_zero_of_none hnone
  refine ⟨{ s with elems, listNodes := nodes, list := none }, ?_,
    ⟨?_, nofun, h.tree, fun _ => hnone, h.noTree⟩, rfl, rfl, fun f => ?_⟩
  · simp only [Containers.deleteList, hl, hdel, Option.bind_eq_bind, Option.bind_some]
  · simpa only [number, hzero, Nat.zero_add] using hheld
  · simp only [number, hzero, Nat.zero_add]
    exact Nat.le_add_left _ _

theorem deleteTree (h : Sound Holds b s) (hcalls : Counts calls Holds) (hlive : s.tree ≠ none)
    (hlt : ∀ f, b f + s.number f < 2 ^ 32) :
    ∃ s', s.deleteTree calls = some s' ∧ Sound Holds b s' ∧ s'.tree = none ∧ s'.list = s.list ∧
      ∀ f, s'.number f ≤ s.number f := by
  obtain ⟨root, hroot⟩ := Option.ne_none_iff_exists'.mp hlive
  obtain ⟨t, htree⟩ := h.tree root hroot
  have hsplit : ∀ f, b f + s.number f = b f + listNumber s.listNodes f + treeNumber s.treeNodes f :=
    fun f => by rw [number, Nat.add_assoc]
  obtain ⟨elems, nodes, hdel, hheld, -, hnone⟩ :=
    delete_spec (m := ⟨s.elems, s.treeNodes, root⟩) hcalls htree
      (by simpa only [hsplit] using h.held) (by simpa only [hsplit] using hlt)
  have hzero : ∀ f, treeNumber nodes f = 0 := fun f => Heap.number_eq_zero_of_none hnone
  refine ⟨{ s with elems, treeNodes := nodes, tree := none }, ?_,
    ⟨?_, h.list, nofun, h.noList, fun _ => hnone⟩, rfl, rfl, fun f => ?_⟩
  · simp only [Containers.deleteTree, hroot, hdel, Option.bind_eq_bind, Option.bind_some]
  · simpa only [number, hzero, Nat.add_zero] using hheld
  · simp only [number, hzero, Nat.add_zero]
    exact Nat.le_add_right _ _

theorem print {line : ℕ → E → Option γ} (h : Sound Holds b s) (hlive : s.tree ≠ none)
    (hline : ∀ f, 0 < s.number f → ∃ y, line f s.elems = some y) :
    ∃ out, s.print line = some out := by
  obtain ⟨root, hroot⟩ := Option.ne_none_iff_exists'.mp hlive
  obtain ⟨t, htree⟩ := h.tree root hroot
  obtain ⟨out, hout⟩ := print_spec (m := ⟨s.elems, s.treeNodes, root⟩) htree
    fun q x hx => hline _ (number_pos_of_treeNode hx)
  exact ⟨out, by simp only [Containers.print, hroot, hout, Option.bind_eq_bind, Option.bind_some]⟩

end Sound

end IntroSystems.Elements
