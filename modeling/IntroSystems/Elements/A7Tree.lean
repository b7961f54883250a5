import IntroSystems.Elements.A7
import IntroSystems.Elements.SortedTree

/-!
# The tree in memory is the tree of values

* `Reads`: the nodes of a tree in memory hold the elements of a tree of values.
* **`insert_reads`**, **`insertAll_reads`**: `tree_insert_node` does the same on both.
-/

set_option autoImplicit false

namespace IntroSystems.Elements.A7

open Comparison Element SearchTree

variable {link : Link} {address : ℕ → BitVec 64} {s : Store} {c : ℕ → ℕ} {e : ℕ}

/-- The element that the node `q` holds. -/
def nodeElement (address : ℕ → BitVec 64) (s : Store) (nodes : Heap TreeNode) (q : ℕ) :
    Option Element :=
  ((nodes.get q).map TreeNode.elem).bind fun e => element address e s

/-- **The nodes of a tree in memory hold the elements of `v`.** -/
def Reads (address : ℕ → BitVec 64) (s : Store) (nodes : Heap TreeNode) (root : Option ℕ)
    (v : BinaryTree Element) : Prop :=
  ∃ t value, IsTree nodes root t ∧ v = t.map value ∧
    ∀ q ∈ inorder t, nodeElement address s nodes q = some (value q)

theorem element_keep {s' : Store} (h : rc_keep_ref e s = some s') (f : ℕ) :
    element address f s' = element address f s := by
  obtain ⟨x, hx⟩ : ∃ x, s.blocks.get e = some x := by
    cases hx : s.blocks.get e with
    | none =>
      rw [rc_keep_ref, update, hx] at h
      cases h
    | some x => exact ⟨x, rfl⟩
  rw [rc_keep_ref, update_eq _ hx, Option.some.injEq] at h
  subst h
  by_cases hf : f = e
  · rw [hf, element, element, hx, Heap.get_put_self hx]
    rfl
  · rw [element, element, Heap.get_put_of_ne hf]

/-- **`tree_insert_node` in memory** is `tree_insert_node` on values. -/
theorem insert_reads (link : Link) {m : TreeMem Store} {v : BinaryTree Element} {a : Element}
    (hheld : Held m.elems c) (hpos : 0 < c e)
    (hnodes : ∀ q x, m.nodes.get q = some x → 0 < c x.elem)
    (ha : element address e m.elems = some a) (h : Reads address m.elems m.nodes m.root v) :
    ∃ m' v', tree_insert_node_helper (calls link address) rc_keep_ref e (m.nodes.size + 1) .root m =
        some (m', m.nodes.size) ∧ tree_insert_node link v a = some v' ∧
      Reads address m'.elems m'.nodes m'.root v' ∧
      Held m'.elems (Function.update c e (c e + 1)) ∧ ElemsAfter e m.nodes m'.nodes ∧
      ∀ f, element address f m'.elems = element address f m.elems := by
  obtain ⟨t, value, htree, rfl, hread⟩ := h
  obtain ⟨elems, hkeep, hheld'⟩ := rc_keep_ref_spec hheld hpos
  have hcompare : ∀ q x, m.nodes.get q = some x →
      ∃ r, (calls link address).compare e x.elem m.elems = some r := fun q x hx =>
    compareElements_spec link address hheld hpos (hnodes q x hx)
  obtain ⟨m', hins, rfl, htree', -, helems⟩ := insert_spec htree hcompare hkeep
  have hsize : ∀ q ∈ inorder t, q ≠ m.nodes.size := fun q hq => by
    obtain ⟨x, hx⟩ := htree.stands.get hq
    exact Nat.ne_of_lt (Heap.lt_size hx)
  -- the new node holds `a`, and the others what they held before
  have hold : ∀ q ∈ inorder t, Function.update value m.nodes.size a q = value q := fun q hq =>
    Function.update_of_ne (hsize q hq) ..
  have hside : ∀ q ∈ inorder t, nodeLeft (calls link address) e m m.nodes.size q =
      goesLeft link (Function.update value m.nodes.size a m.nodes.size)
        (Function.update value m.nodes.size a q) := by
    intro q hq
    rw [Function.update_self, hold q hq]
    obtain ⟨x, hx⟩ := htree.stands.get hq
    have hq' := hread q hq
    rw [nodeElement, hx, Option.map_some, Option.bind_some] at hq'
    rw [nodeLeft, hx, Option.bind_some, goesLeft, precedes]
    simp only [calls, compareElements, ha, hq', Option.bind_eq_bind, Option.bind_some]
  refine ⟨m', _, hins, tree_insert_node_eq _ a,
    ⟨_, Function.update value m.nodes.size a, htree', ?_, fun q hq => ?_⟩, hheld', helems,
    element_keep hkeep⟩
  · rw [map_insert _ hside, Function.update_self, map_congr hold]
  · rw [nodeElement, helems q]
    rcases mem_insert.mp hq with rfl | hq
    · rw [Heap.get_alloc_self, Option.map_some, Option.bind_some, element_keep hkeep, ha,
        Function.update_self]
    · rw [Heap.get_alloc_of_ne (hsize q hq), hold q hq, ← hread q hq, nodeElement]
      exact Option.bind_congr fun f _ => element_keep hkeep f

/-- `tree_insert_node` of the elements `es` in turn. -/
def insertAll (link : Link) (address : ℕ → BitVec 64) (es : List ℕ) (m : TreeMem Store) :
    Option (TreeMem Store) :=
  es.foldlM (fun m e => (tree_insert_node_helper (calls link address) rc_keep_ref e
    (m.nodes.size + 1) .root m).map Prod.fst) m

theorem pos_of_elemsAfter {nodes nodes' : Heap TreeNode} (h : ElemsAfter e nodes nodes')
    (hpos : ∀ q x, nodes.get q = some x → 0 < c x.elem) {q : ℕ} {x : TreeNode}
    (hx : nodes'.get q = some x) : 0 < Function.update c e (c e + 1) x.elem := by
  refine update_pos fun hxe => ?_
  have helem := h q
  rw [hx, Option.map_some, eq_comm, Option.map_eq_some_iff] at helem
  obtain ⟨y, hy, hyx⟩ := helem
  by_cases hq : q = nodes.size
  · rw [hq, Heap.get_alloc_self, Option.some.injEq] at hy
    rw [← hy] at hyx
    exact absurd hyx.symm hxe
  · rw [Heap.get_alloc_of_ne hq] at hy
    exact hyx ▸ hpos q y hy

/-- **Any number of insertions in memory** makes the tree of values. -/
theorem insertAll_reads (value : ℕ → Element) (es : List ℕ) {m : TreeMem Store}
    {v : BinaryTree Element} (hheld : Held m.elems c) (hpos : ∀ e ∈ es, 0 < c e)
    (hnodes : ∀ q x, m.nodes.get q = some x → 0 < c x.elem)
    (hvalue : ∀ e ∈ es, element address e m.elems = some (value e))
    (h : Reads address m.elems m.nodes m.root v) :
    ∃ m' v', insertAll link address es m = some m' ∧
      (es.map value).foldlM (tree_insert_node link) v = some v' ∧
      Reads address m'.elems m'.nodes m'.root v' := by
  induction es generalizing m v c with
  | nil => exact ⟨m, v, rfl, rfl, h⟩
  | cons e es ih =>
    obtain ⟨m₁, v₁, hins, hv₁, hread₁, hheld₁, helems₁, hsame₁⟩ :=
      insert_reads link hheld (hpos e List.mem_cons_self) hnodes
        (hvalue e List.mem_cons_self) h
    obtain ⟨m', v', hall, hfold, hread⟩ := ih hheld₁
      (fun f hf => update_pos fun _ => hpos f (List.mem_cons_of_mem e hf))
      (fun q x hx => pos_of_elemsAfter helems₁ hnodes hx)
      (fun f hf => (hsame₁ f).trans (hvalue f (List.mem_cons_of_mem e hf))) hread₁
    refine ⟨m', v', ?_, ?_, hread⟩
    · rw [insertAll, List.foldlM_cons, hins]
      exact hall
    · rw [List.map_cons, List.foldlM_cons, hv₁]
      exact hfold

end IntroSystems.Elements.A7
