import IntroSystems.Elements.Calls
import IntroSystems.Lib.Heap
import IntroSystems.Lib.SearchTree
import Mathlib.Data.List.Perm.Subperm

/-!
# The tree

`tree.c`, with pointers. `NULL` is `none`.

* `tree_insert_node_helper`, `tree_delete_helper`, `tree_ordered_print_helper`.
* `Stands`, `IsTree`: the nodes that a tree is made of.
* **`insert_spec`**, **`delete_spec`**, **`print_spec`**.
-/

set_option autoImplicit false

namespace IntroSystems.Elements

open SearchTree

/-- `struct tree_node`. -/
structure TreeNode where
  elem : ℕ
  left : Option ℕ
  right : Option ℕ
  deriving DecidableEq

/-- The memory that the functions of `tree.c` work on, with `t->root`. -/
structure TreeMem (E : Type) where
  elems : E
  nodes : Heap TreeNode
  root : Option ℕ

/-- A `struct tree_node **`. -/
inductive Slot
  | root
  | left (n : ℕ)
  | right (n : ℕ)

variable {E γ : Type}

/-! ### The code -/

/-- `*np`. -/
def Slot.read (np : Slot) (m : TreeMem E) : Option (Option ℕ) :=
  match np with
  | root => some m.root
  | left n => (m.nodes.get n).map TreeNode.left
  | right n => (m.nodes.get n).map TreeNode.right

/-- `*np = v`. -/
def Slot.write (np : Slot) (v : Option ℕ) (m : TreeMem E) : Option (TreeMem E) :=
  match np with
  | root => some { m with root := v }
  | left n => do
    let x ← m.nodes.get n
    let nodes ← m.nodes.set n { x with left := v }
    some { m with nodes }
  | right n => do
    let x ← m.nodes.get n
    let nodes ← m.nodes.set n { x with right := v }
    some { m with nodes }

/-- `tree_insert_node_helper (np, e)`, with the call that it makes on `e` at the end. The result is
the new node. A way down of more than `fuel` steps goes around in a circle. -/
def tree_insert_node_helper (calls : Calls E) (keep : ℕ → E → Option E) (e : ℕ) :
    ℕ → Slot → TreeMem E → Option (TreeMem E × ℕ)
  | 0, _, _ => none
  | fuel + 1, np, m => do
    let cur ← np.read m
    match cur with
    | some n => do
      let x ← m.nodes.get n
      let r ← calls.compare e x.elem m.elems
      if r ≤ 0 then tree_insert_node_helper calls keep e fuel (.left n) m
      else tree_insert_node_helper calls keep e fuel (.right n) m
    | none => do
      let n := m.nodes.size
      let elems ← keep e m.elems
      let m ← np.write (some n)
        { m with elems, nodes := m.nodes.alloc { elem := e, left := none, right := none } }
      some (m, n)

/-- `tree_delete_helper (n)`. -/
def tree_delete_helper (calls : Calls E) : ℕ → Option ℕ → TreeMem E → Option (TreeMem E)
  | _, none, m => some m
  | 0, some _, _ => none
  | fuel + 1, some n, m => do
    let x ← m.nodes.get n
    let m ← tree_delete_helper calls fuel x.left m
    let m ← tree_delete_helper calls fuel x.right m
    let x ← m.nodes.get n
    let elems ← calls.free_ref x.elem m.elems
    let nodes ← m.nodes.free n
    some { m with elems, nodes }

/-- `tree_delete (t)`. What is left after `free (t)` are the elements and the nodes. -/
def tree_delete (calls : Calls E) (m : TreeMem E) : Option (E × Heap TreeNode) := do
  let m ← tree_delete_helper calls m.nodes.size m.root m
  some (m.elems, m.nodes)

/-- `tree_ordered_print_helper (n, depth)`: the lines, each with its depth and what is printed for
the element. -/
def tree_ordered_print_helper (print : ℕ → E → Option γ) (m : TreeMem E) :
    ℕ → Option ℕ → ℕ → Option (List (ℕ × γ))
  | _, none, _ => some []
  | 0, some _, _ => none
  | fuel + 1, some n, depth => do
    let x ← m.nodes.get n
    let line ← print x.elem m.elems
    let left ← tree_ordered_print_helper print m fuel x.left (depth + 1)
    let right ← tree_ordered_print_helper print m fuel x.right (depth + 1)
    some ((depth, line) :: (left ++ right))

/-- `tree_ordered_print (t)`. -/
def tree_ordered_print (print : ℕ → E → Option γ) (m : TreeMem E) : Option (List (ℕ × γ)) :=
  tree_ordered_print_helper print m m.nodes.size m.root 0

/-! ### What a tree is made of -/

/-- The nodes of `t` stand under the pointer `p`. -/
def Stands (nodes : Heap TreeNode) : Option ℕ → BinaryTree ℕ → Prop
  | p, .nil => p = none
  | p, .node a l r =>
    p = some a ∧ ∃ x, nodes.get a = some x ∧ Stands nodes x.left l ∧ Stands nodes x.right r

/-- **The nodes of a tree** are those that are live. -/
structure IsTree (nodes : Heap TreeNode) (root : Option ℕ) (t : BinaryTree ℕ) : Prop where
  stands : Stands nodes root t
  nodup : (inorder t).Nodup
  live : ∀ p x, nodes.get p = some x → p ∈ inorder t

/-- How many of the nodes hold `e`. -/
def treeNumber (nodes : Heap TreeNode) (e : ℕ) : ℕ := nodes.number fun x => x.elem = e

variable {nodes nodes' : Heap TreeNode} {p : Option ℕ} {n : ℕ} {t l r : BinaryTree ℕ}

theorem Stands.congr (h : ∀ q ∈ inorder t, nodes'.get q = nodes.get q) (ht : Stands nodes p t) :
    Stands nodes' p t := by
  induction t generalizing p with
  | nil => exact ht
  | node a l r ihl ihr =>
    obtain ⟨hp, x, hx, hl, hr⟩ := ht
    refine ⟨hp, x, ?_, ihl (fun q hq => h q ?_) hl, ihr (fun q hq => h q ?_) hr⟩
    · rw [h a (by simp [inorder]), hx]
    · simp [inorder, hq]
    · simp [inorder, hq]

theorem Stands.get (ht : Stands nodes p t) (hn : n ∈ inorder t) : ∃ x, nodes.get n = some x := by
  induction t generalizing p with
  | nil => exact absurd hn List.not_mem_nil
  | node a l r ihl ihr =>
    obtain ⟨-, x, hx, hl, hr⟩ := ht
    simp only [inorder, List.mem_append, List.mem_cons] at hn
    rcases hn with hn | rfl | hn
    · exact ihl hl hn
    · exact ⟨x, hx⟩
    · exact ihr hr hn

theorem treeNumber_pos {x : TreeNode} (hn : nodes.get n = some x) : 0 < treeNumber nodes x.elem :=
  Heap.number_pos hn (decide_eq_true rfl)

theorem IsTree.height_le (h : IsTree nodes p t) : t.height ≤ nodes.size := by
  have hsub : inorder t ⊆ List.range nodes.size := fun q hq => by
    obtain ⟨x, hx⟩ := h.stands.get hq
    exact List.mem_range.mpr (Heap.lt_size hx)
  have hlen := (List.subperm_of_subset h.nodup hsub).length_le
  rw [List.length_range] at hlen
  exact Nat.le_trans (height_le_length t) hlen

/-! ### Slots -/

/-- The node that a slot is in. -/
def Slot.owner : Slot → Option ℕ
  | root => none
  | left n => some n
  | right n => some n

variable {m : TreeMem E} {np : Slot} {cur : Option ℕ} {elems : E}

theorem Slot.read_congr (h : ∀ a, np.owner = some a → nodes.get a = m.nodes.get a) :
    np.read { m with elems, nodes } = np.read m := by
  cases np with
  | root => rfl
  | left a | right a => rw [read, read, h a rfl]

theorem Slot.get_owner {a : ℕ} (h : np.read m = some cur) (ha : np.owner = some a) :
    ∃ x, m.nodes.get a = some x := by
  cases np with
  | root => exact absurd ha nofun
  | left b | right b =>
    obtain rfl := Option.some.inj ha
    exact (Option.map_eq_some_iff.mp h).imp fun _ hx => hx.1

theorem Slot.write_self (h : np.read m = some cur) : np.write cur m = some m := by
  cases np with
  | root =>
    rw [← Option.some.inj h]
    rfl
  | left a =>
    obtain ⟨x, hx, rfl⟩ := Option.map_eq_some_iff.mp h
    simp only [write, hx, Option.bind_eq_bind, Option.bind_some, Heap.set_eq hx, Heap.put_self hx]
  | right a =>
    obtain ⟨x, hx, rfl⟩ := Option.map_eq_some_iff.mp h
    simp only [write, hx, Option.bind_eq_bind, Option.bind_some, Heap.set_eq hx, Heap.put_self hx]

theorem Slot.exists_write (h : np.read m = some cur) (v : Option ℕ) :
    ∃ m', np.write v m = some m' := by
  cases np with
  | root => exact ⟨_, rfl⟩
  | left a | right a =>
    obtain ⟨x, hx, -⟩ := Option.map_eq_some_iff.mp h
    simp only [write, hx, Option.bind_eq_bind, Option.bind_some, Heap.set_eq hx]
    exact ⟨_, rfl⟩

/-- The left child of a node, or the right one. -/
def Slot.child (side : Bool) (a : ℕ) : Slot := if side then left a else right a

def TreeNode.child (side : Bool) (x : TreeNode) : Option ℕ := if side then x.left else x.right

def TreeNode.setChild (side : Bool) (v : Option ℕ) (x : TreeNode) : TreeNode :=
  if side then { x with left := v } else { x with right := v }

theorem Slot.read_child {a : ℕ} {x : TreeNode} (h : m.nodes.get a = some x) (side : Bool) :
    (child side a).read m = some (x.child side) := by
  cases side <;> simp [child, read, h, TreeNode.child]

theorem Slot.write_child {a : ℕ} {x : TreeNode} (h : m.nodes.get a = some x) (side : Bool)
    (v : Option ℕ) : (child side a).write v m =
      some { m with nodes := m.nodes.put a (some (x.setChild side v)) } := by
  cases side <;>
    simp [child, write, h, Heap.set_eq h, TreeNode.setChild]

@[simp] theorem TreeNode.setChild_elem (side : Bool) (v : Option ℕ) (x : TreeNode) :
    (x.setChild side v).elem = x.elem := by
  cases side <;> rfl

theorem map_elem_put {a : ℕ} {x y : TreeNode} (h : nodes.get a = some x) (hy : y.elem = x.elem)
    (q : ℕ) : ((nodes.put a (some y)).get q).map TreeNode.elem =
      (nodes.get q).map TreeNode.elem := by
  by_cases hq : q = a
  · rw [hq, Heap.get_put_self h, h, Option.map_some, Option.map_some, hy]
  · rw [Heap.get_put_of_ne hq]

theorem treeNumber_put {a : ℕ} {x y : TreeNode} (h : nodes.get a = some x) (hy : y.elem = x.elem)
    (e : ℕ) : treeNumber (nodes.put a (some y)) e = treeNumber nodes e := by
  have hnumber := Heap.number_put (c := some y) (P := fun x => x.elem = e) h
  rw [Option.any_some, hy] at hnumber
  exact Nat.add_right_cancel hnumber

/-! ### Insertion -/

/-- Where a new node with `e` goes at the node `a`. -/
def nodeLeft (calls : Calls E) (e : ℕ) (m : TreeMem E) (_ a : ℕ) : Bool :=
  ((m.nodes.get a).bind fun x => calls.compare e x.elem m.elems).any (· ≤ 0)

variable {calls : Calls E} {keep : ℕ → E → Option E} {e : ℕ}

/-- The elements of the nodes after a new node with `e` has been allocated. -/
def ElemsAfter (e : ℕ) (nodes nodes' : Heap TreeNode) : Prop := ∀ q,
  (nodes'.get q).map TreeNode.elem = ((nodes.alloc ⟨e, none, none⟩).get q).map TreeNode.elem

/-- The result of an insertion into the tree `t` at a slot: the nodes of `t` and the new one, and
what the slot holds in the end. -/
def Inserted (calls : Calls E) (e : ℕ) (elems : E) (m : TreeMem E) (np : Slot) (t : BinaryTree ℕ)
    (m' : TreeMem E) : Prop :=
  ∃ nodes cur, np.write cur { m with elems, nodes } = some m' ∧
    Stands nodes cur (SearchTree.insert (nodeLeft calls e m) m.nodes.size t) ∧
    (∀ q ∉ inorder t, q ≠ m.nodes.size → nodes.get q = m.nodes.get q) ∧
    (∀ f, treeNumber nodes f = treeNumber m.nodes f + if e = f then 1 else 0) ∧
    ElemsAfter e m.nodes nodes

theorem inserted_nil (calls : Calls E) (e : ℕ) (elems : E) (hread : np.read m = some none) :
    ∃ m', np.write (some m.nodes.size) { m with elems, nodes := m.nodes.alloc ⟨e, none, none⟩ } =
      some m' ∧ Inserted calls e elems m np .nil m' := by
  have hkeep : ∀ a, np.owner = some a →
      (m.nodes.alloc ⟨e, none, none⟩).get a = m.nodes.get a := by
    intro a ha
    obtain ⟨x, hx⟩ := Slot.get_owner hread ha
    rw [Heap.get_alloc_of_get hx, hx]
  have hread' : np.read { m with elems, nodes := m.nodes.alloc ⟨e, none, none⟩ } = some none :=
    (Slot.read_congr hkeep).trans hread
  obtain ⟨m', hm'⟩ := Slot.exists_write hread' (some m.nodes.size)
  refine ⟨m', hm', m.nodes.alloc ⟨e, none, none⟩, some m.nodes.size, hm',
    ⟨rfl, _, Heap.get_alloc_self, rfl, rfl⟩, fun q _ hq => Heap.get_alloc_of_ne hq, fun f => ?_,
    fun _ => rfl⟩
  rw [treeNumber, Heap.number_alloc, treeNumber]
  simp

/-- The subtree on one side of a node, and how the whole tree is made of both. -/
def subtree (side : Bool) (l r : BinaryTree ℕ) : BinaryTree ℕ := if side then l else r

theorem mem_inorder_node (side : Bool) {a q : ℕ} : q ∈ inorder (.node a l r) ↔
    q ∈ inorder (subtree side l r) ∨ q = a ∨ q ∈ inorder (subtree (!side) l r) := by
  cases side
  · simp only [inorder, subtree, List.mem_append, List.mem_cons]
    tauto
  · simp [inorder, subtree]

theorem nodup_subtree (side : Bool) {a : ℕ} (h : (inorder (.node a l r)).Nodup) :
    a ∉ inorder (subtree side l r) ∧
      ∀ q ∈ inorder (subtree side l r), q ∉ inorder (subtree (!side) l r) := by
  obtain ⟨-, -, hal, har, hlr⟩ := nodup_node h
  cases side
  · exact ⟨har, fun q hqr hql => hlr q hql hqr⟩
  · exact ⟨hal, hlr⟩

theorem stands_node (side : Bool) {a : ℕ} {x : TreeNode} (ha : nodes.get a = some x) :
    Stands nodes (some a) (.node a l r) ↔ Stands nodes (x.child side) (subtree side l r) ∧
      Stands nodes (x.child !side) (subtree (!side) l r) := by
  have hnode : Stands nodes (some a) (.node a l r) ↔
      Stands nodes x.left l ∧ Stands nodes x.right r := by
    simp [Stands, ha]
  rw [hnode]
  cases side
  · exact and_comm
  · exact Iff.rfl

theorem insert_node {left : ℕ → ℕ → Bool} {side : Bool} {a : ℕ} (h : left n a = side) :
    ∃ l' r', SearchTree.insert left n (.node a l r) = .node a l' r' ∧
      subtree side l' r' = SearchTree.insert left n (subtree side l r) ∧
      subtree (!side) l' r' = subtree (!side) l r := by
  cases side with
  | false => exact ⟨l, SearchTree.insert left n r, by rw [SearchTree.insert, h]; rfl, rfl, rfl⟩
  | true => exact ⟨SearchTree.insert left n l, r, by rw [SearchTree.insert, h]; rfl, rfl, rfl⟩

/-- **An insertion below a node** is one into its tree. -/
theorem Inserted.node (side : Bool) {a : ℕ} {x : TreeNode} {m' : TreeMem E}
    (hread : np.read m = some (some a)) (hx : m.nodes.get a = some x)
    (ht : Stands m.nodes (some a) (.node a l r)) (hnd : (inorder (.node a l r)).Nodup)
    (howner : ∀ b, np.owner = some b → b ∉ inorder (.node a l r))
    (hside : nodeLeft calls e m m.nodes.size a = side)
    (h : Inserted calls e elems m (.child side a) (subtree side l r) m') :
    Inserted calls e elems m np (.node a l r) m' := by
  obtain ⟨ha, hdisj⟩ := nodup_subtree side hnd
  obtain ⟨ha', -⟩ := nodup_subtree (!side) hnd
  have hne : ∀ q ∈ inorder (.node a l r), q ≠ m.nodes.size := fun q hq => by
    obtain ⟨y, hy⟩ := ht.get hq
    exact Nat.ne_of_lt (Heap.lt_size hy)
  have hmem : a ∈ inorder (.node a l r) := (mem_inorder_node side).mpr (.inr (.inl rfl))
  obtain ⟨nodes, cur, hwrite, hstands, hsame, hnumber, helems⟩ := h
  have hxa : nodes.get a = some x := by rw [hsame a ha (hne a hmem), hx]
  rw [Slot.write_child hxa, Option.some.injEq] at hwrite
  have hput : ∀ q ∉ inorder (.node a l r), q ≠ m.nodes.size →
      (nodes.put a (some (x.setChild side cur))).get q = m.nodes.get q := by
    intro q hq hqn
    rw [mem_inorder_node side, not_or, not_or] at hq
    rw [Heap.get_put_of_ne hq.2.1, hsame q hq.1 hqn]
  have hslot : np.read { m with elems, nodes := nodes.put a (some (x.setChild side cur)) } =
      some (some a) := by
    refine (Slot.read_congr fun b hb => hput b (howner b hb) ?_).trans hread
    obtain ⟨y, hy⟩ := Slot.get_owner hread hb
    exact Nat.ne_of_lt (Heap.lt_size hy)
  refine ⟨_, some a, hwrite ▸ Slot.write_self hslot, ?_, hput, fun f => ?_, fun q => ?_⟩
  · have hchild : (x.setChild side cur).child side = cur := by cases side <;> rfl
    have hother : (x.setChild side cur).child (!side) = x.child !side := by cases side <;> rfl
    obtain ⟨l', r', hinsert, hsub, hoth⟩ := insert_node (l := l) (r := r) hside
    rw [hinsert, stands_node side (Heap.get_put_self hxa), hchild, hother, hsub, hoth]
    refine ⟨hstands.congr fun q hq => ?_, ((stands_node side hx).mp ht).2.congr fun q hq => ?_⟩
    · refine Heap.get_put_of_ne ?_
      rintro rfl
      rcases mem_insert.mp hq with h | h
      · exact hne q hmem h
      · exact ha h
    · have hqa : q ≠ a := fun h => ha' (h ▸ hq)
      rw [Heap.get_put_of_ne hqa, hsame q (fun hqs => hdisj q hqs hq)
        (hne q ((mem_inorder_node side).mpr (.inr (.inr hq))))]
  · rw [treeNumber_put hxa (TreeNode.setChild_elem ..), hnumber]
  · rw [map_elem_put hxa (TreeNode.setChild_elem ..), helems]

theorem insert_helper_spec (fuel : ℕ) (hread : np.read m = some cur) (ht : Stands m.nodes cur t)
    (hnd : (inorder t).Nodup) (hfuel : t.height < fuel)
    (howner : ∀ b, np.owner = some b → b ∉ inorder t)
    (hcompare : ∀ q ∈ inorder t, ∀ x, m.nodes.get q = some x →
      ∃ r, calls.compare e x.elem m.elems = some r)
    (hkeep : keep e m.elems = some elems) :
    ∃ m', tree_insert_node_helper calls keep e fuel np m = some (m', m.nodes.size) ∧
      Inserted calls e elems m np t m' := by
  induction t generalizing fuel np cur with
  | nil =>
    obtain ⟨fuel, rfl⟩ := Nat.exists_eq_succ_of_ne_zero (Nat.ne_of_gt hfuel)
    obtain rfl : cur = none := ht
    obtain ⟨m', hwrite, hins⟩ := inserted_nil calls e elems hread
    refine ⟨m', ?_, hins⟩
    simp only [tree_insert_node_helper, hread, hkeep, Option.bind_eq_bind, Option.bind_some, hwrite]
  | node a l r ihl ihr =>
    obtain ⟨fuel, rfl⟩ := Nat.exists_eq_succ_of_ne_zero (Nat.ne_zero_of_lt hfuel)
    obtain ⟨rfl, x, hx, hl, hr⟩ := ht
    obtain ⟨hndl, hndr, hal, har, -⟩ := nodup_node hnd
    obtain ⟨s, hs⟩ := hcompare a (by simp [inorder]) x hx
    rw [BinaryTree.height] at hfuel
    have hside : nodeLeft calls e m m.nodes.size a = decide (s ≤ 0) := by
      rw [nodeLeft, hx, Option.bind_some, hs]
      rfl
    have hstands : Stands m.nodes (some a) (.node a l r) := ⟨rfl, x, hx, hl, hr⟩
    by_cases hle : s ≤ 0
    · have hleft : (Slot.left a).read m = some x.left := Slot.read_child hx true
      obtain ⟨m', hhelp, hins⟩ := ihl fuel hleft hl hndl
        (by omega) (fun b hb => Option.some.inj hb ▸ hal)
        (fun q hq => hcompare q (by simp [inorder, hq]))
      refine ⟨m', ?_, hins.node true hread hx hstands hnd howner (by simp [hside, hle])⟩
      simp only [tree_insert_node_helper, hread, hx, hs, Option.bind_eq_bind, Option.bind_some,
        if_pos hle, hhelp]
    · have hright : (Slot.right a).read m = some x.right := Slot.read_child hx false
      obtain ⟨m', hhelp, hins⟩ := ihr fuel hright hr hndr
        (by omega) (fun b hb => Option.some.inj hb ▸ har)
        (fun q hq => hcompare q (by simp [inorder, hq]))
      refine ⟨m', ?_, hins.node false hread hx hstands hnd howner (by simp [hside, hle])⟩
      simp only [tree_insert_node_helper, hread, hx, hs, Option.bind_eq_bind, Option.bind_some,
        if_neg hle, hhelp]

/-- **`tree_insert_node_helper`** from the root of a tree. -/
theorem insert_spec (h : IsTree m.nodes m.root t)
    (hcompare : ∀ q x, m.nodes.get q = some x → ∃ r, calls.compare e x.elem m.elems = some r)
    (hkeep : keep e m.elems = some elems) :
    ∃ m', tree_insert_node_helper calls keep e (m.nodes.size + 1) .root m =
        some (m', m.nodes.size) ∧ m'.elems = elems ∧
      IsTree m'.nodes m'.root (SearchTree.insert (nodeLeft calls e m) m.nodes.size t) ∧
      (∀ f, treeNumber m'.nodes f = treeNumber m.nodes f + if e = f then 1 else 0) ∧
      ElemsAfter e m.nodes m'.nodes := by
  have hroot : Slot.root.read m = some m.root := rfl
  obtain ⟨m', hhelp, nodes, cur, hwrite, hstands, hsame, hnumber, helems⟩ :=
    insert_helper_spec (m.nodes.size + 1) hroot h.stands h.nodup
      (Nat.lt_succ_of_le h.height_le) nofun (fun q _ => hcompare q) hkeep
  obtain rfl := Option.some.inj hwrite
  refine ⟨_, hhelp, rfl, ⟨hstands, ?_, fun q x hq => ?_⟩, hnumber, helems⟩
  · refine (inorder_insert_perm _ _ t).nodup_iff.mpr (List.nodup_cons.mpr ⟨fun hmem => ?_, h.nodup⟩)
    obtain ⟨y, hy⟩ := h.stands.get hmem
    exact absurd (Heap.lt_size hy) (Nat.lt_irrefl _)
  · rw [mem_insert]
    by_contra hnot
    rw [not_or] at hnot
    exact hnot.2 (h.live q x ((hsame q hnot.2 hnot.1).symm.trans hq))

/-! ### Deletion and printing -/

section Counts

variable {Holds : E → (ℕ → ℕ) → Prop} {b : ℕ → ℕ}

/-- One reference less for a node that is freed. `b` counts the references from elsewhere. -/
theorem free_elem_spec (hcalls : Counts calls Holds) {a : ℕ} {x : TreeNode}
    (hx : m.nodes.get a = some x) (hheld : Holds m.elems fun e => b e + treeNumber m.nodes e)
    (hlt : ∀ e, b e + treeNumber m.nodes e < 2 ^ 32) :
    ∃ elems, calls.free_ref x.elem m.elems = some elems ∧
      (∀ f, treeNumber (m.nodes.put a none) f ≤ treeNumber m.nodes f) ∧
      Holds elems fun f => b f + treeNumber (m.nodes.put a none) f := by
  obtain ⟨elems, hfree, hheld'⟩ := hcalls.free hheld (e := x.elem)
    (Nat.lt_add_left _ (treeNumber_pos hx)) (hlt _)
  have hnumber : ∀ f, treeNumber (m.nodes.put a none) f + (if x.elem = f then 1 else 0) =
      treeNumber m.nodes f := fun f => by
    have h := Heap.number_put (c := none) (P := fun x => x.elem = f) hx
    simpa [treeNumber] using h
  refine ⟨elems, hfree, fun f => hnumber f ▸ Nat.le_add_right _ _, ?_⟩
  rwa [update_free (fun f => b f + treeNumber (m.nodes.put a none) f)
    fun f => by rw [← hnumber f, Nat.add_assoc]] at hheld'

theorem delete_helper_spec (hcalls : Counts calls Holds) (fuel : ℕ) (ht : Stands m.nodes p t)
    (hnd : (inorder t).Nodup) (hfuel : t.height ≤ fuel)
    (hheld : Holds m.elems fun e => b e + treeNumber m.nodes e)
    (hlt : ∀ e, b e + treeNumber m.nodes e < 2 ^ 32) :
    ∃ m', tree_delete_helper calls fuel p m = some m' ∧ m'.nodes.size = m.nodes.size ∧
      (∀ q ∈ inorder t, m'.nodes.get q = none) ∧
      (∀ q ∉ inorder t, m'.nodes.get q = m.nodes.get q) ∧
      (∀ e, treeNumber m'.nodes e ≤ treeNumber m.nodes e) ∧
      Holds m'.elems fun e => b e + treeNumber m'.nodes e := by
  induction t generalizing fuel p m with
  | nil =>
    obtain rfl : p = none := ht
    exact ⟨m, by rw [tree_delete_helper], rfl, fun q hq => absurd hq List.not_mem_nil,
      fun _ _ => rfl, fun _ => Nat.le_refl _, hheld⟩
  | node a l r ihl ihr =>
    rw [BinaryTree.height] at hfuel
    obtain ⟨fuel, rfl⟩ : ∃ k, fuel = k + 1 := ⟨fuel - 1, by omega⟩
    obtain ⟨rfl, x, hx, hl, hr⟩ := ht
    obtain ⟨hndl, hndr, hal, har, hlr⟩ := nodup_node hnd
    obtain ⟨m₁, hdel₁, hsize₁, hfree₁, hsame₁, hle₁, hheld₁⟩ :=
      ihl fuel hl hndl (by omega) hheld hlt
    obtain ⟨m₂, hdel₂, hsize₂, hfree₂, hsame₂, hle₂, hheld₂⟩ :=
      ihr fuel (hr.congr fun q hq => hsame₁ q fun hql => hlr q hql hq) hndr (by omega) hheld₁
        fun e => Nat.lt_of_le_of_lt (Nat.add_le_add_left (hle₁ e) _) (hlt e)
    have hx₂ : m₂.nodes.get a = some x := by rw [hsame₂ a har, hsame₁ a hal, hx]
    have hle : ∀ e, treeNumber m₂.nodes e ≤ treeNumber m.nodes e := fun e =>
      Nat.le_trans (hle₂ e) (hle₁ e)
    obtain ⟨elems, hfree, hle', hheld'⟩ := free_elem_spec hcalls hx₂ hheld₂ fun e =>
      Nat.lt_of_le_of_lt (Nat.add_le_add_left (hle e) _) (hlt e)
    refine ⟨{ m₂ with elems, nodes := m₂.nodes.put a none }, ?_, ?_, fun q hq => ?_, fun q hq => ?_,
      fun f => Nat.le_trans (hle' f) (hle f), hheld'⟩
    · simp only [tree_delete_helper, hx, Option.bind_eq_bind, Option.bind_some, hdel₁, hdel₂, hx₂,
        hfree, Heap.free_eq hx₂]
    · rw [Heap.size_put, hsize₂, hsize₁]
    · by_cases hqa : q = a
      · rw [hqa, Heap.get_put_self hx₂]
      · rw [Heap.get_put_of_ne hqa]
        simp only [inorder, List.mem_append, List.mem_cons, hqa, false_or] at hq
        by_cases hqr : q ∈ inorder r
        · exact hfree₂ q hqr
        · rw [hsame₂ q hqr, hfree₁ q (hq.resolve_right hqr)]
    · simp only [inorder, List.mem_append, List.mem_cons, not_or] at hq
      rw [Heap.get_put_of_ne hq.2.1, hsame₂ q hq.2.2, hsame₁ q hq.1]

/-- **`tree_delete`** gives back the references of the tree, and leaves no node. -/
theorem delete_spec (hcalls : Counts calls Holds) (h : IsTree m.nodes m.root t)
    (hheld : Holds m.elems fun e => b e + treeNumber m.nodes e)
    (hlt : ∀ e, b e + treeNumber m.nodes e < 2 ^ 32) :
    ∃ elems nodes, tree_delete calls m = some (elems, nodes) ∧ Holds elems b ∧
      nodes.size = m.nodes.size ∧ ∀ q, nodes.get q = none := by
  obtain ⟨m', hdel, hsize, hfree, hsame, -, hheld'⟩ :=
    delete_helper_spec hcalls m.nodes.size h.stands h.nodup h.height_le hheld hlt
  have hnone : ∀ q, m'.nodes.get q = none := fun q => by
    by_cases hq : q ∈ inorder t
    · exact hfree q hq
    · rw [hsame q hq]
      cases hx : m.nodes.get q with
      | none => rfl
      | some x => exact absurd (h.live q x hx) hq
  have hzero : ∀ e, treeNumber m'.nodes e = 0 := fun e => Heap.number_eq_zero_of_none hnone
  refine ⟨m'.elems, m'.nodes, ?_, ?_, hsize, hnone⟩
  · simp only [tree_delete, hdel, Option.bind_eq_bind, Option.bind_some]
  · simpa only [hzero, Nat.add_zero] using hheld'

end Counts

theorem print_helper_spec {print : ℕ → E → Option γ} (fuel depth : ℕ) (ht : Stands m.nodes p t)
    (hfuel : t.height ≤ fuel)
    (hprint : ∀ q x, m.nodes.get q = some x → ∃ line, print x.elem m.elems = some line) :
    ∃ out, tree_ordered_print_helper print m fuel p depth = some out := by
  induction t generalizing fuel p depth with
  | nil =>
    obtain rfl : p = none := ht
    exact ⟨[], by rw [tree_ordered_print_helper]⟩
  | node a l r ihl ihr =>
    rw [BinaryTree.height] at hfuel
    obtain ⟨fuel, rfl⟩ : ∃ k, fuel = k + 1 := ⟨fuel - 1, by omega⟩
    obtain ⟨rfl, x, hx, hl, hr⟩ := ht
    obtain ⟨line, hline⟩ := hprint a x hx
    obtain ⟨out₁, hout₁⟩ := ihl fuel (depth + 1) hl (by omega)
    obtain ⟨out₂, hout₂⟩ := ihr fuel (depth + 1) hr (by omega)
    refine ⟨(depth, line) :: (out₁ ++ out₂), ?_⟩
    simp only [tree_ordered_print_helper, hx, hline, hout₁, hout₂, Option.bind_eq_bind,
      Option.bind_some]

/-- **`tree_ordered_print`** reads live nodes only. -/
theorem print_spec {print : ℕ → E → Option γ} (h : IsTree m.nodes m.root t)
    (hprint : ∀ q x, m.nodes.get q = some x → ∃ line, print x.elem m.elems = some line) :
    ∃ out, tree_ordered_print print m = some out :=
  print_helper_spec m.nodes.size 0 h.stands h.height_le hprint

theorem print_congr {print : ℕ → E → Option γ} (h : ∀ q x, m.nodes.get q = some x →
    print x.elem elems = print x.elem m.elems) :
    tree_ordered_print print { m with elems } = tree_ordered_print print m := by
  have hhelp : ∀ fuel p depth, tree_ordered_print_helper print { m with elems } fuel p depth =
      tree_ordered_print_helper print m fuel p depth := by
    intro fuel
    induction fuel with
    | zero =>
      intro p depth
      cases p <;> rfl
    | succ fuel ih =>
      intro p depth
      cases p with
      | none => rfl
      | some n =>
        rw [tree_ordered_print_helper, tree_ordered_print_helper]
        refine Option.bind_congr fun x hx => ?_
        rw [h n x hx, ih, ih]
  exact hhelp m.nodes.size m.root 0

end IntroSystems.Elements
