import IntroSystems.Lib.Heap
import IntroSystems.Lib.SearchTree
import Mathlib.Data.Int.Notation

/-!
# The binary tree of assignment 4

`BinaryTree.c`. A node points to its parent, too. `NULL` is `none`.

* `create`, `insert`, `printInOrder`, `printPath`, and `main` after `atoi`.
* `Stands`: the nodes that a tree is made of.
* `Search`: what the search for a node meets.
-/

set_option autoImplicit false

namespace IntroSystems.BinaryTreeCode

open SearchTree

/-- `struct Node`. -/
structure Node where
  value : ℤ
  parent : Option ℕ
  left : Option ℕ
  right : Option ℕ

/-! ### The code -/

/-- `create (value)`. -/
def create (value : ℤ) (nodes : Heap Node) : Heap Node × ℕ :=
  (nodes.alloc { value, parent := none, left := none, right := none }, nodes.size)

/-- `n->parent = toNode`. -/
def setParent (n toNode : ℕ) (nodes : Heap Node) : Option (Heap Node) := do
  let x ← nodes.get n
  nodes.set n { x with parent := some toNode }

/-- `insert (toNode, n)`. A way down of more than `fuel` nodes goes around in a circle. -/
def insert (n : ℕ) : ℕ → ℕ → Heap Node → Option (Heap Node)
  | 0, _, _ => none
  | fuel + 1, toNode, nodes => do
    let x ← nodes.get n
    let y ← nodes.get toNode
    if x.value ≤ y.value then
      match y.left with
      | none => do
        let nodes ← nodes.set toNode { y with left := some n }
        setParent n toNode nodes
      | some left => insert n fuel left nodes
    else
      match y.right with
      | none => do
        let nodes ← nodes.set toNode { y with right := some n }
        setParent n toNode nodes
      | some right => insert n fuel right nodes

/-- `if (p != NULL) print (p)`. -/
def unlessNull (print : ℕ → Option (List ℤ)) : Option ℕ → Option (List ℤ)
  | none => some []
  | some p => print p

/-- `printInOrder (node)`. -/
def printInOrder (nodes : Heap Node) : ℕ → ℕ → Option (List ℤ)
  | 0, _ => none
  | fuel + 1, node => do
    let x ← nodes.get node
    let left ← unlessNull (printInOrder nodes fuel) x.left
    let right ← unlessNull (printInOrder nodes fuel) x.right
    some (left ++ x.value :: right)

/-- The words that `printPath` puts before a value. -/
inductive Label
  | fromRoot
  | leftTo
  | rightTo
  deriving DecidableEq

/-- `printPath (node)`. -/
def printPath (nodes : Heap Node) : ℕ → ℕ → Option (List (Label × ℤ))
  | 0, _ => none
  | fuel + 1, node => do
    let x ← nodes.get node
    match x.parent with
    | none => some [(.fromRoot, x.value)]
    | some parent => do
      let path ← printPath nodes fuel parent
      let y ← nodes.get parent
      some (path ++ [(if y.left = some node then .leftTo else .rightTo, x.value)])

/-- What `main` works on. -/
structure Locals where
  nodes : Heap Node
  root : Option ℕ
  lastNodeInserted : Option ℕ

/-- The loop of `main`, from `i` on. -/
def populate : ℕ → List ℤ → Locals → Option Locals
  | _, [], s => some s
  | i, value :: values, s => do
    let (nodes, node) := create value s.nodes
    let s ← if i = 1 then some { s with nodes, root := some node } else do
      let root ← s.root
      let nodes ← insert node nodes.size root nodes
      some { s with nodes }
    populate (i + 1) values { s with lastNodeInserted := some node }

/-- What is printed. -/
inductive Line
  | inOrder
  | value (v : ℤ)
  | pathTo (v : ℤ)
  | path (label : Label) (v : ℤ)

/-- `main`, for the integers that its arguments are. -/
def main (values : List ℤ) : Option (List Line) := do
  let s ← populate 1 values ⟨.empty, none, none⟩
  match s.root with
  | none => some []
  | some root => do
    let ordered ← printInOrder s.nodes s.nodes.size root
    let last ← s.lastNodeInserted
    let x ← s.nodes.get last
    let path ← printPath s.nodes s.nodes.size last
    some (.inOrder :: ordered.map .value ++ .pathTo x.value ::
      path.map fun step => .path step.1 step.2)

/-! ### What a tree is made of -/

/-- The nodes of `t` stand under the pointer `p` of the node `parent`. -/
def Stands (nodes : Heap Node) : Option ℕ → Option ℕ → BinaryTree ℕ → Prop
  | _, p, .nil => p = none
  | parent, p, .node a l r => p = some a ∧ ∃ x, nodes.get a = some x ∧ x.parent = parent ∧
      Stands nodes (some a) x.left l ∧ Stands nodes (some a) x.right r

/-- **The search for the node `x`** with the value `v`, from the node `a` on: the values that it
meets, and to which side it goes. -/
inductive Search (nodes : Heap Node) (x : ℕ) (v : ℤ) : Label → ℕ → List (Label × ℤ) → Prop
  | found {label : Label} {y : Node} (hx : nodes.get x = some y) :
    Search nodes x v label x [(label, y.value)]
  | left {label : Label} {a b : ℕ} {y : Node} {path : List (Label × ℤ)} (ha : nodes.get a = some y)
    (hne : a ≠ x) (hle : v ≤ y.value) (hb : y.left = some b) (h : Search nodes x v .leftTo b path) :
    Search nodes x v label a ((label, y.value) :: path)
  | right {label : Label} {a b : ℕ} {y : Node} {path : List (Label × ℤ)} (ha : nodes.get a = some y)
    (hne : a ≠ x) (hgt : y.value < v) (hb : y.right = some b)
    (h : Search nodes x v .rightTo b path) : Search nodes x v label a ((label, y.value) :: path)

variable {nodes nodes' : Heap Node} {parent p : Option ℕ} {q : ℕ} {t : BinaryTree ℕ}

theorem Stands.congr (h : ∀ q ∈ inorder t, nodes'.get q = nodes.get q)
    (ht : Stands nodes parent p t) : Stands nodes' parent p t := by
  induction t generalizing parent p with
  | nil => exact ht
  | node a l r ihl ihr =>
    obtain ⟨hp, x, hx, hparent, hl, hr⟩ := ht
    refine ⟨hp, x, ?_, hparent, ihl (fun q hq => h q ?_) hl, ihr (fun q hq => h q ?_) hr⟩
    · rw [h a (by simp [inorder]), hx]
    · simp [inorder, hq]
    · simp [inorder, hq]

theorem Stands.get (ht : Stands nodes parent p t) (hq : q ∈ inorder t) :
    ∃ x, nodes.get q = some x := by
  induction t generalizing parent p with
  | nil => exact absurd hq List.not_mem_nil
  | node a l r ihl ihr =>
    obtain ⟨-, x, hx, -, hl, hr⟩ := ht
    simp only [inorder, List.mem_append, List.mem_cons] at hq
    rcases hq with hq | rfl | hq
    · exact ihl hl hq
    · exact ⟨x, hx⟩
    · exact ihr hr hq

theorem Stands.root {a : ℕ} (ht : Stands nodes parent (some a) t) :
    ∃ x, nodes.get a = some x ∧ x.parent = parent := by
  cases t with
  | nil => exact absurd ht nofun
  | node b l r =>
    obtain ⟨hab, x, hx, hparent, -⟩ := ht
    obtain rfl := Option.some.inj hab
    exact ⟨x, hx, hparent⟩

end IntroSystems.BinaryTreeCode
