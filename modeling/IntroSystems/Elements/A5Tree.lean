import IntroSystems.Elements.A5

/-!
# The tree of assignment 5

`tree.c` of assignment 5 with its elements, which a list holds, too.

* `tree_insert_node`: with the node that it returns.
* `treeRun`: elements are made for the list, and put into the tree any number of times.
* `comesLeft`: the order of the strings, by `strcmp`.
* **`tree_searches`**: in every run there is one node for each insertion, at the place where it was
  put, with the strings up to its own on the left and the larger ones on the right; and the lines
  that are printed stay the same when the list is deleted, as long as no element is held `2 ^ 32`
  times.
* **`print_differs`**: then its counters are `0` too early.
-/

set_option autoImplicit false

namespace IntroSystems.Elements.A5

open Containers CString SearchTree

/-- `tree_insert_node (t, e)`. -/
def tree_insert_node (e : ℕ) (s : Containers Store) : Option (Containers Store × ℕ) := do
  let root ← s.tree
  let elems ← el_keep_ref e s.elems
  let (m, n) ← tree_insert_node_helper calls noCall e (s.treeNodes.size + 1) .root
    ⟨elems, s.treeNodes, root⟩
  some ({ s with elems := m.elems, treeNodes := m.nodes, tree := some m.root }, n)

theorem insert_eq (e : ℕ) (s : Containers Store) :
    s.insert calls el_keep_ref noCall e = (tree_insert_node e s).map Prod.fst := by
  unfold Containers.insert tree_insert_node
  cases s.tree with
  | none => rfl
  | some root =>
    cases el_keep_ref e s.elems with
    | none => rfl
    | some elems =>
      dsimp only [Option.bind_eq_bind, Option.bind_some]
      cases tree_insert_node_helper calls noCall e (s.treeNodes.size + 1) .root
        ⟨elems, s.treeNodes, root⟩ <;> rfl

/-! ### A program with a tree -/

/-- The memory, and the insertions so far: the node that each returned, and its element. -/
structure Program where
  store : Containers Store
  inserted : List (ℕ × ℕ)

/-- `insert` is about a node of the list. -/
inductive Call
  | add (junk : Client) (num : BitVec 32) (value : Str)
  | insert (n : ℕ)

def Call.run (p : Program) : Call → Option Program
  | add junk num value => do
    let store ← (Op.add junk num value).run p.store
    some { p with store }
  | insert n => do
    let x ← p.store.listNodes.get n
    let (store, q) ← tree_insert_node x.elem p.store
    some { store, inserted := p.inserted ++ [(q, x.elem)] }

/-- Elements are made for the list and put into the tree, in any order. -/
def treeRun : Sys Program Call where
  init p := p = ⟨initial ⟨.empty, .empty, []⟩, []⟩
  step p call p' := call.run p = some p'

/-- `t` is the tree of the program. -/
def TreeIs (s : Containers Store) (t : BinaryTree ℕ) : Prop :=
  ∃ root, s.tree = some root ∧ IsTree s.treeNodes root t

/-- The number and the string of the element that the node `q` holds. -/
def nodeLine (s : Containers Store) (q : ℕ) : Option (BitVec 32 × Str) :=
  (s.treeNodes.get q).bind fun x => line x.elem s.elems

/-- The order of the nodes by their strings. -/
def comesLeft (text : ℕ → BitVec 32 × Str) (q a : ℕ) : Bool := (text q).2.key ≤ (text a).2.key

/-- **The tree is a search tree**: `text` is what its nodes hold. -/
structure Searches (s : Containers Store) (t : BinaryTree ℕ) (text : ℕ → BitVec 32 × Str) :
    Prop where
  is : TreeIs s t
  lines : ∀ q ∈ inorder t, nodeLine s q = some (text q)
  ordered : Ordered (comesLeft text) t

/-! ### What the calls do -/

variable {s : Containers Store} {t : BinaryTree ℕ} {text : ℕ → BitVec 32 × Str} {e n q : ℕ}

theorem element_get_value_of_line {s : Store} {y : BitVec 32 × Str} (h : line e s = some y) :
    element_get_value e s = some y.2 := by
  simp only [line, Option.bind_eq_bind, Option.bind_eq_some_iff] at h
  obtain ⟨num, -, v, hv, hy⟩ := h
  cases hy
  exact hv

theorem TreeIs.get (h : TreeIs s t) (hq : q ∈ inorder t) : ∃ x, s.treeNodes.get q = some x := by
  obtain ⟨root, -, htree⟩ := h
  exact htree.stands.get hq

theorem TreeIs.mem (h : TreeIs s t) {x : TreeNode} (hx : s.treeNodes.get q = some x) :
    q ∈ inorder t := by
  obtain ⟨root, -, htree⟩ := h
  exact htree.live q x hx

theorem Searches.frame {s' : Containers Store} (h : Searches s t text) (htree : s'.tree = s.tree)
    (hnodes : s'.treeNodes = s.treeNodes)
    (hline : ∀ f y, line f s.elems = some y → line f s'.elems = some y) : Searches s' t text where
  is := by rw [TreeIs, htree, hnodes]; exact h.is
  lines q hq := by
    obtain ⟨x, hx, hy⟩ := Option.bind_eq_some_iff.mp (h.lines q hq)
    rw [nodeLine, hnodes, hx, Option.bind_some, hline x.elem _ hy]
  ordered := h.ordered

theorem nodeLine_eq {s' : Containers Store} (helems : ElemsAfter e s.treeNodes s'.treeNodes)
    (hline : ∀ f, line f s'.elems = line f s.elems) (q : ℕ) : nodeLine s' q =
      if q = s.treeNodes.size then line e s.elems else nodeLine s q := by
  have hmap : ∀ s : Containers Store, nodeLine s q =
      ((s.treeNodes.get q).map TreeNode.elem).bind fun f => line f s.elems := fun s => by
    rw [nodeLine, Option.bind_map]
    rfl
  have hsame := funext hline
  split
  case isTrue h =>
    rw [hmap, helems q, h, Heap.get_alloc_self, Option.map_some, Option.bind_some, hline]
  case isFalse h =>
    rw [hmap, helems q, Heap.get_alloc_of_ne h, hmap s, hsame]

theorem line_of_listNode (h : Exact s) {x : ListNode} (hx : s.listNodes.get n = some x) :
    ∃ y, line x.elem s.elems = some y :=
  line_spec h.held (Nat.add_pos_right 0 (number_pos_of_listNode hx))

/-- **`tree_insert_node`**: one node more, at the end of the way down. -/
theorem tree_insert_node_spec (h : Exact s) (hs : Searches s t text) {x : ListNode}
    (hx : s.listNodes.get n = some x) : ∃ s' text', tree_insert_node x.elem s =
        some (s', s.treeNodes.size) ∧ Exact s' ∧ s'.listNodes = s.listNodes ∧ s'.list = s.list ∧
      Searches s' (SearchTree.insert (comesLeft text') s.treeNodes.size t) text' ∧
      ElemsAfter x.elem s.treeNodes s'.treeNodes ∧
      ∀ f, s'.number f = s.number f + if x.elem = f then 1 else 0 := by
  obtain ⟨root, hroot, htree⟩ := hs.is
  obtain ⟨y, hy⟩ := line_of_listNode h hx
  obtain ⟨s₁, hrun, hexact, -, -, hnumber⟩ := h.insert (by rw [hroot]; nofun) hx
  obtain ⟨elems, hkeep, hheld, hline⟩ :=
    el_keep_ref_spec h.held (Nat.add_pos_right 0 (number_pos_of_listNode hx))
  have hcompare : ∀ q z, s.treeNodes.get q = some z →
      ∃ r, calls.compare x.elem z.elem elems = some r := fun q z hz =>
    compareValues_spec hheld (update_pos fun h => absurd rfl h)
      (update_pos fun _ => Nat.add_pos_right 0 (number_pos_of_treeNode hz))
  have hcall : noCall x.elem elems = some elems := rfl
  obtain ⟨m, hins, rfl, htree', -, helems⟩ :=
    insert_spec (m := ⟨elems, s.treeNodes, root⟩) htree hcompare hcall
  have hnode : tree_insert_node x.elem s = some ({ s with
      elems := m.elems, treeNodes := m.nodes, tree := some m.root }, s.treeNodes.size) := by
    simp only [tree_insert_node, hroot, hkeep, hins, Option.bind_eq_bind, Option.bind_some]
  rw [Op.run, hx, Option.bind_eq_bind, Option.bind_some, insert_eq, hnode, Option.map_some,
    Option.some.injEq] at hrun
  subst hrun
  have hsize : ∀ q ∈ inorder t, q ≠ s.treeNodes.size := fun q hq => by
    obtain ⟨z, hz⟩ := htree.stands.get hq
    exact Nat.ne_of_lt (Heap.lt_size hz)
  -- the new node has the line `y`, and the others those that they had before
  have hold : ∀ q ∈ inorder t, Function.update text s.treeNodes.size y q = text q := fun q hq =>
    Function.update_of_ne (hsize q hq) ..
  have hside : ∀ q ∈ inorder t, nodeLeft calls x.elem ⟨m.elems, s.treeNodes, root⟩
      s.treeNodes.size q = comesLeft (Function.update text s.treeNodes.size y)
        s.treeNodes.size q := by
    intro q hq
    obtain ⟨z, hz, htext⟩ := Option.bind_eq_some_iff.mp (hs.lines q hq)
    have hv := element_get_value_of_line ((hline x.elem).trans hy)
    have hw := element_get_value_of_line ((hline z.elem).trans htext)
    rw [nodeLeft, hz, Option.bind_some, comesLeft, Function.update_self, hold q hq]
    simp only [calls, compareValues, hv, hw, Option.bind_eq_bind, Option.bind_some,
      Option.any_some, (Str.tells_strcmp y.2 (text q).2).nonpos_iff]
  rw [insert_congr hside] at htree'
  refine ⟨_, Function.update text s.treeNodes.size y, hnode, hexact, rfl, rfl,
    ⟨⟨m.root, rfl, htree'⟩, fun q hq => ?_, ordered_insert _ (hs.ordered.congr fun q hq a ha => ?_)⟩,
    helems, hnumber⟩
  · rw [nodeLine_eq helems hline q]
    rcases mem_insert.mp hq with rfl | hq
    · rw [if_pos rfl, hy, Function.update_self]
    · rw [if_neg (hsize q hq), hs.lines q hq, hold q hq]
  · rw [comesLeft, comesLeft, hold q hq, hold a ha]

/-! ### The list is deleted -/

/-- The counters, and the line of each element that is held. -/
def HeldLines (lines : ℕ → Option (BitVec 32 × Str)) (s : Store) (c : ℕ → ℕ) : Prop :=
  Held s c ∧ ∀ f, 0 < c f → line f s = lines f

/-- **The functions of `element.c` keep the lines** of the elements that are held. -/
theorem counts_heldLines (lines : ℕ → Option (BitVec 32 × Str)) :
    Counts calls (HeldLines lines) where
  keep := by
    intro s c e h hpos
    obtain ⟨s', hkeep, hheld, hline⟩ := el_keep_ref_spec h.1 hpos
    refine ⟨s', hkeep, hheld, fun f hf => (hline f).trans (h.2 f ?_)⟩
    by_cases hfe : f = e
    · exact hfe ▸ hpos
    · rwa [Function.update_of_ne hfe] at hf
  free := by
    intro s c e h hpos hlt
    obtain ⟨s', hfree, hheld, hline⟩ := el_free_ref_spec h.1 hpos hlt
    refine ⟨s', hfree, hheld, fun f hf => (hline f hf).trans (h.2 f ?_)⟩
    by_cases hfe : f = e
    · exact hfe ▸ hpos
    · rwa [Function.update_of_ne hfe] at hf
  compare h := compareValues_spec h.1

/-- **`tree_ordered_print` before and after `list_delete`** prints the same. -/
theorem print_deleteList (h : Exact s) (hlist : s.list ≠ none) (htree : s.tree ≠ none)
    (hlt : ∀ e, s.number e < 2 ^ 32) : ∃ s' out, s.deleteList calls = some s' ∧
      s.print line = some out ∧ s'.print line = some out := by
  have hline : ∀ f, 0 < s.number f → ∃ y, line f s.elems = some y := fun f hf =>
    line_spec h.held (Nat.add_pos_right 0 hf)
  obtain ⟨out, hout⟩ := Sound.print h htree hline
  have hsound : Sound (HeldLines fun f => line f s.elems) (fun _ => 0) s :=
    ⟨⟨h.held, fun _ _ => rfl⟩, h.list, h.tree, h.noList, h.noTree⟩
  obtain ⟨s', hdel, hsound', -, htree', -⟩ := hsound.deleteList (counts_heldLines _) hlist
    fun e => (Nat.zero_add _).symm ▸ hlt e
  refine ⟨s', out, hdel, hout, ?_⟩
  rw [← hout, Containers.print, Containers.print, htree', deleteList_treeNodes hdel]
  refine Option.bind_congr fun root _ =>
    print_congr (m := ⟨s.elems, s.treeNodes, root⟩) fun q x hx => ?_
  rw [← deleteList_treeNodes hdel] at hx
  exact hsound'.held.2 x.elem (Nat.add_pos_right 0 (number_pos_of_treeNode hx))

/-! ### Every run -/

/-- **What is there after the insertions.** -/
structure Built (p : Program) (t : BinaryTree ℕ) (text : ℕ → BitVec 32 × Str) : Prop where
  counted : Exact p.store
  list : p.store.list ≠ none
  searches : Searches p.store t text
  nodes : (inorder t).Perm (p.inserted.map Prod.fst)
  elems : ∀ i ∈ p.inserted, (p.store.treeNodes.get i.1).map TreeNode.elem = some i.2

variable {p p' : Program}

theorem built_initial (text : ℕ → BitVec 32 × Str) :
    Built ⟨initial ⟨.empty, .empty, []⟩, []⟩ .nil text where
  counted := exact_initial
  list := nofun
  searches := ⟨⟨none, rfl, rfl, .nil, fun _ _ hq => absurd hq nofun⟩, nofun, trivial⟩
  nodes := .nil
  elems := nofun

theorem Built.add (h : Built p t text) {junk : Client} {num : BitVec 32} {value : Str}
    (hrun : (Call.add junk num value).run p = some p') : Built p' t text := by
  obtain ⟨s', hadd, hexact, hlist, htree, hnodes, hline⟩ := h.counted.add h.list junk num value
  rw [Call.run, hadd, Option.bind_eq_bind, Option.bind_some, Option.some.injEq] at hrun
  subst hrun
  exact ⟨hexact, hlist, h.searches.frame htree hnodes hline, h.nodes,
    fun i hi => hnodes ▸ h.elems i hi⟩

/-- **An insertion** succeeds. It returns a new node, and no other node moves. -/
theorem Built.insert (h : Built p t text) {x : ListNode}
    (hx : p.store.listNodes.get n = some x) : ∃ s' t' text' q,
      tree_insert_node x.elem p.store = some (s', q) ∧
      Built ⟨s', p.inserted ++ [(q, x.elem)]⟩ t' text' ∧ q ∉ inorder t ∧
      (∀ path a, valueAt path t = some a → valueAt path t' = some a) ∧
      s'.listNodes = p.store.listNodes ∧
      ∀ f, s'.number f = p.store.number f + if x.elem = f then 1 else 0 := by
  obtain ⟨s', text', hins, hexact, hlist, hlist', hs, helems, hnumber⟩ :=
    tree_insert_node_spec h.counted h.searches hx
  have hnot : p.store.treeNodes.size ∉ inorder t := fun hq => by
    obtain ⟨z, hz⟩ := h.searches.is.get hq
    exact Nat.lt_irrefl _ (Heap.lt_size hz)
  refine ⟨s', _, text', _, hins, ⟨hexact, hlist' ▸ h.list, hs, ?_, fun i hi => ?_⟩, hnot,
    fun path a => valueAt_insert _, hlist, hnumber⟩
  · calc inorder (SearchTree.insert (comesLeft text') p.store.treeNodes.size t)
        _ |>.Perm (p.store.treeNodes.size :: inorder t) := inorder_insert_perm _ _ _
        _ |>.Perm (p.store.treeNodes.size :: p.inserted.map Prod.fst) := h.nodes.cons _
        _ |>.Perm (p.inserted.map Prod.fst ++ [p.store.treeNodes.size]) :=
          (List.perm_append_singleton _ _).symm
        _ = (p.inserted ++ [(p.store.treeNodes.size, x.elem)]).map Prod.fst := by
          rw [List.map_append, List.map_cons, List.map_nil]
  · rw [helems]
    rcases List.mem_append.mp hi with hi | hi
    · have hmem : i.1 ∈ inorder t := h.nodes.mem_iff.mpr (List.mem_map_of_mem hi)
      rw [Heap.get_alloc_of_ne fun hq => hnot (hq ▸ hmem), h.elems i hi]
    · rw [List.mem_singleton.mp hi, Heap.get_alloc_self, Option.map_some]

theorem built_of_reach (hr : treeRun.Reach p) : ∃ t text, Built p t text := by
  refine Sys.Reach.invariant (I := fun p => ∃ t text, Built p t text) ?_ ?_ hr
  · rintro _ rfl
    exact ⟨.nil, fun _ => (0, ⟨[], List.not_mem_nil⟩), built_initial _⟩
  · rintro p call p' - ⟨t, text, h⟩ hrun
    cases call with
    | add junk num value => exact ⟨t, text, h.add hrun⟩
    | insert n =>
      obtain ⟨x, hx, hrun⟩ := Option.bind_eq_some_iff.mp hrun
      obtain ⟨s', t', text', q, hins, hbuilt, -⟩ := h.insert hx
      rw [hins, Option.bind_eq_bind, Option.bind_some, Option.some.injEq] at hrun
      exact ⟨t', text', hrun ▸ hbuilt⟩

/-- **A search tree whose contents stay.** -/
structure Stable (p : Program) (t : BinaryTree ℕ) (text : ℕ → BitVec 32 × Str) : Prop where
  searches : Searches p.store t text
  /-- One node for each insertion. -/
  nodes : (inorder t).Perm (p.inserted.map Prod.fst)
  elems : ∀ i ∈ p.inserted, (p.store.treeNodes.get i.1).map TreeNode.elem = some i.2
  /-- The node that is returned is new, and the others stay where they are. -/
  insert : ∀ n x, p.store.listNodes.get n = some x → ∃ s' t' text' q,
    tree_insert_node x.elem p.store = some (s', q) ∧ Searches s' t' text' ∧
    (inorder t').Perm (q :: inorder t) ∧ q ∉ inorder t ∧
    (s'.treeNodes.get q).map TreeNode.elem = some x.elem ∧
    ∀ path a, valueAt path t = some a → valueAt path t' = some a
  print : (∀ e, p.store.number e < 2 ^ 32) → ∃ s' out, p.store.deleteList calls = some s' ∧
    p.store.print line = some out ∧ s'.print line = some out

/-- **The tree of assignment 5** after any sequence of insertions. -/
theorem tree_searches (hr : treeRun.Reach p) : ∃ t text, Stable p t text := by
  obtain ⟨t, text, h⟩ := built_of_reach hr
  obtain ⟨root, htree, -⟩ := h.searches.is
  refine ⟨t, text, h.searches, h.nodes, h.elems, fun n x hx => ?_,
    print_deleteList h.counted h.list (by rw [htree]; nofun)⟩
  obtain ⟨s', t', text', q, hins, hbuilt, hnew, hstay, -⟩ := h.insert hx
  refine ⟨s', t', text', q, hins, hbuilt.searches, ?_, hnew,
    hbuilt.elems (q, x.elem) (List.mem_append_right _ (List.mem_singleton.mpr rfl)), hstay⟩
  calc inorder t'
      _ |>.Perm ((p.inserted ++ [(q, x.elem)]).map Prod.fst) := hbuilt.nodes
      _ = p.inserted.map Prod.fst ++ [q] := by rw [List.map_append, List.map_cons, List.map_nil]
      _ |>.Perm (q :: p.inserted.map Prod.fst) := List.perm_append_singleton _ _
      _ |>.Perm (q :: inorder t) := h.nodes.symm.cons q

theorem reach_single : treeRun.Reach ⟨single, []⟩ :=
  .step (l := .add ⟨0, 0, 0⟩ 1 ⟨[], List.not_mem_nil⟩) (.init rfl) rfl

theorem tree_searches_shared : ∃ t text, Stable ⟨shared, [(0, 0)]⟩ t text :=
  tree_searches (.step (l := .insert 0) reach_single rfl)

/-! ### Counters that overflow -/

theorem Held.wrap {s : Store} {c c' : ℕ → ℕ} (h : Held s c) (hzero : ∀ e, c' e = 0 ↔ c e = 0)
    (hmod : ∀ e, BitVec.ofNat 32 (c' e) = BitVec.ofNat 32 (c e)) : Held s c' where
  size := h.size
  live e he := by
    rw [Nat.pos_iff_ne_zero, ne_eq, hzero, ← ne_eq, ← Nat.pos_iff_ne_zero] at he
    obtain ⟨x, v, hx, hv, hhas⟩ := h.live e he
    exact ⟨x, v, hx, hv, by rw [hmod, hhas.ref_count], by rw [hmod, hhas.refcount], hhas.value⟩
  gone e he := h.gone e ((hzero e).mp he)
  freed e := by simpa only [hzero] using h.freed e

theorem inserted_often (k : ℕ) : ∃ p t text, treeRun.Reach p ∧ Built p t text ∧
    p.store.listNodes = single.listNodes ∧ (∀ i ∈ p.inserted, i.2 = 0) ∧
    p.store.number 0 = k + 1 := by
  induction k with
  | zero =>
    obtain ⟨t, text, h⟩ := built_of_reach reach_single
    exact ⟨_, t, text, reach_single, h, rfl, nofun, rfl⟩
  | succ k ih =>
    obtain ⟨p, t, text, hr, h, hnodes, hall, hnumber⟩ := ih
    have hx : p.store.listNodes.get 0 = some ⟨0, none, none⟩ := by rw [hnodes]; rfl
    obtain ⟨s', t', text', q, hins, hbuilt, -, -, hnodes', hnumber'⟩ := h.insert hx
    have hrun : (Call.insert 0).run p = some ⟨s', p.inserted ++ [(q, 0)]⟩ := by
      rw [Call.run, hx, Option.bind_eq_bind, Option.bind_some, hins]
      rfl
    refine ⟨_, t', text', hr.step hrun, hbuilt, hnodes'.trans hnodes, fun i hi => ?_, ?_⟩
    · rcases List.mem_append.mp hi with hi | hi
      · exact hall i hi
      · rw [List.mem_singleton.mp hi]
    · rw [hnumber', hnumber, if_pos rfl]

/-- Where the tree holds no other element than the list does, `list_delete` may free it. -/
theorem deleteList_frees {p : ListHeader} (h : Held s.elems fun e => listNumber s.listNodes e)
    (hp : s.list = some p) {ps : List ℕ} (hlist : IsList s.listNodes p ps)
    (hlt : ∀ e, listNumber s.listNodes e < 2 ^ 32) :
    ∃ s', s.deleteList calls = some s' ∧ s'.tree = s.tree ∧ s'.treeNodes = s.treeNodes ∧
      ∀ e, line e s'.elems = none := by
  obtain ⟨elems, nodes, hdel, hheld, -⟩ := list_delete_spec (b := fun _ => 0)
    (m := ⟨s.elems, s.listNodes, p⟩) counts_held hlist (by simpa only [Nat.zero_add] using h)
    (by simpa only [Nat.zero_add] using hlt)
  refine ⟨{ s with elems, listNodes := nodes, list := none }, ?_, rfl, rfl, fun e => ?_⟩
  · simp only [Containers.deleteList, hp, hdel, Option.bind_eq_bind, Option.bind_some]
  · rw [line, element_get_num, (hheld.gone e rfl).1]
    rfl

theorem print_eq_none (h : TreeIs s t) (hne : t ≠ .nil) (hline : ∀ e, line e s.elems = none) :
    s.print line = none := by
  obtain ⟨root, hroot, hstands, -⟩ := h
  cases t with
  | nil => exact absurd rfl hne
  | node a l r =>
    obtain ⟨rfl, x, hx, -⟩ := hstands
    obtain ⟨k, hk⟩ := Nat.exists_eq_succ_of_ne_zero (Nat.ne_zero_of_lt (Heap.lt_size hx))
    rw [Containers.print, hroot, Option.bind_eq_bind, Option.bind_some, tree_ordered_print, hk,
      tree_ordered_print_helper, hx, Option.bind_eq_bind, Option.bind_some, hline]
    rfl

/-- **After `2 ^ 32` insertions** of one element, `list_delete` frees it, and the tree cannot be
printed any more. -/
theorem print_differs : ¬∀ p, treeRun.Reach p → ∃ s' out, p.store.deleteList calls = some s' ∧
    p.store.print line = some out ∧ s'.print line = some out := by
  intro hall
  obtain ⟨p, t, text, hr, h, hnodes, hzero, hnumber⟩ := inserted_often (2 ^ 32)
  obtain ⟨s', out, hdel, -, hprint⟩ := hall p hr
  have hlist : ∀ e, listNumber p.store.listNodes e = if e = 0 then 1 else 0 := fun e => by
    rw [hnodes]
    cases e <;> rfl
  have hother : ∀ e, e ≠ 0 → p.store.number e = 0 := by
    intro e he
    rw [number, hlist, if_neg he, Nat.zero_add]
    refine Heap.number_eq_zero fun q x hq => decide_eq_false ?_
    obtain ⟨i, hi, hiq⟩ := List.mem_map.mp (h.nodes.mem_iff.mp (h.searches.is.mem hq))
    have helem := h.elems i hi
    rw [hiq, hq, Option.map_some, Option.some.injEq, hzero i hi] at helem
    exact fun hxe => he (hxe ▸ helem)
  -- the counters are those of an element that only the list holds
  have hheld : Held p.store.elems fun e => listNumber p.store.listNodes e := by
    refine h.counted.held.wrap (fun e => ?_) fun e => ?_
    · by_cases he : e = 0
      · rw [he, hlist, hnumber]
        decide
      · rw [hlist, hother e he, if_neg he]
    · by_cases he : e = 0
      · rw [he, hlist, hnumber]
        decide
      · rw [hlist, hother e he, if_neg he]
  obtain ⟨l, hl⟩ := Option.ne_none_iff_exists'.mp h.list
  obtain ⟨ps, hps⟩ := h.counted.list l hl
  obtain ⟨s₁, hdel₁, htree, htreeNodes, hline⟩ := deleteList_frees hheld hl hps fun e => by
    rw [hlist]
    split <;> decide
  obtain rfl := Option.some.inj (hdel₁.symm.trans hdel)
  have hne : t ≠ .nil := by
    rintro rfl
    have hzero' : treeNumber p.store.treeNodes 0 = 0 := Heap.number_eq_zero fun q x hq =>
      absurd (h.searches.is.mem hq) List.not_mem_nil
    rw [number, hlist, hzero'] at hnumber
    exact absurd hnumber (by decide)
  have his : TreeIs s₁ t := by
    rw [TreeIs, htree, htreeNodes]
    exact h.searches.is
  rw [print_eq_none his hne hline] at hprint
  cases hprint

end IntroSystems.Elements.A5
