import IntroSystems.BinaryTreeCode.Model

/-!
# Down from the root and up from a node

* **`insert_spec`**: insertion keeps the pointers to children and those to parents.
* **`printInOrder_spec`**, **`printPath_spec`**: what is printed of a tree.
* **`print_agrees`**: for any integers, the values are printed in order, and the path of a node is
  the search for it.
-/

set_option autoImplicit false

namespace IntroSystems.BinaryTreeCode

open SearchTree

/-- The node `q` is on the left of `a`. -/
def goesLeft (value : ℕ → ℤ) (q a : ℕ) : Bool := value q ≤ value a

/-- The node `q` has the value `value q`. -/
def Valued (value : ℕ → ℤ) (nodes : Heap Node) : Prop :=
  ∀ q x, nodes.get q = some x → x.value = value q

variable {nodes nodes' : Heap Node} {parent p : Option ℕ} {a n q : ℕ} {t l r : BinaryTree ℕ}
  {x y : Node} {value : ℕ → ℤ}

/-! ### Insertion -/

theorem Valued.congr (h : Valued value nodes)
    (hmap : ∀ q, (nodes'.get q).map Node.value = (nodes.get q).map Node.value) :
    Valued value nodes' := by
  intro q x hx
  have hq := hmap q
  rw [hx, Option.map_some, eq_comm, Option.map_eq_some_iff] at hq
  obtain ⟨y, hy, hyx⟩ := hq
  rw [← hyx, h q y hy]

theorem map_value_put (hx : nodes.get a = some x) (hy : y.value = x.value) (q : ℕ) :
    ((nodes.put a (some y)).get q).map Node.value = (nodes.get q).map Node.value := by
  by_cases hq : q = a
  · rw [hq, Heap.get_put_self hx, hx, Option.map_some, Option.map_some, hy]
  · rw [Heap.get_put_of_ne hq]

/-- What `insert` does at the end of its way: `y'` has `n` as a child. -/
theorem attach_spec (y' : Node) (ha : nodes.get a = some y) (hn : nodes.get n = some x)
    (hne : a ≠ n) (hy : y'.value = y.value) :
    ∃ nodes', ((nodes.set a y').bind fun nodes => setParent n a nodes) = some nodes' ∧
      nodes'.get a = some y' ∧ nodes'.get n = some { x with parent := some a } ∧
      (∀ q, q ≠ a → q ≠ n → nodes'.get q = nodes.get q) ∧ nodes'.size = nodes.size ∧
      ∀ q, (nodes'.get q).map Node.value = (nodes.get q).map Node.value := by
  have hn' : (nodes.put a (some y')).get n = some x := by rw [Heap.get_put_of_ne hne.symm, hn]
  refine ⟨(nodes.put a (some y')).put n (some { x with parent := some a }), ?_, ?_,
    Heap.get_put_self hn', fun q hqa hqn => ?_, ?_, fun q => ?_⟩
  · rw [Heap.set_eq ha, Option.bind_some, setParent, hn', Option.bind_eq_bind, Option.bind_some,
      Heap.set_eq hn']
  · rw [Heap.get_put_of_ne hne, Heap.get_put_self ha]
  · rw [Heap.get_put_of_ne hqn, Heap.get_put_of_ne hqa]
  · rw [Heap.size_put, Heap.size_put]
  · exact (map_value_put (y := { x with parent := some a }) hn' rfl q).trans (map_value_put ha hy q)

theorem insert_eq (fuel : ℕ) (hvalue : Valued value nodes) (hn : nodes.get n = some x)
    (ha : nodes.get a = some y) : insert n (fuel + 1) a nodes =
      if goesLeft value n a then
        y.left.elim ((nodes.set a { y with left := some n }).bind fun nodes => setParent n a nodes)
          fun b => insert n fuel b nodes
      else
        y.right.elim ((nodes.set a { y with right := some n }).bind fun nodes => setParent n a nodes)
          fun b => insert n fuel b nodes := by
  simp only [insert, hn, ha, goesLeft, ← hvalue n x hn, ← hvalue a y ha, decide_eq_true_eq,
    Option.bind_eq_bind, Option.bind_some]
  split
  · cases y.left <;> rfl
  · cases y.right <;> rfl

theorem Stands.nil_of_none (ht : Stands nodes parent none t) : t = .nil := by
  cases t with
  | nil => rfl
  | node b l r => cases ht.1

/-- **`insert`** puts a new node at the end of the way down. -/
theorem insert_spec (fuel : ℕ) (ht : Stands nodes parent (some a) t) (hnd : (inorder t).Nodup)
    (hfuel : t.height ≤ fuel) (hvalue : Valued value nodes) {v : ℤ}
    (hn : nodes.get n = some ⟨v, none, none, none⟩) (hnot : n ∉ inorder t) :
    ∃ nodes', insert n fuel a nodes = some nodes' ∧
      Stands nodes' parent (some a) (SearchTree.insert (goesLeft value) n t) ∧
      (∀ q ∉ inorder t, q ≠ n → nodes'.get q = nodes.get q) ∧ nodes'.size = nodes.size ∧
      ∀ q, (nodes'.get q).map Node.value = (nodes.get q).map Node.value := by
  induction t generalizing fuel parent a with
  | nil => cases ht
  | node b l r ihl ihr =>
    obtain ⟨hab, y, hy, hparent, hl, hr⟩ := ht
    obtain rfl := Option.some.inj hab
    obtain ⟨hndl, hndr, hal, har, hlr⟩ := nodup_node hnd
    simp only [inorder, List.mem_append, List.mem_cons, not_or] at hnot ⊢
    obtain ⟨hnl, hna, hnr⟩ := hnot
    rw [BinaryTree.height] at hfuel
    obtain ⟨fuel, rfl⟩ : ∃ k, fuel = k + 1 := ⟨fuel - 1, by omega⟩
    have hne : a ≠ n := Ne.symm hna
    rw [insert_eq fuel hvalue hn hy]
    by_cases hside : goesLeft value n a = true
    · rw [SearchTree.insert, if_pos hside, if_pos hside]
      cases hleft : y.left with
      | none =>
        rw [hleft] at hl
        obtain rfl := hl.nil_of_none
        obtain ⟨nodes', hrun, ha', hn', hsame, hsize, hmap⟩ :=
          attach_spec { y with left := some n } hy hn hne rfl
        refine ⟨nodes', hrun, ⟨rfl, _, ha', hparent, ⟨rfl, _, hn', rfl, rfl, rfl⟩,
          hr.congr fun q hq => hsame q ?_ ?_⟩, fun q hq hqn => hsame q hq.2.1 hqn, hsize, hmap⟩
        · exact fun hqa => har (hqa ▸ hq)
        · exact fun hqn => hnr (hqn ▸ hq)
      | some b =>
        rw [hleft] at hl
        obtain ⟨nodes', hrun, hl', hsame, hsize, hmap⟩ := ihl fuel hl hndl (by omega) hnl
        refine ⟨nodes', hrun, ⟨rfl, y, (hsame a hal hne).trans hy, hparent, hleft ▸ hl',
          hr.congr fun q hq => hsame q ?_ ?_⟩, fun q hq hqn => hsame q hq.1 hqn, hsize, hmap⟩
        · exact fun hql => hlr q hql hq
        · exact fun hqn => hnr (hqn ▸ hq)
    · rw [SearchTree.insert, if_neg hside, if_neg hside]
      cases hright : y.right with
      | none =>
        rw [hright] at hr
        obtain rfl := hr.nil_of_none
        obtain ⟨nodes', hrun, ha', hn', hsame, hsize, hmap⟩ :=
          attach_spec { y with right := some n } hy hn hne rfl
        refine ⟨nodes', hrun, ⟨rfl, _, ha', hparent, hl.congr fun q hq => hsame q ?_ ?_,
          ⟨rfl, _, hn', rfl, rfl, rfl⟩⟩, fun q hq hqn => hsame q hq.2.1 hqn, hsize, hmap⟩
        · exact fun hqa => hal (hqa ▸ hq)
        · exact fun hqn => hnl (hqn ▸ hq)
      | some b =>
        rw [hright] at hr
        obtain ⟨nodes', hrun, hr', hsame, hsize, hmap⟩ := ihr fuel hr hndr (by omega) hnr
        refine ⟨nodes', hrun, ⟨rfl, y, (hsame a har hne).trans hy, hparent,
          hl.congr fun q hq => hsame q ?_ ?_, hright ▸ hr'⟩,
          fun q hq hqn => hsame q hq.2.2 hqn, hsize, hmap⟩
        · exact fun hqr => hlr q hq hqr
        · exact fun hqn => hnl (hqn ▸ hq)

/-! ### Printing -/

/-- **`printInOrder`** prints the values of the left subtree, of the node and of the right one. -/
theorem printInOrder_spec (fuel : ℕ) (ht : Stands nodes parent p t) (hfuel : t.height ≤ fuel)
    (hvalue : Valued value nodes) :
    unlessNull (printInOrder nodes fuel) p = some ((inorder t).map value) := by
  induction t generalizing fuel parent p with
  | nil =>
    obtain rfl : p = none := ht
    rfl
  | node a l r ihl ihr =>
    obtain ⟨rfl, y, hy, -, hl, hr⟩ := ht
    rw [BinaryTree.height] at hfuel
    obtain ⟨fuel, rfl⟩ : ∃ k, fuel = k + 1 := ⟨fuel - 1, by omega⟩
    rw [unlessNull, printInOrder, hy]
    simp only [ihl fuel hl (by omega), ihr fuel hr (by omega), Option.bind_eq_bind,
      Option.bind_some]
    rw [hvalue a y hy, inorder, List.map_append, List.map_cons]

theorem printPath_child {c depth : ℕ} {z : Node} {side : Label} {before : List (Label × ℤ)}
    (hvalue : Valued value nodes) (hy : nodes.get a = some y) (hz : nodes.get c = some z)
    (hparent : z.parent = some a)
    (hside : (if y.left = some c then Label.leftTo else .rightTo) = side)
    (hbefore : ∀ fuel, depth < fuel → printPath nodes fuel a = some before) (fuel : ℕ)
    (hfuel : depth + 1 < fuel) : printPath nodes fuel c = some (before ++ [(side, value c)]) := by
  obtain ⟨fuel, rfl⟩ : ∃ k, fuel = k + 1 := ⟨fuel - 1, by omega⟩
  simp only [printPath, hz, hparent, hy, hbefore fuel (by omega), hside, Option.bind_eq_bind,
    Option.bind_some, ← hvalue c z hz]

theorem Stands.left_ne {c : ℕ} {p₁ p₂ : Option ℕ} (hl : Stands nodes p₁ p l)
    (hr : Stands nodes p₂ (some c) r) (hlr : ∀ q ∈ inorder l, q ∉ inorder r) : p ≠ some c := by
  rintro rfl
  cases l with
  | nil => cases hl
  | node d l₁ l₂ =>
    cases r with
    | nil => cases hr
    | node e r₁ r₂ =>
      obtain rfl := Option.some.inj hl.1
      obtain rfl := Option.some.inj hr.1
      exact hlr c (by simp [inorder]) (by simp [inorder])

/-- **`printPath`** goes up the way that the search for the node comes down: `before` is what is
printed for the nodes above the tree, of which there are `depth`. -/
theorem printPath_spec (label : Label) (before : List (Label × ℤ)) (depth : ℕ)
    (ht : Stands nodes parent (some a) t) (hnd : (inorder t).Nodup)
    (hord : Ordered (goesLeft value) t) (hvalue : Valued value nodes)
    (hbefore : ∀ fuel, depth < fuel →
      printPath nodes fuel a = some (before ++ [(label, value a)])) {x : ℕ} (hx : x ∈ inorder t) :
    ∃ path, Search nodes x (value x) label a path ∧
      ∀ fuel, depth + t.height ≤ fuel → printPath nodes fuel x = some (before ++ path) := by
  induction t generalizing parent a label before depth with
  | nil => exact absurd hx List.not_mem_nil
  | node b l r ihl ihr =>
    obtain ⟨hab, y, hy, -, hl, hr⟩ := ht
    obtain rfl := Option.some.inj hab
    obtain ⟨hndl, hndr, hal, har, hlr⟩ := nodup_node hnd
    obtain ⟨hordl, hordr, hol, hor⟩ := hord
    have hav : value a = y.value := (hvalue a y hy).symm
    rw [hav] at hbefore
    simp only [inorder, List.mem_append, List.mem_cons] at hx
    rw [BinaryTree.height]
    rcases hx with hx | rfl | hx
    · cases l with
      | nil => exact absurd hx List.not_mem_nil
      | node c l₁ l₂ =>
        have hc : y.left = some c := hl.1
        rw [hc] at hl
        have hle : value x ≤ y.value := by simpa [goesLeft, hav] using hordl x hx
        obtain ⟨z, hz, hparent⟩ := hl.root
        obtain ⟨path, hsearch, hpath⟩ :=
          ihl .leftTo (before ++ [(label, y.value)]) (depth + 1) hl hndl hol
            (printPath_child hvalue hy hz hparent (if_pos hc) hbefore) hx
        refine ⟨(label, y.value) :: path, .left hy (fun h => hal (h ▸ hx)) hle hc hsearch,
          fun fuel hfuel => ?_⟩
        rw [hpath fuel (by omega), List.append_assoc, List.singleton_append]
    · refine ⟨[(label, y.value)], .found hy, fun fuel hfuel => hbefore fuel (by omega)⟩
    · cases r with
      | nil => exact absurd hx List.not_mem_nil
      | node c r₁ r₂ =>
        have hc : y.right = some c := hr.1
        rw [hc] at hr
        have hlt : y.value < value x := by simpa [goesLeft, hav] using hordr x hx
        obtain ⟨z, hz, hparent⟩ := hr.root
        obtain ⟨path, hsearch, hpath⟩ :=
          ihr .rightTo (before ++ [(label, y.value)]) (depth + 1) hr hndr hor
            (printPath_child hvalue hy hz hparent (if_neg (hl.left_ne hr hlr)) hbefore) hx
        refine ⟨(label, y.value) :: path, .right hy (fun h => har (h ▸ hx)) hlt hc hsearch,
          fun fuel hfuel => ?_⟩
        rw [hpath fuel (by omega), List.append_assoc, List.singleton_append]

/-! ### Every sequence of integers -/

/-- After `k` integers: the node `q` is for the integer `q`, and they have been inserted in turn. -/
structure Built (value : ℕ → ℤ) (k : ℕ) (s : Locals) : Prop where
  size : s.nodes.size = k
  root : s.root = some 0
  last : s.lastNodeInserted = some (k - 1)
  valued : Valued value s.nodes
  stands : Stands s.nodes none (some 0) (ofList (goesLeft value) (List.range k))

theorem nodup_range {k : ℕ} : (inorder (ofList (goesLeft value) (List.range k))).Nodup :=
  (inorder_ofList_perm _ _).nodup_iff.mpr List.nodup_range

theorem mem_inorder_range {k : ℕ} :
    q ∈ inorder (ofList (goesLeft value) (List.range k)) ↔ q < k := by
  rw [mem_inorder_ofList, List.mem_range]

theorem height_range_le (k : ℕ) : (ofList (goesLeft value) (List.range k)).height ≤ k :=
  calc (ofList (goesLeft value) (List.range k)).height
      _ ≤ (inorder (ofList (goesLeft value) (List.range k))).length := height_le_length _
      _ = (List.range k).length := (inorder_ofList_perm _ _).length_eq
      _ = k := List.length_range

theorem ofList_range_succ (k : ℕ) : ofList (goesLeft value) (List.range (k + 1)) =
    SearchTree.insert (goesLeft value) k (ofList (goesLeft value) (List.range k)) := by
  rw [List.range_succ, ofList, insertAll, List.foldl_append]
  rfl

theorem valued_create (h : Valued value nodes) {v : ℤ} (hv : value nodes.size = v) :
    Valued value (create v nodes).1 := by
  intro q x hx
  by_cases hq : q = nodes.size
  · rw [hq, create, Heap.get_alloc_self, Option.some.injEq] at hx
    rw [← hx, hq, hv]
  · rw [create, Heap.get_alloc_of_ne hq] at hx
    exact h q x hx

theorem populate_spec (values : List ℤ) {k : ℕ} {s : Locals} (hpos : 0 < k) (h : Built value k s)
    (hvalues : ∀ j v, values[j]? = some v → value (k + j) = v) :
    ∃ s', populate (k + 1) values s = some s' ∧ Built value (k + values.length) s' := by
  induction values generalizing k s with
  | nil => exact ⟨s, rfl, h⟩
  | cons v values ih =>
    have hsize : s.nodes.size = k := h.size
    have hv : value s.nodes.size = v := hsize ▸ hvalues 0 v rfl
    have hnot : s.nodes.size ∉ inorder (ofList (goesLeft value) (List.range k)) := by
      rw [mem_inorder_range, hsize]
      exact Nat.lt_irrefl k
    have hle : (ofList (goesLeft value) (List.range k)).height ≤ (create v s.nodes).1.size := by
      refine Nat.le_trans (height_range_le k) ?_
      rw [create, Heap.size_alloc, hsize]
      exact Nat.le_succ k
    have hvalued := valued_create h.valued hv
    obtain ⟨nodes', hins, hstands, -, hsize', hmap⟩ := insert_spec (n := s.nodes.size) _
      (h.stands.congr fun q hq => Heap.get_alloc_of_ne fun hqn => hnot (hqn ▸ hq)) nodup_range hle
      hvalued Heap.get_alloc_self hnot
    have hk : k + 1 ≠ 1 := by omega
    have hbuilt : Built value (k + 1) ⟨nodes', s.root, some s.nodes.size⟩ := by
      refine ⟨?_, h.root, by rw [hsize, Nat.add_sub_cancel], hvalued.congr hmap, ?_⟩
      · rw [hsize', Heap.size_alloc, hsize]
      · rw [ofList_range_succ]
        exact hsize ▸ hstands
    obtain ⟨s', hrun, hbuilt'⟩ := ih (Nat.succ_pos k) hbuilt fun j w hj => by
      rw [Nat.succ_add_eq_add_succ]
      exact hvalues (j + 1) w hj
    refine ⟨s', ?_, ?_⟩
    · rw [← hrun, populate]
      have hins' : insert s.nodes.size (s.nodes.alloc ⟨v, none, none, none⟩).size 0
          (s.nodes.alloc ⟨v, none, none, none⟩) = some nodes' := hins
      simp only [create, if_neg hk, h.root, Option.bind_eq_bind, Option.bind_some, hins']
    · rwa [List.length_cons, ← Nat.succ_add_eq_add_succ]

/-- **Any integers**, one at least. -/
theorem built_of_ne_nil {values : List ℤ} (hne : values ≠ []) :
    ∃ s value, populate 1 values ⟨.empty, none, none⟩ = some s ∧ Built value values.length s ∧
      ∀ q v, values[q]? = some v → value q = v := by
  obtain ⟨v, values, rfl⟩ := List.exists_cons_of_ne_nil hne
  have hvalue : ∀ q w, (v :: values)[q]? = some w → (v :: values).getD q 0 = w := fun q w hq => by
    rw [List.getD_eq_getElem?_getD, hq, Option.getD_some]
  have hbuilt : Built (fun q => (v :: values).getD q 0) 1
      ⟨(create v .empty).1, some 0, some 0⟩ := by
    have hempty : Valued (fun q => (v :: values).getD q 0) .empty := fun q x hx => absurd hx nofun
    exact ⟨rfl, rfl, rfl, valued_create hempty rfl, rfl, _, rfl, rfl, rfl, rfl⟩
  obtain ⟨s, hrun, hbuilt'⟩ := populate_spec values Nat.one_pos hbuilt fun j w hj => by
    rw [Nat.add_comm]
    exact hvalue (j + 1) w hj
  refine ⟨s, _, hrun, ?_, hvalue⟩
  rwa [List.length_cons, Nat.add_comm]

theorem map_range {values : List ℤ} (h : ∀ q v, values[q]? = some v → value q = v) :
    (List.range values.length).map value = values := by
  refine List.ext_getElem (by rw [List.length_map, List.length_range]) fun q _ hq => ?_
  rw [List.getElem_map, List.getElem_range]
  exact h q _ (List.getElem?_eq_getElem hq)

variable {k : ℕ} {s : Locals}

theorem Built.height_le (h : Built value k s) :
    (ofList (goesLeft value) (List.range k)).height ≤ s.nodes.size := by
  rw [h.size]
  exact height_range_le k

theorem Built.inOrder (h : Built value k s) :
    ∃ out, printInOrder s.nodes s.nodes.size 0 = some out ∧ out.Pairwise (· ≤ ·) ∧
      out.Perm ((List.range k).map value) := by
  have hord : Ordered (goesLeft value) (ofList (goesLeft value) (List.range k)) :=
    ordered_ofList _ _
  refine ⟨_, printInOrder_spec _ h.stands h.height_le h.valued, ?_,
    (inorder_ofList_perm _ _).map value⟩
  refine List.pairwise_map.mpr (hord.pairwise (fun x a hx => ?_) (fun x a hx => ?_) ?_)
  · exact of_decide_eq_true hx
  · exact Int.le_of_lt (Int.not_le.mp (of_decide_eq_false hx))
  · exact fun a b c => Int.le_trans

theorem Built.path (h : Built value k s) (hq : q < k) : ∃ path,
    printPath s.nodes s.nodes.size q = some path ∧
      Search s.nodes q (value q) .fromRoot 0 path := by
  obtain ⟨z, hz, hparent⟩ := h.stands.root
  have hbefore : ∀ fuel, 0 < fuel →
      printPath s.nodes fuel 0 = some ([] ++ [(.fromRoot, value 0)]) := by
    intro fuel hfuel
    obtain ⟨fuel, rfl⟩ := Nat.exists_eq_succ_of_ne_zero (Nat.ne_of_gt hfuel)
    simp only [printPath, hz, hparent, Option.bind_eq_bind, Option.bind_some, List.nil_append,
      ← h.valued 0 z hz]
  obtain ⟨path, hsearch, hpath⟩ := printPath_spec .fromRoot [] 0 h.stands nodup_range
    (ordered_ofList _ _) h.valued hbefore (mem_inorder_range.mpr hq)
  exact ⟨path, hpath _ ((Nat.zero_add _).symm ▸ h.height_le), hsearch⟩

/-- **Insertion, ordered printing and path printing agree**, for any integers. The node `x` has been
made for the integer `x`. -/
theorem print_agrees {values : List ℤ} (hne : values ≠ []) :
    ∃ s root, populate 1 values ⟨.empty, none, none⟩ = some s ∧ s.root = some root ∧
      (∃ out, printInOrder s.nodes s.nodes.size root = some out ∧ out.Pairwise (· ≤ ·) ∧
        out.Perm values) ∧
      ∀ x v, values[x]? = some v → ∃ y path, s.nodes.get x = some y ∧ y.value = v ∧
        printPath s.nodes s.nodes.size x = some path ∧ Search s.nodes x v .fromRoot root path := by
  obtain ⟨s, value, hrun, h, hvalue⟩ := built_of_ne_nil hne
  obtain ⟨out, hout, hsorted, hperm⟩ := h.inOrder
  refine ⟨s, 0, hrun, h.root, ⟨out, hout, hsorted, map_range hvalue ▸ hperm⟩, fun x v hx => ?_⟩
  have hlt : x < values.length := (List.getElem?_eq_some_iff.mp hx).1
  obtain ⟨y, hy⟩ := h.stands.get (mem_inorder_range.mpr hlt)
  obtain ⟨path, hpath, hsearch⟩ := h.path hlt
  rw [hvalue x v hx] at hsearch
  exact ⟨y, path, hy, (h.valued x y hy).trans (hvalue x v hx), hpath, hsearch⟩

/-- The integers `2`, `1` and `2`. -/
theorem print_agrees_three :
    ∃ s root, populate 1 [2, 1, 2] ⟨.empty, none, none⟩ = some s ∧ s.root = some root ∧
      (∃ out, printInOrder s.nodes s.nodes.size root = some out ∧ out.Pairwise (· ≤ ·) ∧
        out.Perm [2, 1, 2]) ∧
      ∀ (x : ℕ) (v : ℤ), [2, 1, 2][x]? = some v → ∃ y path, s.nodes.get x = some y ∧
        y.value = v ∧ printPath s.nodes s.nodes.size x = some path ∧
        Search s.nodes x v .fromRoot root path :=
  print_agrees (List.cons_ne_nil 2 [1, 2])

theorem Search.getLast? {x : ℕ} {v : ℤ} {label : Label} {path : List (Label × ℤ)}
    (h : Search nodes x v label a path) :
    ∃ y, nodes.get x = some y ∧ path.getLast?.map Prod.snd = some y.value := by
  induction h with
  | found hx => exact ⟨_, hx, rfl⟩
  | left _ _ _ _ _ ih | right _ _ _ _ _ ih =>
    obtain ⟨y, hy, hlast⟩ := ih
    obtain ⟨step, hstep, hvalue⟩ := Option.map_eq_some_iff.mp hlast
    refine ⟨y, hy, ?_⟩
    rw [List.getLast?_cons, hstep, Option.getD_some, Option.map_some, hvalue]

/-- **`main`** prints the values in order and the path of the last node. -/
theorem main_spec {values : List ℤ} (hne : values ≠ []) :
    ∃ (ordered : List ℤ) (path : List (Label × ℤ)),
      main values = some (.inOrder :: ordered.map .value ++ .pathTo (values.getLast hne) ::
        path.map fun step => .path step.1 step.2) ∧
      ordered.Pairwise (· ≤ ·) ∧ ordered.Perm values ∧
      path.getLast?.map Prod.snd = some (values.getLast hne) := by
  obtain ⟨s, value, hrun, h, hvalue⟩ := built_of_ne_nil hne
  obtain ⟨out, hout, hsorted, hperm⟩ := h.inOrder
  have hlt : values.length - 1 < values.length :=
    Nat.sub_lt (List.length_pos_iff.mpr hne) Nat.one_pos
  obtain ⟨path, hpath, hsearch⟩ := h.path hlt
  obtain ⟨y, hy, hlast⟩ := hsearch.getLast?
  have hvalue' : y.value = values.getLast hne := by
    rw [h.valued _ y hy]
    exact hvalue _ _ (by rw [← List.getLast?_eq_getElem?, List.getLast?_eq_getLast_of_ne_nil hne])
  refine ⟨out, path, ?_, hsorted, map_range hvalue ▸ hperm, hvalue' ▸ hlast⟩
  simp only [main, hrun, h.root, h.last, hout, hy, hpath, hvalue', Option.bind_eq_bind,
    Option.bind_some]

end IntroSystems.BinaryTreeCode
