import IntroSystems.Elements.List
import IntroSystems.Lib.Transition
import Mathlib.Data.List.Induction

/-!
# The list stays well linked

`list.c` of assignments 5 and 7. What it calls on elements is a parameter: in assignment 5 a list
calls nothing on an element that is added (`keep`), in assignment 7 `rc_keep_ref`.

* `listRun`: a new list, and calls of `list_add_element` and `list_delete_element`, beside the list
  that they are about.
* `Along`: the nodes along `next` or along `prev`.
* `list_delete_eq`: `list_delete` calls `free_ref` on the elements in turn, and frees every node.
* **`well_linked`**: in every run.
-/

set_option autoImplicit false

namespace IntroSystems.Elements

variable {E : Type}

/-- The link `f` leads from `p` through the nodes `ps` to `NULL`. -/
def Along (nodes : Heap ListNode) (f : ListNode → Option ℕ) : Option ℕ → List ℕ → Prop
  | p, [] => p = none
  | p, n :: ps => p = some n ∧ ∃ x, nodes.get n = some x ∧ Along nodes f (f x) ps

/-! ## Runs -/

/-- A call. The element `e` is added, or the node `n` is taken out. -/
inductive ListCall
  | add (e : ℕ)
  | deleteElement (n : ℕ)

/-- The memory, and the list: its nodes with their elements. -/
structure ListState (E : Type) where
  mem : ListMem E
  items : List (ℕ × ℕ)

inductive ListStep (calls : Calls E) (keep : ℕ → E → Option E) :
    ListState E → ListCall → ListState E → Prop
  | add {s : ListState E} {m : ListMem E} {e n : ℕ} : list_add_element keep e s.mem = some (m, n) →
      ListStep calls keep s (.add e) ⟨m, s.items ++ [(n, e)]⟩
  | deleteElement {s : ListState E} {m : ListMem E} {n : ℕ} : n ∈ s.items.map Prod.fst →
      list_delete_element calls n s.mem = some m →
      ListStep calls keep s (.deleteElement n) ⟨m, s.items.filter fun x => x.1 != n⟩

/-- A new list, and the calls on it. -/
def listRun (calls : Calls E) (keep : ℕ → E → Option E) (elems : E) : Sys (ListState E) ListCall where
  init s := s = ⟨⟨elems, .empty, ⟨none, none⟩⟩, []⟩
  step := ListStep calls keep

/-- The calls on the elements of a list that is deleted. -/
def freeAll (calls : Calls E) (es : List ℕ) (elems : E) : Option E :=
  es.foldlM (fun elems e => calls.free_ref e elems) elems

/-! ## Chains -/

variable {nodes nodes' : Heap ListNode} {list : ListHeader} {ps : List ℕ} {prev next : Option ℕ}
  {n : ℕ}

theorem Chain.along_next (h : Chain nodes prev ps none) : Along nodes ListNode.next ps.head? ps := by
  induction ps generalizing prev with
  | nil => rfl
  | cons p ps ih =>
    obtain ⟨⟨e, he⟩, hps⟩ := h
    refine ⟨rfl, _, he, ?_⟩
    rw [Option.or_none]
    exact ih hps

theorem Chain.along_prev (h : Chain nodes none ps next) :
    Along nodes ListNode.prev ps.getLast? ps.reverse := by
  induction ps using List.reverseRecOn generalizing next with
  | nil => rfl
  | append_singleton ps p ih =>
    obtain ⟨hps, ⟨e, he⟩, -⟩ := chain_append.mp h
    rw [List.reverse_append, List.getLast?_concat]
    refine ⟨rfl, _, he, ?_⟩
    rw [Option.or_none]
    exact ih hps

/-! ## Deletion -/

/-- The nodes hold their elements. -/
def Carries (nodes : Heap ListNode) (items : List (ℕ × ℕ)) : Prop :=
  ∀ x ∈ items, (nodes.get x.1).map ListNode.elem = some x.2

variable {items : List (ℕ × ℕ)}

theorem Carries.get {x : ℕ × ℕ} (h : Carries nodes items) (hx : x ∈ items) :
    ∃ y, nodes.get x.1 = some y ∧ y.elem = x.2 :=
  Option.map_eq_some_iff.mp (h x hx)

/-- The loop of `list_delete`, whatever it calls. -/
theorem list_delete_loop_eq (fuel : ℕ) (h : IsList nodes list (items.map Prod.fst))
    (hc : Carries nodes items) (hfuel : items.length ≤ fuel) :
    ∃ nodes' list', (∀ (calls : Calls E) elems,
        list_delete_loop calls fuel list.head ⟨elems, nodes, list⟩ =
          (freeAll calls (items.map Prod.snd) elems).map fun elems => ⟨elems, nodes', list'⟩) ∧
      IsList nodes' list' [] ∧ nodes'.size = nodes.size := by
  induction items generalizing nodes list fuel with
  | nil =>
    have hhead : list.head = none := h.head
    refine ⟨nodes, list, fun calls elems => ?_, h, rfl⟩
    rw [hhead, list_delete_loop]
    rfl
  | cons y items ih =>
    obtain ⟨n, e⟩ := y
    obtain ⟨fuel, rfl⟩ : ∃ k, fuel = k + 1 := ⟨fuel - 1, (Nat.succ_pred (by
      rintro rfl
      exact absurd hfuel (Nat.not_succ_le_zero _))).symm⟩
    obtain ⟨x, hx, rfl⟩ := hc.get List.mem_cons_self
    have hhead : list.head = some n := h.head
    have hnext : x.next = (items.map Prod.fst).head? := by
      obtain ⟨⟨e', he'⟩, -⟩ := h.chain
      obtain rfl := Option.some.inj (hx.symm.trans he')
      rw [Option.or_none]
    obtain ⟨nodes₁, list₁, hdel, hlist, hsize, -, helem⟩ :=
      list_delete_element_eq (E := E) h List.mem_cons_self hx
    rw [List.map_cons, List.erase_cons_head] at hlist
    have hnot : ∀ y ∈ items, y.1 ≠ n := fun y hy hyn =>
      (List.nodup_cons.mp h.nodup).1 (List.mem_map.mpr ⟨y, hy, hyn⟩)
    have hc₁ : Carries nodes₁ items := fun y hy => by
      rw [helem y.1 (hnot y hy)]
      exact hc y (List.mem_cons_of_mem _ hy)
    obtain ⟨nodes', list', hloop, hempty, hsize'⟩ :=
      ih fuel hlist hc₁ (Nat.le_of_succ_le_succ hfuel)
    refine ⟨nodes', list', fun calls elems => ?_, hempty, hsize'.trans hsize⟩
    simp only [hhead, list_delete_loop, hx, Option.bind_eq_bind, Option.bind_some, hdel, hnext,
      ← hlist.head, List.map_cons, freeAll, List.foldlM_cons]
    cases calls.free_ref x.elem elems with
    | none => rfl
    | some elems => exact hloop calls elems

/-- **`list_delete`** calls `free_ref` on the elements in turn, and leaves no node. -/
theorem list_delete_eq (h : IsList nodes list (items.map Prod.fst)) (hc : Carries nodes items) :
    ∃ nodes' : Heap ListNode, (∀ (calls : Calls E) elems,
        list_delete calls ⟨elems, nodes, list⟩ =
          (freeAll calls (items.map Prod.snd) elems).map fun elems => (elems, nodes')) ∧
      (∀ p, nodes'.get p = none) ∧ nodes'.size = nodes.size := by
  have hlen := h.length_le
  rw [List.length_map] at hlen
  obtain ⟨nodes', list', hloop, hempty, hsize⟩ :=
    list_delete_loop_eq (E := E) nodes.size h hc hlen
  refine ⟨nodes', fun calls elems => ?_, fun p => ?_, hsize⟩
  · rw [list_delete, hloop]
    cases freeAll calls (items.map Prod.snd) elems <;> rfl
  · cases hp : nodes'.get p with
    | none => rfl
    | some x => exact absurd (hempty.live p x hp) List.not_mem_nil

/-! ## Every run -/

/-- The nodes in memory are those of the list. -/
structure ListInv (s : ListState E) : Prop where
  list : IsList s.mem.nodes s.mem.list (s.items.map Prod.fst)
  carries : Carries s.mem.nodes s.items

variable {calls : Calls E} {keep : ℕ → E → Option E} {elems : E} {s s' : ListState E} {l : ListCall}

theorem ListInv.add (hi : ListInv s) {m : ListMem E} {e : ℕ}
    (h : list_add_element keep e s.mem = some (m, n)) :
    ListInv ⟨m, s.items ++ [(n, e)]⟩ := by
  obtain ⟨nodes', list', heq, hlist, -, helem⟩ := list_add_element_eq (E := E) hi.list e
  obtain ⟨elems', -, hres⟩ := Option.map_eq_some_iff.mp ((heq keep s.mem.elems).symm.trans h)
  cases hres
  refine ⟨by simpa using hlist, fun x hx => ?_⟩
  rw [helem]
  rcases List.mem_append.mp hx with hx | hx
  · obtain ⟨y, hy, hye⟩ := hi.carries.get hx
    rw [Heap.get_alloc_of_get hy, Option.map_some, hye]
  · rw [List.mem_singleton.mp hx, Heap.get_alloc_self]
    rfl

theorem ListInv.deleteElement (hi : ListInv s) {m : ListMem E} (hn : n ∈ s.items.map Prod.fst)
    (h : list_delete_element calls n s.mem = some m) :
    ListInv ⟨m, s.items.filter fun x => x.1 != n⟩ := by
  obtain ⟨x, hx⟩ := hi.list.chain.get hn
  obtain ⟨nodes', list', heq, hlist, -, -, helem⟩ := list_delete_element_eq (E := E) hi.list hn hx
  obtain ⟨elems', -, rfl⟩ := Option.map_eq_some_iff.mp ((heq calls s.mem.elems).symm.trans h)
  have hmap : (s.items.filter fun x => x.1 != n).map Prod.fst = (s.items.map Prod.fst).erase n := by
    rw [hi.list.nodup.erase_eq_filter, List.filter_map]
    rfl
  refine ⟨by rw [hmap]; exact hlist, fun y hy => ?_⟩
  obtain ⟨hmem, hne⟩ := List.mem_filter.mp hy
  rw [helem y.1 (by simpa using hne)]
  exact hi.carries y hmem

theorem reach_listInv (h : (listRun calls keep elems).Reach s) : ListInv s := by
  refine h.invariant (I := ListInv) ?_ fun s l s' _ hi hst => ?_
  · rintro s rfl
    exact ⟨⟨trivial, rfl, rfl, .nil, fun p x hp => absurd hp nofun⟩, fun x hx => absurd hx nofun⟩
  · cases hst with
    | add h => exact hi.add h
    | deleteElement hn h => exact hi.deleteElement hn h

/-- **A well linked list**: `next` leads from `head` along the list and `prev` back from `tail`; the
functions of `list.c` are undefined only where a call on an element is, and `list_delete` frees every
node. -/
structure WellLinked (calls : Calls E) (keep : ℕ → E → Option E) (s : ListState E) : Prop where
  next : Along s.mem.nodes ListNode.next s.mem.list.head (s.items.map Prod.fst)
  prev : Along s.mem.nodes ListNode.prev s.mem.list.tail (s.items.map Prod.fst).reverse
  carries : Carries s.mem.nodes s.items
  live : ∀ n, n ∈ s.items.map Prod.fst ↔ ∃ x, s.mem.nodes.get n = some x
  empty : (s.mem.list.head = none ↔ s.items = []) ∧ (s.mem.list.tail = none ↔ s.items = [])
  add : ∀ e, list_add_element keep e s.mem = none → keep e s.mem.elems = none
  deleteElement : ∀ x ∈ s.items,
    list_delete_element calls x.1 s.mem = none → calls.free_ref x.2 s.mem.elems = none
  delete : ∃ nodes, (∀ n, nodes.get n = none) ∧ nodes.size = s.mem.nodes.size ∧
    list_delete calls s.mem =
      (freeAll calls (s.items.map Prod.snd) s.mem.elems).map fun elems => (elems, nodes)

/-- **In every run** the list is well linked. -/
theorem well_linked (h : (listRun calls keep elems).Reach s) : WellLinked calls keep s := by
  obtain ⟨hlist, hc⟩ := reach_listInv h
  refine ⟨?_, ?_, hc, fun n => ⟨hlist.chain.get, fun ⟨x, hx⟩ => hlist.live n x hx⟩, ⟨?_, ?_⟩,
    fun e hnone => ?_, fun x hx hnone => ?_, ?_⟩
  · rw [hlist.head]
    exact hlist.chain.along_next
  · rw [hlist.tail]
    exact hlist.chain.along_prev
  · rw [hlist.head, List.head?_eq_none_iff, List.map_eq_nil_iff]
  · rw [hlist.tail, List.getLast?_eq_none_iff, List.map_eq_nil_iff]
  · obtain ⟨nodes', list', heq, -⟩ := list_add_element_eq (E := E) hlist e
    exact Option.map_eq_none_iff.mp ((heq keep s.mem.elems).symm.trans hnone)
  · obtain ⟨y, hy, hye⟩ := hc.get hx
    obtain ⟨nodes', list', heq, -⟩ :=
      list_delete_element_eq (E := E) hlist (List.mem_map_of_mem hx) hy
    rw [← hye]
    exact Option.map_eq_none_iff.mp ((heq calls s.mem.elems).symm.trans hnone)
  · obtain ⟨nodes', hdel, hnone, hsize⟩ := list_delete_eq (E := E) hlist hc
    exact ⟨nodes', hnone, hsize, hdel calls s.mem.elems⟩

/-- Elements on which every call succeeds. -/
def idle : Calls Unit where
  keep_ref _ s := some s
  free_ref _ s := some s
  compare _ _ _ := some 0

/-- Three elements are added, and the second node is taken out. -/
def twoOfThree : ListState Unit where
  mem := ⟨(), ⟨[some ⟨7, none, some 2⟩, none, some ⟨9, some 0, none⟩]⟩, ⟨some 0, some 2⟩⟩
  items := [(0, 7), (2, 9)]

theorem well_linked_two : WellLinked idle idle.keep_ref twoOfThree := by
  have h₀ : (listRun idle idle.keep_ref ()).Reach ⟨⟨(), .empty, ⟨none, none⟩⟩, []⟩ := .init rfl
  have h₁ := h₀.step (.add (e := 7) rfl)
  have h₂ := h₁.step (.add (e := 8) rfl)
  have h₃ := h₂.step (.add (e := 9) rfl)
  exact well_linked (h₃.step (.deleteElement (n := 1) (m := twoOfThree.mem) (by decide) rfl))

end IntroSystems.Elements
