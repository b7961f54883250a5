import IntroSystems.Elements.Calls
import IntroSystems.Lib.Heap
import Mathlib.Data.List.Perm.Subperm

/-!
# The doubly linked list

`list.c`, with pointers. `NULL` is `none`.

* `list_add_element`, `list_delete_element`, `list_delete`.
* `Chain`, `IsList`: the nodes that a list is made of.
* **`list_add_element_eq`**, **`list_delete_element_eq`**: what the functions do, whatever they call;
  **`list_add_spec`**, **`list_delete_element_spec`**, **`list_delete_spec`**: where they count
  references.
-/

set_option autoImplicit false

namespace IntroSystems.Elements

/-- `struct list_node`. -/
structure ListNode where
  elem : ℕ
  prev : Option ℕ
  next : Option ℕ
  deriving DecidableEq

/-- `struct list`. -/
structure ListHeader where
  head : Option ℕ
  tail : Option ℕ
  deriving DecidableEq

/-- The memory that the functions of `list.c` work on. -/
structure ListMem (E : Type) where
  elems : E
  nodes : Heap ListNode
  list : ListHeader

variable {E : Type}

/-! ### The code -/

/-- `p->next = v`. -/
def setNext (nodes : Heap ListNode) (p v : Option ℕ) : Option (Heap ListNode) := do
  let p ← p
  let x ← nodes.get p
  nodes.set p { x with next := v }

/-- `p->prev = v`. -/
def setPrev (nodes : Heap ListNode) (p v : Option ℕ) : Option (Heap ListNode) := do
  let p ← p
  let x ← nodes.get p
  nodes.set p { x with prev := v }

/-- The first `if` of `list_delete_element`: what is left of `n` gets a new next one. -/
def unlinkNext (n : ℕ) (nodes : Heap ListNode) (list : ListHeader) :
    Option (Heap ListNode × ListHeader) := do
  let x ← nodes.get n
  if list.head = some n then some (nodes, { list with head := x.next })
  else do
    let nodes ← setNext nodes x.prev x.next
    some (nodes, list)

/-- The second `if`: what is right of `n` gets a new previous one. -/
def unlinkPrev (n : ℕ) (nodes : Heap ListNode) (list : ListHeader) :
    Option (Heap ListNode × ListHeader) := do
  let x ← nodes.get n
  if list.tail = some n then some (nodes, { list with tail := x.prev })
  else do
    let nodes ← setPrev nodes x.next x.prev
    some (nodes, list)

/-- `n->next = n->prev = NULL`. -/
def clearLinks (n : ℕ) (nodes : Heap ListNode) : Option (Heap ListNode) := do
  let nodes ← setPrev nodes (some n) none
  setNext nodes (some n) none

/-- `list_add_element (l, e)`, with the call that it makes on `e`. The result is the new node. -/
def list_add_element (keep : ℕ → E → Option E) (e : ℕ) (m : ListMem E) :
    Option (ListMem E × ℕ) := do
  let n := m.nodes.size
  let nodes := m.nodes.alloc { elem := e, prev := none, next := none }
  let elems ← keep e m.elems
  if m.list.head = none then some ({ elems, nodes, list := ⟨some n, some n⟩ }, n)
  else do
    let nodes ← setNext nodes m.list.tail (some n)
    let nodes ← setPrev nodes (some n) m.list.tail
    some ({ elems, nodes, list := { m.list with tail := some n } }, n)

/-- `list_delete_element (l, n)`. -/
def list_delete_element (calls : Calls E) (n : ℕ) (m : ListMem E) : Option (ListMem E) := do
  let (nodes, list) ← unlinkNext n m.nodes m.list
  let (nodes, list) ← unlinkPrev n nodes list
  let nodes ← clearLinks n nodes
  let x ← nodes.get n
  let elems ← calls.free_ref x.elem m.elems
  let nodes ← nodes.free n
  some { elems, nodes, list }

/-- The loop of `list_delete`. A walk of more than `fuel` steps goes around in a circle. -/
def list_delete_loop (calls : Calls E) : ℕ → Option ℕ → ListMem E → Option (ListMem E)
  | _, none, m => some m
  | 0, some _, _ => none
  | fuel + 1, some n, m => do
    let x ← m.nodes.get n
    let m ← list_delete_element calls n m
    list_delete_loop calls fuel x.next m

/-- `list_delete (l)`. What is left after `free (l)` are the elements and the nodes. -/
def list_delete (calls : Calls E) (m : ListMem E) : Option (E × Heap ListNode) := do
  let m ← list_delete_loop calls m.nodes.size m.list.head m
  some (m.elems, m.nodes)

/-! ### What a list is made of -/

/-- The nodes `ps` in a row, between `prev` and `next`. -/
def Chain (nodes : Heap ListNode) : Option ℕ → List ℕ → Option ℕ → Prop
  | _, [], _ => True
  | prev, p :: ps, next =>
    (∃ e, nodes.get p = some ⟨e, prev, ps.head?.or next⟩) ∧ Chain nodes (some p) ps next

/-- **The nodes of a list** are those that are live. -/
structure IsList (nodes : Heap ListNode) (list : ListHeader) (ps : List ℕ) : Prop where
  chain : Chain nodes none ps none
  head : list.head = ps.head?
  tail : list.tail = ps.getLast?
  nodup : ps.Nodup
  live : ∀ p x, nodes.get p = some x → p ∈ ps

/-- How many of the nodes hold `e`. -/
def listNumber (nodes : Heap ListNode) (e : ℕ) : ℕ := nodes.number fun x => x.elem = e

variable {nodes nodes' : Heap ListNode} {prev next : Option ℕ} {p n : ℕ} {ps qs : List ℕ}

theorem chain_append : Chain nodes prev (ps ++ qs) next ↔
    Chain nodes prev ps (qs.head?.or next) ∧ Chain nodes (ps.getLast?.or prev) qs next := by
  induction ps generalizing prev with
  | nil => simp [Chain]
  | cons p ps ih =>
    have hlast : (p :: ps).getLast?.or prev = ps.getLast?.or (some p) := by
      rw [List.getLast?_cons]
      cases ps.getLast? <;> rfl
    rw [List.cons_append, Chain, Chain, ih, List.head?_append, Option.or_assoc, hlast, and_assoc]

theorem Chain.congr (h : ∀ q ∈ ps, nodes'.get q = nodes.get q) (hc : Chain nodes prev ps next) :
    Chain nodes' prev ps next := by
  induction ps generalizing prev with
  | nil => trivial
  | cons p ps ih =>
    obtain ⟨⟨e, he⟩, hps⟩ := hc
    exact ⟨⟨e, by rw [h p List.mem_cons_self, he]⟩,
      ih (fun q hq => h q (List.mem_cons_of_mem p hq)) hps⟩

theorem Chain.get (hc : Chain nodes prev ps next) (hp : p ∈ ps) : ∃ x, nodes.get p = some x := by
  induction ps generalizing prev with
  | nil => exact absurd hp List.not_mem_nil
  | cons q ps ih =>
    obtain ⟨⟨e, he⟩, hps⟩ := hc
    rcases List.mem_cons.mp hp with rfl | hp
    · exact ⟨_, he⟩
    · exact ih hps hp

theorem Chain.setNext (hc : Chain nodes prev ps next) (hnd : ps.Nodup) (hne : ps ≠ []) :
    ∃ q y, ps.getLast? = some q ∧ nodes.get q = some y ∧
      ∀ v, Chain (nodes.put q (some { y with next := v })) prev ps v := by
  obtain ⟨ps, q, rfl⟩ := (List.eq_nil_or_concat ps).resolve_left hne
  rw [List.concat_eq_append] at hc hnd ⊢
  rw [chain_append] at hc
  obtain ⟨hps, ⟨e, he⟩, -⟩ := hc
  refine ⟨q, _, List.getLast?_concat .., he, fun v => chain_append.mpr ⟨?_, ⟨e, ?_⟩, trivial⟩⟩
  · refine hps.congr fun r hr => Heap.get_put_of_ne ?_
    rintro rfl
    exact (List.nodup_append.mp hnd).2.2 r hr r (List.mem_singleton.mpr rfl) rfl
  · rw [Heap.get_put_self he]
    rfl

theorem Chain.setPrev (hc : Chain nodes prev ps next) (hnd : ps.Nodup) (hne : ps ≠ []) :
    ∃ q y, ps.head? = some q ∧ nodes.get q = some y ∧
      ∀ v, Chain (nodes.put q (some { y with prev := v })) v ps next := by
  obtain ⟨q, ps, rfl⟩ := List.exists_cons_of_ne_nil hne
  obtain ⟨⟨e, he⟩, hps⟩ := hc
  refine ⟨q, _, rfl, he, fun v => ⟨⟨e, ?_⟩, ?_⟩⟩
  · rw [Heap.get_put_self he]
  · refine hps.congr fun r hr => Heap.get_put_of_ne ?_
    rintro rfl
    exact (List.nodup_cons.mp hnd).1 hr

/-! ### Changing links -/

/-- Only links differ. -/
structure SameElems (nodes nodes' : Heap ListNode) : Prop where
  size : nodes'.size = nodes.size
  number : ∀ e, listNumber nodes' e = listNumber nodes e
  elem : ∀ q, (nodes'.get q).map ListNode.elem = (nodes.get q).map ListNode.elem

theorem SameElems.refl (nodes : Heap ListNode) : SameElems nodes nodes :=
  ⟨rfl, fun _ => rfl, fun _ => rfl⟩

theorem SameElems.trans {nodes'' : Heap ListNode} (h : SameElems nodes nodes')
    (h' : SameElems nodes' nodes'') : SameElems nodes nodes'' :=
  ⟨h'.size.trans h.size, fun e => (h'.number e).trans (h.number e),
    fun q => (h'.elem q).trans (h.elem q)⟩

theorem sameElems_put {x y : ListNode} (hp : nodes.get p = some x) (hy : y.elem = x.elem) :
    SameElems nodes (nodes.put p (some y)) := by
  refine ⟨Heap.size_put, fun e => ?_, fun q => ?_⟩
  · have h := Heap.number_put (c := some y) (P := fun x => x.elem = e) hp
    rw [Option.any_some, hy] at h
    exact Nat.add_right_cancel h
  · by_cases hq : q = p
    · rw [hq, Heap.get_put_self hp, hp, Option.map_some, Option.map_some, hy]
    · rw [Heap.get_put_of_ne hq]

theorem SameElems.get {x : ListNode} (h : SameElems nodes nodes') (hp : nodes'.get p = some x) :
    ∃ y, nodes.get p = some y := by
  have helem := h.elem p
  rw [hp, Option.map_some, eq_comm, Option.map_eq_some_iff] at helem
  exact helem.imp fun y hy => hy.1

theorem setNext_eq {x : ListNode} (v : Option ℕ) (hp : nodes.get p = some x) :
    setNext nodes (some p) v = some (nodes.put p (some { x with next := v })) := by
  simp only [Elements.setNext, Option.bind_eq_bind, Option.bind_some, hp, Heap.set_eq hp]

theorem setPrev_eq {x : ListNode} (v : Option ℕ) (hp : nodes.get p = some x) :
    setPrev nodes (some p) v = some (nodes.put p (some { x with prev := v })) := by
  simp only [Elements.setPrev, Option.bind_eq_bind, Option.bind_some, hp, Heap.set_eq hp]

variable {list : ListHeader} {pre post : List ℕ}

/-- **What is left of `n`** is chained to what is right of it. -/
theorem unlinkNext_spec {e : ℕ} (hpre : Chain nodes none pre next) (hnd : (pre ++ [n]).Nodup)
    (hn : nodes.get n = some ⟨e, pre.getLast?, post.head?⟩)
    (hhead : list.head = (pre ++ [n]).head?) :
    ∃ nodes' list', unlinkNext n nodes list = some (nodes', list') ∧ SameElems nodes nodes' ∧
      Chain nodes' none pre post.head? ∧ (∀ q ∉ pre, nodes'.get q = nodes.get q) ∧
      list'.head = (pre ++ post).head? ∧ list'.tail = list.tail := by
  obtain ⟨hpnd, -, hdisj⟩ := List.nodup_append.mp hnd
  by_cases hne : pre = []
  · subst hne
    refine ⟨nodes, { list with head := post.head? }, ?_, .refl nodes, trivial, fun _ _ => rfl, rfl,
      rfl⟩
    have hhead' : list.head = some n := hhead
    simp only [unlinkNext, hn, Option.bind_eq_bind, Option.bind_some, if_pos hhead']
  · obtain ⟨q, y, hlast, hy, hchain⟩ := hpre.setNext hpnd hne
    have hmem : q ∈ pre := List.mem_of_getLast? hlast
    refine ⟨nodes.put q (some { y with next := post.head? }), list, ?_, sameElems_put hy rfl,
      hchain _, fun r hr => Heap.get_put_of_ne fun h => hr (h ▸ hmem), ?_, rfl⟩
    · have hnot : list.head ≠ some n := by
        rw [hhead]
        obtain ⟨r, pre, rfl⟩ := List.exists_cons_of_ne_nil hne
        intro h
        exact hdisj r List.mem_cons_self n (List.mem_singleton.mpr rfl) (Option.some.inj h)
      simp only [unlinkNext, hn, Option.bind_eq_bind, Option.bind_some, if_neg hnot, hlast,
        setNext_eq _ hy]
    · rw [hhead, List.head?_append_of_ne_nil _ hne, List.head?_append_of_ne_nil _ hne]

/-- **What is right of `n`** is chained to what is left of it. -/
theorem unlinkPrev_spec {e : ℕ} (pre : List ℕ) (hpost : Chain nodes prev post none)
    (hnd : (n :: post).Nodup) (hn : nodes.get n = some ⟨e, pre.getLast?, post.head?⟩)
    (htail : list.tail = (n :: post).getLast?) :
    ∃ nodes' list', unlinkPrev n nodes list = some (nodes', list') ∧ SameElems nodes nodes' ∧
      Chain nodes' pre.getLast? post none ∧ (∀ q ∉ post, nodes'.get q = nodes.get q) ∧
      list'.tail = (pre ++ post).getLast? ∧ list'.head = list.head := by
  obtain ⟨hnot, hpnd⟩ := List.nodup_cons.mp hnd
  by_cases hne : post = []
  · subst hne
    refine ⟨nodes, { list with tail := pre.getLast? }, ?_, .refl nodes, trivial, fun _ _ => rfl, ?_,
      rfl⟩
    · have htail' : list.tail = some n := htail
      simp only [unlinkPrev, hn, Option.bind_eq_bind, Option.bind_some, if_pos htail']
    · rw [List.append_nil]
  · obtain ⟨q, y, hfirst, hy, hchain⟩ := hpost.setPrev hpnd hne
    have hmem : q ∈ post := List.mem_of_head? hfirst
    have hlast : ∀ ps : List ℕ, (ps ++ post).getLast? = post.getLast? := fun ps =>
      List.getLast?_append_of_ne_nil ps hne
    refine ⟨nodes.put q (some { y with prev := pre.getLast? }), list, ?_, sameElems_put hy rfl,
      hchain _, fun r hr => Heap.get_put_of_ne fun h => hr (h ▸ hmem), ?_, rfl⟩
    · have htail' : list.tail ≠ some n := by
        rw [htail, ← List.singleton_append, hlast]
        exact fun h => hnot (List.mem_of_getLast? h)
      simp only [unlinkPrev, hn, Option.bind_eq_bind, Option.bind_some, if_neg htail', hfirst,
        setPrev_eq _ hy]
    · rw [htail, ← List.singleton_append, hlast, hlast]

theorem clearLinks_spec {x : ListNode} (hn : nodes.get n = some x) :
    ∃ nodes', clearLinks n nodes = some nodes' ∧ SameElems nodes nodes' ∧
      nodes'.get n = some ⟨x.elem, none, none⟩ ∧ ∀ q ≠ n, nodes'.get q = nodes.get q := by
  have hn' := Heap.get_put_self (c := some { x with prev := none }) hn
  refine ⟨_, ?_, (sameElems_put (y := { x with prev := none }) hn rfl).trans
    (sameElems_put (y := ⟨x.elem, none, none⟩) hn' rfl), Heap.get_put_self hn', fun q hq => ?_⟩
  · simp only [clearLinks, setPrev_eq _ hn, Option.bind_eq_bind, Option.bind_some, setNext_eq _ hn']
  · rw [Heap.get_put_of_ne hq, Heap.get_put_of_ne hq]

/-! ### What the functions do -/

theorem IsList.split (h : IsList nodes list ps) (hn : n ∈ ps) : ∃ pre post e,
    ps = pre ++ n :: post ∧ Chain nodes none pre (some n) ∧ Chain nodes (some n) post none ∧
      nodes.get n = some ⟨e, pre.getLast?, post.head?⟩ := by
  obtain ⟨pre, post, rfl⟩ := List.append_of_mem hn
  obtain ⟨hpre, ⟨e, he⟩, hpost⟩ := chain_append.mp h.chain
  rw [Option.or_none, Option.or_none] at he
  exact ⟨pre, post, e, rfl, hpre, hpost, he⟩

theorem IsList.unlink (h : IsList nodes list (pre ++ n :: post)) {e : ℕ}
    (hpre : Chain nodes none pre (some n)) (hpost : Chain nodes (some n) post none)
    (he : nodes.get n = some ⟨e, pre.getLast?, post.head?⟩) :
    ∃ nodes₁ list₁ nodes₂ list₂, unlinkNext n nodes list = some (nodes₁, list₁) ∧
      unlinkPrev n nodes₁ list₁ = some (nodes₂, list₂) ∧ SameElems nodes nodes₂ ∧
      Chain nodes₂ none pre post.head? ∧ Chain nodes₂ pre.getLast? post none ∧
      nodes₂.get n = some ⟨e, pre.getLast?, post.head?⟩ ∧
      list₂.head = (pre ++ post).head? ∧ list₂.tail = (pre ++ post).getLast? := by
  obtain ⟨-, hnpost, hdisj⟩ := List.nodup_append.mp h.nodup
  have hnpre : n ∉ pre := fun hp => hdisj n hp n List.mem_cons_self rfl
  have hnd : (pre ++ [n]).Nodup := by
    have hall := h.nodup
    rw [List.append_cons] at hall
    exact (List.nodup_append.mp hall).1
  obtain ⟨nodes₁, list₁, hun, hsame₁, hpre₁, hkeep₁, hhead₁, htail₁⟩ := unlinkNext_spec hpre hnd he
    (by rw [h.head, List.head?_append, List.head?_append]; rfl)
  have hx₁ : nodes₁.get n = some ⟨e, pre.getLast?, post.head?⟩ := (hkeep₁ n hnpre).trans he
  have hpost₁ : Chain nodes₁ (some n) post none := hpost.congr fun q hq =>
    hkeep₁ q fun hp => hdisj q hp q (List.mem_cons_of_mem n hq) rfl
  obtain ⟨nodes₂, list₂, hup, hsame₂, hpost₂, hkeep₂, htail₂, hhead₂⟩ :=
    unlinkPrev_spec pre hpost₁ hnpost hx₁ (by
      rw [htail₁, h.tail, List.getLast?_append_of_ne_nil _ (List.cons_ne_nil n post)])
  have hx₂ : nodes₂.get n = some ⟨e, pre.getLast?, post.head?⟩ :=
    (hkeep₂ n (List.nodup_cons.mp hnpost).1).trans hx₁
  have hpre₂ : Chain nodes₂ none pre post.head? := hpre₁.congr fun q hq =>
    hkeep₂ q fun hp => hdisj q hq q (List.mem_cons_of_mem n hp) rfl
  exact ⟨nodes₁, list₁, nodes₂, list₂, hun, hup, hsame₁.trans hsame₂, hpre₂, hpost₂, hx₂,
    hhead₂.trans hhead₁, htail₂⟩

/-- **`list_delete_element`** takes its node out of the list, and calls `free_ref` on its element. -/
theorem list_delete_element_eq (h : IsList nodes list ps) (hn : n ∈ ps) {x : ListNode}
    (hx : nodes.get n = some x) :
    ∃ nodes' list', (∀ (calls : Calls E) elems, list_delete_element calls n ⟨elems, nodes, list⟩ =
        (calls.free_ref x.elem elems).map fun elems => ⟨elems, nodes', list'⟩) ∧
      IsList nodes' list' (ps.erase n) ∧ nodes'.size = nodes.size ∧
      (∀ e, listNumber nodes' e + (if x.elem = e then 1 else 0) = listNumber nodes e) ∧
      ∀ q ≠ n, (nodes'.get q).map ListNode.elem = (nodes.get q).map ListNode.elem := by
  obtain ⟨pre, post, e, rfl, hpre, hpost, he⟩ := h.split hn
  obtain rfl := Option.some.inj (hx.symm.trans he)
  obtain ⟨-, hnpost, hdisj⟩ := List.nodup_append.mp h.nodup
  have hnpre : n ∉ pre := fun hp => hdisj n hp n List.mem_cons_self rfl
  obtain ⟨nodes₁, list₁, nodes₂, list₂, hun, hup, hsame₂, hpre₂, hpost₂, hx₂, hhead, htail⟩ :=
    h.unlink hpre hpost he
  -- `n` itself
  obtain ⟨nodes₃, hclear, hsame, hx₃, hkeep₃⟩ := clearLinks_spec hx₂
  have hsame₃ := hsame₂.trans hsame
  have hput : ∀ q ≠ n, (nodes₃.put n none).get q = nodes₂.get q := fun q hq => by
    rw [Heap.get_put_of_ne hq, hkeep₃ q hq]
  refine ⟨nodes₃.put n none, list₂, fun calls elems => ?_, ?_, ?_, fun e' => ?_, fun q hq => ?_⟩
  · simp only [list_delete_element, hun, hup, hclear, Option.bind_eq_bind, Option.bind_some, hx₃]
    cases calls.free_ref e elems with
    | none => rfl
    | some elems =>
      simp only [Option.bind_some, Heap.free_eq hx₃, Option.map_some]
  · rw [List.erase_append_right _ hnpre, List.erase_cons_head]
    have hnd : (pre ++ post).Nodup := h.nodup.sublist
      ((List.Sublist.refl pre).append (List.sublist_cons_self n post))
    refine ⟨chain_append.mpr ⟨?_, ?_⟩, hhead, htail, hnd, fun q y hq => ?_⟩
    · rw [Option.or_none]
      exact hpre₂.congr fun q hq => hput q fun h => hnpre (h ▸ hq)
    · rw [Option.or_none]
      exact hpost₂.congr fun q hq => hput q fun h => (List.nodup_cons.mp hnpost).1 (h ▸ hq)
    · have hne : q ≠ n := by
        rintro rfl
        rw [Heap.get_put_self hx₃] at hq
        exact absurd hq (by simp)
      rw [Heap.get_put_of_ne hne] at hq
      obtain ⟨z, hz⟩ := hsame₃.get hq
      have hin := h.live q z hz
      simp only [List.mem_append, List.mem_cons] at hin ⊢
      tauto
  · rw [Heap.size_put, hsame₃.size]
  · rw [← hsame₃.number]
    have hnumber := Heap.number_put (c := none) (P := fun x => x.elem = e') hx₃
    simpa [listNumber] using hnumber
  · rw [Heap.get_put_of_ne hq, hsame₃.elem]

theorem list_delete_element_spec {calls : Calls E} {m : ListMem E} (h : IsList m.nodes m.list ps)
    (hn : n ∈ ps) {x : ListNode} (hx : m.nodes.get n = some x) {elems : E}
    (hfree : calls.free_ref x.elem m.elems = some elems) :
    ∃ m', list_delete_element calls n m = some m' ∧ m'.elems = elems ∧
      IsList m'.nodes m'.list (ps.erase n) ∧ m'.nodes.size = m.nodes.size ∧
      ∀ e, listNumber m'.nodes e + (if x.elem = e then 1 else 0) = listNumber m.nodes e := by
  obtain ⟨nodes', list', heq, hlist, hsize, hnumber, -⟩ := list_delete_element_eq h hn hx
  refine ⟨⟨elems, nodes', list'⟩, (heq calls m.elems).trans ?_, rfl, hlist, hsize, hnumber⟩
  rw [hfree, Option.map_some]

theorem IsList.number_eq_zero (h : IsList nodes list []) (e : ℕ) : listNumber nodes e = 0 :=
  Heap.number_eq_zero fun p x hp => absurd (h.live p x hp) List.not_mem_nil

theorem listNumber_pos {x : ListNode} (hn : nodes.get n = some x) : 0 < listNumber nodes x.elem :=
  Heap.number_pos hn (decide_eq_true rfl)

theorem IsList.length_le (h : IsList nodes list ps) : ps.length ≤ nodes.size := by
  have hsub : ps ⊆ List.range nodes.size := fun p hp => by
    obtain ⟨x, hx⟩ := h.chain.get hp
    exact List.mem_range.mpr (Heap.lt_size hx)
  simpa using (List.subperm_of_subset h.nodup hsub).length_le

section Counts

variable {calls : Calls E} {Holds : E → (ℕ → ℕ) → Prop} {b : ℕ → ℕ}

/-- One reference less for each node of the list. `b` counts the references from elsewhere. -/
theorem list_delete_loop_spec (hcalls : Counts calls Holds) (fuel : ℕ) {m : ListMem E}
    (h : IsList m.nodes m.list ps) (hfuel : ps.length ≤ fuel)
    (hheld : Holds m.elems fun e => b e + listNumber m.nodes e)
    (hlt : ∀ e, b e + listNumber m.nodes e < 2 ^ 32) :
    ∃ m', list_delete_loop calls fuel m.list.head m = some m' ∧ IsList m'.nodes m'.list [] ∧
      m'.nodes.size = m.nodes.size ∧ Holds m'.elems b := by
  induction ps generalizing m fuel with
  | nil =>
    have hhead : m.list.head = none := h.head
    refine ⟨m, by rw [hhead, list_delete_loop], h, rfl, ?_⟩
    simpa only [h.number_eq_zero, Nat.add_zero] using hheld
  | cons p ps ih =>
    obtain ⟨fuel, rfl⟩ : ∃ k, fuel = k + 1 := ⟨fuel - 1, (Nat.succ_pred (by
      rintro rfl
      exact absurd hfuel (Nat.not_succ_le_zero _))).symm⟩
    obtain ⟨⟨e, hx⟩, -⟩ := h.chain
    obtain ⟨elems, hfree, hheld'⟩ := hcalls.free hheld (e := e)
      (Nat.lt_add_left _ (listNumber_pos hx)) (hlt e)
    obtain ⟨m₁, hdel, helems, hlist, hsize, hnumber⟩ :=
      list_delete_element_spec h List.mem_cons_self hx hfree
    rw [List.erase_cons_head] at hlist
    rw [update_free (fun f => b f + listNumber m₁.nodes f)
      fun f => by rw [← hnumber f, Nat.add_assoc], ← helems] at hheld'
    obtain ⟨m', hloop, hempty, hsize', hheld''⟩ :=
      ih fuel hlist (Nat.le_of_succ_le_succ hfuel) hheld' fun f => by
        have hlt' := hlt f
        rw [← hnumber f] at hlt'
        omega
    refine ⟨m', ?_, hempty, hsize'.trans hsize, hheld''⟩
    have hhead : m.list.head = some p := h.head
    rw [hlist.head] at hloop
    simp only [hhead, list_delete_loop, hx, Option.bind_eq_bind, Option.bind_some, hdel,
      Option.or_none, hloop]

/-- **`list_delete`** gives back the references of the list, and leaves no node. -/
theorem list_delete_spec (hcalls : Counts calls Holds) {m : ListMem E}
    (h : IsList m.nodes m.list ps) (hheld : Holds m.elems fun e => b e + listNumber m.nodes e)
    (hlt : ∀ e, b e + listNumber m.nodes e < 2 ^ 32) :
    ∃ elems nodes, list_delete calls m = some (elems, nodes) ∧ Holds elems b ∧
      nodes.size = m.nodes.size ∧ ∀ p, nodes.get p = none := by
  obtain ⟨m', hloop, hempty, hsize, hheld'⟩ :=
    list_delete_loop_spec hcalls m.nodes.size h h.length_le hheld hlt
  refine ⟨m'.elems, m'.nodes, ?_, hheld', hsize, fun p => ?_⟩
  · simp only [list_delete, hloop, Option.bind_eq_bind, Option.bind_some]
  · cases hp : m'.nodes.get p with
    | none => rfl
    | some x => exact absurd (hempty.live p x hp) List.not_mem_nil

end Counts

/-! ### A new node of the list -/

theorem IsList.size_notMem (h : IsList nodes list ps) : nodes.size ∉ ps := by
  intro hmem
  obtain ⟨x, hx⟩ := h.chain.get hmem
  exact Nat.lt_irrefl _ (Heap.lt_size hx)

theorem IsList.nodup_alloc (h : IsList nodes list ps) : (ps ++ [nodes.size]).Nodup :=
  List.nodup_append.mpr ⟨h.nodup, List.pairwise_singleton _ _, fun _ ha _ hb hab =>
    h.size_notMem (List.mem_singleton.mp hb ▸ hab ▸ ha)⟩

theorem IsList.chain_alloc (h : IsList nodes list ps) (x : ListNode) :
    Chain (nodes.alloc x) none ps none :=
  h.chain.congr fun _ hq => Heap.get_alloc_of_ne fun hqn => h.size_notMem (hqn ▸ hq)

theorem IsList.live_alloc (h : IsList nodes list ps) {x : ListNode}
    (hsame : SameElems (nodes.alloc x) nodes') (p : ℕ) (y : ListNode)
    (hp : nodes'.get p = some y) : p ∈ ps ++ [nodes.size] := by
  by_cases hpn : p = nodes.size
  · exact List.mem_append_right _ (List.mem_singleton.mpr hpn)
  · obtain ⟨z, hz⟩ := hsame.get hp
    rw [Heap.get_alloc_of_ne hpn] at hz
    exact List.mem_append_left _ (h.live p z hz)

theorem listNumber_alloc (nodes : Heap ListNode) (e f : ℕ) :
    listNumber (nodes.alloc ⟨e, none, none⟩) f =
      listNumber nodes f + if e = f then 1 else 0 := by
  rw [listNumber, Heap.number_alloc, listNumber]
  simp

/-- **`list_add_element`** puts a new node at the end, and calls `keep` on its element. -/
theorem list_add_element_eq (h : IsList nodes list ps) (e : ℕ) :
    ∃ nodes' list', (∀ (keep : ℕ → E → Option E) elems,
        list_add_element keep e ⟨elems, nodes, list⟩ =
          (keep e elems).map fun elems => (⟨elems, nodes', list'⟩, nodes.size)) ∧
      IsList nodes' list' (ps ++ [nodes.size]) ∧
      (∀ e', listNumber nodes' e' = listNumber nodes e' + if e = e' then 1 else 0) ∧
      ∀ q, (nodes'.get q).map ListNode.elem =
        ((nodes.alloc ⟨e, none, none⟩).get q).map ListNode.elem := by
  have hnot := h.size_notMem
  by_cases hne : ps = []
  · subst hne
    have hhead : list.head = none := h.head
    refine ⟨nodes.alloc ⟨e, none, none⟩, ⟨some nodes.size, some nodes.size⟩, fun keep elems => ?_,
      ⟨⟨⟨e, Heap.get_alloc_self⟩, trivial⟩, rfl, rfl, h.nodup_alloc, h.live_alloc (.refl _)⟩,
      listNumber_alloc nodes e, fun _ => rfl⟩
    simp only [list_add_element, hhead, if_true, Option.bind_eq_bind]
    cases keep e elems <;> rfl
  · obtain ⟨q, y, hlast, hy, hset⟩ := (h.chain_alloc ⟨e, none, none⟩).setNext h.nodup hne
    have hqn : nodes.size ≠ q := fun hq => hnot (hq ▸ List.mem_of_getLast? hlast)
    have hn : ((nodes.alloc ⟨e, none, none⟩).put q
        (some { y with next := some nodes.size })).get nodes.size = some ⟨e, none, none⟩ := by
      rw [Heap.get_put_of_ne hqn, Heap.get_alloc_self]
    have hsame := (sameElems_put (y := { y with next := some nodes.size }) hy rfl).trans
      (sameElems_put (y := ⟨e, some q, none⟩) hn rfl)
    have hhead : list.head ≠ none := by
      rw [h.head]
      simpa using hne
    refine ⟨_, { list with tail := some nodes.size }, fun keep elems => ?_,
      ⟨chain_append.mpr ⟨?_, ⟨e, ?_⟩, trivial⟩, ?_, ?_, h.nodup_alloc, h.live_alloc hsame⟩,
      fun e' => ?_, hsame.elem⟩
    · simp only [list_add_element, if_neg hhead, h.tail, hlast, Option.bind_eq_bind, setNext_eq _ hy,
        Option.bind_some, setPrev_eq _ hn]
      cases keep e elems <;> rfl
    · exact (hset _).congr fun r hr => Heap.get_put_of_ne fun hrn => hnot (hrn ▸ hr)
    · exact (Heap.get_put_self hn).trans (by rw [hlast]; rfl)
    · rw [List.head?_append_of_ne_nil _ hne]
      exact h.head
    · rw [List.getLast?_concat]
    · exact (hsame.number e').trans (listNumber_alloc nodes e e')

theorem list_add_spec {keep : ℕ → E → Option E} {m : ListMem E} {e : ℕ}
    (h : IsList m.nodes m.list ps) {elems : E} (hkeep : keep e m.elems = some elems) :
    ∃ m', list_add_element keep e m = some (m', m.nodes.size) ∧ m'.elems = elems ∧
      IsList m'.nodes m'.list (ps ++ [m.nodes.size]) ∧
      ∀ e', listNumber m'.nodes e' = listNumber m.nodes e' + if e = e' then 1 else 0 := by
  obtain ⟨nodes', list', heq, hlist, hnumber, -⟩ := list_add_element_eq h e
  refine ⟨⟨elems, nodes', list'⟩, (heq keep m.elems).trans ?_, rfl, hlist, hnumber⟩
  rw [hkeep, Option.map_some]

end IntroSystems.Elements
