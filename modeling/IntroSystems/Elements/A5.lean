import IntroSystems.Elements.Containers
import IntroSystems.Lib.CString
import IntroSystems.Lib.Counter
import IntroSystems.Lib.Transition

/-!
# Reference counts in assignment 5

`element.c` and `refcount.c`. An element has two counters, its own one and the one that `rc_malloc`
puts in front of it, and a copy of its string.

* `el_keep_ref`, `el_free_ref`, `element_new`.
* `Held s c`: both counters of each element `e` are `c e`. **`counts_held`**.
* `sys`: the calls on a list and a tree, in any order.
* **`counters_exact`**: both counters are the number of nodes that hold the element.
* **`counters_overflow`**: but for elements that `2 ^ 31` nodes hold.
-/

set_option autoImplicit false

namespace IntroSystems.Elements.A5

open Containers CString

/-! ### The code -/

/-- `struct element`. The string is at `value`. -/
structure Client where
  num : BitVec 32
  value : ℕ
  refcount : BitVec 32

/-- A block of `rc_malloc`, with the count in front. -/
structure Elem where
  ref_count : BitVec 32
  client : Client

/-- What `free` is called on: an element, or a string. -/
inductive Block
  | element (e : ℕ)
  | string (p : ℕ)
  deriving DecidableEq

/-- The memory of the elements. `freed` are the calls of `free` so far. -/
structure Store where
  elements : Heap Elem
  strings : Heap Str
  freed : List Block

/-- `*e = f (*e)`. -/
def update (e : ℕ) (f : Elem → Elem) (s : Store) : Option Store := do
  let x ← s.elements.get e
  let elements ← s.elements.set e (f x)
  some { s with elements }

/-- `rc_malloc (nbytes)`, where `junk` is in the memory that it gets. -/
def rc_malloc (junk : Client) (s : Store) : Store × ℕ :=
  ({ s with elements := s.elements.alloc { ref_count := 1, client := junk } }, s.elements.size)

def rc_keep_ref (e : ℕ) (s : Store) : Option Store :=
  update e (fun x => { x with ref_count := x.ref_count + 1 }) s

def rc_free_ref (e : ℕ) (s : Store) : Option Store := do
  let s ← update e (fun x => { x with ref_count := x.ref_count - 1 }) s
  let x ← s.elements.get e
  if x.ref_count = 0 then do
    let elements ← s.elements.free e
    some { s with elements, freed := s.freed ++ [.element e] }
  else some s

def el_rc_malloc (junk : Client) (s : Store) : Option (Store × ℕ) := do
  let (s, e) := rc_malloc junk s
  let s ← update e (fun x => { x with client.refcount := 1 }) s
  some (s, e)

def el_keep_ref (e : ℕ) (s : Store) : Option Store := do
  let s ← update e (fun x => { x with client.refcount := x.client.refcount + 1 }) s
  rc_keep_ref e s

/-- `free (p)` of a string. -/
def freeString (p : ℕ) (s : Store) : Option Store := do
  let strings ← s.strings.free p
  some { s with strings, freed := s.freed ++ [.string p] }

def el_free_ref (e : ℕ) (s : Store) : Option Store := do
  let s ← update e (fun x => { x with client.refcount := x.client.refcount - 1 }) s
  let x ← s.elements.get e
  let s ← if x.client.refcount = 0 then freeString x.client.value s else some s
  rc_free_ref e s

def element_new (junk : Client) (num : BitVec 32) (value : Str) (s : Store) :
    Option (Store × ℕ) := do
  let (s, e) ← el_rc_malloc junk s
  let s ← update e (fun x => { x with client.num := num }) s
  -- `strdup (value)`
  let p := s.strings.size
  let s := { s with strings := s.strings.alloc value }
  let s ← update e (fun x => { x with client.value := p }) s
  some (s, e)

def element_delete (e : ℕ) (s : Store) : Option Store := el_free_ref e s

def element_get_num (e : ℕ) (s : Store) : Option (BitVec 32) := do
  let x ← s.elements.get e
  some x.client.num

/-- `element_get_value (e)`, and the string there. -/
def element_get_value (e : ℕ) (s : Store) : Option Str := do
  let x ← s.elements.get e
  s.strings.get x.client.value

/-- `strcmp (element_get_value (e), element_get_value (f))`. -/
def compareValues (e f : ℕ) (s : Store) : Option ℤ := do
  let v ← element_get_value e s
  let w ← element_get_value f s
  some (strcmp v.bytes w.bytes)

/-- What `tree_ordered_print` prints for an element. -/
def line (e : ℕ) (s : Store) : Option (BitVec 32 × Str) := do
  let num ← element_get_num e s
  let value ← element_get_value e s
  some (num, value)

/-- What `list.c` and `tree.c` of this assignment call. -/
def calls : Calls Store where
  keep_ref := el_keep_ref
  free_ref := element_delete
  compare := compareValues

/-- `list_add_element` calls nothing, as `tree_insert_node_helper`. -/
def noCall (_ : ℕ) (s : Store) : Option Store := some s

/-! ### What the counters are for -/

/-- The element at `e` counts `n` references. -/
structure Elem.Has (x : Elem) (e n : ℕ) : Prop where
  ref_count : x.ref_count = BitVec.ofNat 32 n
  refcount : x.client.refcount = BitVec.ofNat 32 n
  value : x.client.value = e

/-- **Both counters of each element `e` are `c e`**, and at `0` it has been freed with its string,
which is at the same address. -/
structure Held (s : Store) (c : ℕ → ℕ) : Prop where
  size : s.strings.size = s.elements.size
  live : ∀ e, 0 < c e → ∃ x t, s.elements.get e = some x ∧ s.strings.get e = some t ∧ x.Has e (c e)
  gone : ∀ e, c e = 0 → s.elements.get e = none ∧ s.strings.get e = none
  freed : ∀ e, (s.freed.count (.element e) = if e < s.elements.size ∧ c e = 0 then 1 else 0) ∧
    s.freed.count (.string e) = if e < s.elements.size ∧ c e = 0 then 1 else 0

variable {s : Store} {c : ℕ → ℕ} {e f n : ℕ} {x y : Elem}

theorem update_eq (g : Elem → Elem) (hx : s.elements.get e = some x) :
    update e g s = some { s with elements := s.elements.put e (some (g x)) } := by
  simp only [update, hx, Heap.set_eq hx, Option.bind_eq_bind, Option.bind_some]

theorem update_mk {elements : Heap Elem} {strings : Heap Str} {freed : List Block} (g : Elem → Elem)
    (hx : elements.get e = some x) : update e g ⟨elements, strings, freed⟩ =
      some ⟨elements.put e (some (g x)), strings, freed⟩ :=
  update_eq (s := ⟨elements, strings, freed⟩) g hx

theorem Held.pos_iff (h : Held s c) : 0 < c e ↔ ∃ x, s.elements.get e = some x := by
  constructor
  · intro hpos
    obtain ⟨x, -, hx, -⟩ := h.live e hpos
    exact ⟨x, hx⟩
  · rintro ⟨x, hx⟩
    by_contra hzero
    rw [(h.gone e (Nat.eq_zero_of_not_pos hzero)).1] at hx
    exact absurd hx nofun

theorem held_empty : Held ⟨.empty, .empty, []⟩ fun _ => 0 where
  size := rfl
  live _ h := absurd h (Nat.lt_irrefl _)
  gone _ _ := ⟨rfl, rfl⟩
  freed _ := ⟨rfl, rfl⟩

theorem Held.put (h : Held s c) (hx : s.elements.get e = some x) (hn : 0 < n) (hy : y.Has e n) :
    Held { s with elements := s.elements.put e (some y) } (Function.update c e n) := by
  have hpos : 0 < c e := h.pos_iff.mpr ⟨x, hx⟩
  obtain ⟨-, t, -, ht, -⟩ := h.live e hpos
  refine ⟨by rw [Heap.size_put, h.size], fun f hf => ?_, fun f hf => ?_, fun f => ?_⟩
  · by_cases hfe : f = e
    · rw [hfe, Function.update_self]
      exact ⟨y, t, Heap.get_put_self hx, ht, hy⟩
    · rw [Function.update_of_ne hfe] at hf ⊢
      rw [Heap.get_put_of_ne hfe]
      exact h.live f hf
  · have hfe : f ≠ e := by
      rintro rfl
      rw [Function.update_self] at hf
      exact Nat.ne_of_gt hn hf
    rw [Function.update_of_ne hfe] at hf
    rw [Heap.get_put_of_ne hfe]
    exact h.gone f hf
  · simp only [Heap.size_put, update_eq_zero hn hpos]
    exact h.freed f

theorem Held.drop (h : Held s c) (hx : s.elements.get e = some x) :
    Held { elements := s.elements.put e none, strings := s.strings.put e none,
           freed := s.freed ++ [.string e] ++ [.element e] } (Function.update c e 0) := by
  have hpos : 0 < c e := h.pos_iff.mpr ⟨x, hx⟩
  obtain ⟨-, t, -, ht, -⟩ := h.live e hpos
  refine ⟨by rw [Heap.size_put, Heap.size_put, h.size], fun f hf => ?_, fun f hf => ?_, fun f => ?_⟩
  · have hfe : f ≠ e := by
      rintro rfl
      rw [Function.update_self] at hf
      exact Nat.lt_irrefl 0 hf
    rw [Function.update_of_ne hfe] at hf ⊢
    rw [Heap.get_put_of_ne hfe, Heap.get_put_of_ne hfe]
    exact h.live f hf
  · by_cases hfe : f = e
    · rw [hfe]
      exact ⟨Heap.get_put_self hx, Heap.get_put_self ht⟩
    · rw [Function.update_of_ne hfe] at hf
      rw [Heap.get_put_of_ne hfe, Heap.get_put_of_ne hfe]
      exact h.gone f hf
  · have hcount := h.freed f
    by_cases hfe : f = e
    · subst hfe
      rw [if_neg fun hc => Nat.ne_of_gt hpos hc.2] at hcount
      have hlt := Heap.lt_size hx
      simp [List.count_append, hcount, hlt]
    · have hef : e ≠ f := Ne.symm hfe
      simpa [List.count_append, Function.update_of_ne hfe, List.count_singleton, hef] using hcount

theorem Held.new (h : Held s c) (hy : y.Has s.elements.size 1) (t : Str) :
    Held { s with elements := s.elements.alloc y, strings := s.strings.alloc t }
      (Function.update c s.elements.size (c s.elements.size + 1)) := by
  have hzero : c s.elements.size = 0 := Nat.eq_zero_of_not_pos fun hpos => by
    obtain ⟨x, hx⟩ := h.pos_iff.mp hpos
    exact Nat.lt_irrefl _ (Heap.lt_size hx)
  rw [hzero]
  refine ⟨by rw [Heap.size_alloc, Heap.size_alloc, h.size], fun f hf => ?_, fun f hf => ?_,
    fun f => ?_⟩
  · by_cases hfe : f = s.elements.size
    · rw [hfe, Function.update_self]
      exact ⟨y, t, Heap.get_alloc_self, h.size ▸ Heap.get_alloc_self, hy⟩
    · rw [Function.update_of_ne hfe] at hf ⊢
      rw [Heap.get_alloc_of_ne hfe, Heap.get_alloc_of_ne (h.size ▸ hfe)]
      exact h.live f hf
  · have hfe : f ≠ s.elements.size := by
      rintro rfl
      rw [Function.update_self] at hf
      exact absurd hf nofun
    rw [Function.update_of_ne hfe] at hf
    rw [Heap.get_alloc_of_ne hfe, Heap.get_alloc_of_ne (h.size ▸ hfe)]
    exact h.gone f hf
  · simp only [Heap.size_alloc, update_new_eq_zero]
    exact h.freed f

/-! ### What the functions do -/

theorem has_succ (h : x.Has e n) :
    Elem.Has ⟨x.ref_count + 1, { x.client with refcount := x.client.refcount + 1 }⟩ e (n + 1) where
  ref_count := counter_succ h.ref_count
  refcount := counter_succ h.refcount
  value := h.value

theorem has_pred (h : x.Has e (n + 1)) :
    Elem.Has ⟨x.ref_count - 1, { x.client with refcount := x.client.refcount - 1 }⟩ e n where
  ref_count := counter_pred h.ref_count
  refcount := counter_pred h.refcount
  value := h.value

theorem line_put (hx : s.elements.get e = some x) (hnum : y.client.num = x.client.num)
    (hvalue : y.client.value = x.client.value) (f : ℕ) :
    line f { s with elements := s.elements.put e (some y) } = line f s := by
  unfold line element_get_num element_get_value
  by_cases hf : f = e
  · subst hf
    simp only [Heap.get_put_self hx, hx, Option.bind_eq_bind, Option.bind_some, hnum, hvalue]
  · simp only [Heap.get_put_of_ne hf]

/-- **`el_keep_ref`**: one reference more, and nothing else. -/
theorem el_keep_ref_spec (h : Held s c) (hpos : 0 < c e) :
    ∃ s', el_keep_ref e s = some s' ∧ Held s' (Function.update c e (c e + 1)) ∧
      ∀ f, line f s' = line f s := by
  obtain ⟨x, -, hx, -, hhas⟩ := h.live e hpos
  refine ⟨_, ?_, h.put hx (Nat.succ_pos _) (has_succ hhas), line_put hx rfl rfl⟩
  rw [el_keep_ref, update_eq _ hx, Option.bind_eq_bind, Option.bind_some, rc_keep_ref,
    update_eq _ (Heap.get_put_self hx), Heap.put_put]

theorem line_drop (h : Held s c) (hf : f ≠ e) (hpos : 0 < c f) (freed : List Block) :
    line f { elements := s.elements.put e none, strings := s.strings.put e none, freed } =
      line f s := by
  obtain ⟨x, -, hx, -, hhas⟩ := h.live f hpos
  unfold line element_get_num element_get_value
  simp only [Heap.get_put_of_ne hf, hx, Option.bind_eq_bind, Option.bind_some, hhas.value]

theorem line_new (x : Elem) (t : Str) (f : ℕ) (y : BitVec 32 × Str) (h : line f s = some y) :
    line f { s with elements := s.elements.alloc x, strings := s.strings.alloc t } = some y := by
  unfold line element_get_num element_get_value at h ⊢
  simp only [Option.bind_eq_bind, Option.bind_eq_some_iff] at h ⊢
  obtain ⟨num, ⟨z, hz, hnum⟩, v, ⟨z', hz', hv⟩, hy⟩ := h
  exact ⟨num, ⟨z, Heap.get_alloc_of_get hz, hnum⟩, v,
    ⟨z', Heap.get_alloc_of_get hz', Heap.get_alloc_of_get hv⟩, hy⟩

/-- **`el_free_ref`**: one reference less; the elements that are left keep their lines. -/
theorem el_free_ref_spec (h : Held s c) (hpos : 0 < c e) (hlt : c e < 2 ^ 32) :
    ∃ s', el_free_ref e s = some s' ∧ Held s' (Function.update c e (c e - 1)) ∧
      ∀ f, 0 < Function.update c e (c e - 1) f → line f s' = line f s := by
  obtain ⟨n, hn⟩ := Nat.exists_eq_succ_of_ne_zero (Nat.ne_of_gt hpos)
  obtain ⟨⟨v, num, p, w⟩, t, hx, ht, hhas⟩ := h.live e hpos
  rw [hn, Nat.succ_sub_one]
  rw [hn] at hhas hlt
  obtain rfl : p = e := hhas.value
  have hx₁ : (s.elements.put p (some ⟨v, num, p, w - 1⟩)).get p = some ⟨v, num, p, w - 1⟩ :=
    Heap.get_put_self hx
  have hx₂ : (s.elements.put p (some ⟨v - 1, num, p, w - 1⟩)).get p =
      some ⟨v - 1, num, p, w - 1⟩ := Heap.get_put_self hx
  have hw : w - 1 = 0 ↔ n = 0 := by
    rw [counter_pred hhas.refcount, ofNat_eq_zero (Nat.lt_of_succ_lt hlt)]
  have hv : v - 1 = 0 ↔ n = 0 := by
    rw [counter_pred hhas.ref_count, ofNat_eq_zero (Nat.lt_of_succ_lt hlt)]
  cases n with
  | zero =>
    refine ⟨_, ?_, h.drop hx, fun f hf => ?_⟩
    · simp only [el_free_ref, update_eq _ hx, Option.bind_eq_bind, Option.bind_some, hx₁,
        if_pos (hw.mpr rfl), freeString, Heap.free_eq ht, rc_free_ref, update_mk _ hx₁,
        Heap.put_put, hx₂, if_pos (hv.mpr rfl), Heap.free_eq hx₂]
    · have hne : f ≠ p := by
        rintro rfl
        rw [Function.update_self] at hf
        exact Nat.lt_irrefl 0 hf
      rw [Function.update_of_ne hne] at hf
      exact line_drop h hne hf _
  | succ n =>
    have hline := fun f => line_put (y := ⟨v - 1, num, p, w - 1⟩) hx rfl rfl f
    refine ⟨_, ?_, h.put hx (Nat.succ_pos _) (has_pred hhas), fun f _ => hline f⟩
    simp only [el_free_ref, update_eq _ hx, Option.bind_eq_bind, Option.bind_some, hx₁,
      if_neg (hw.not.mpr (Nat.succ_ne_zero n)), rc_free_ref, update_mk _ hx₁, Heap.put_put, hx₂,
      if_neg (hv.not.mpr (Nat.succ_ne_zero n))]

theorem element_get_value_spec (h : Held s c) (hpos : 0 < c e) :
    ∃ v, element_get_value e s = some v := by
  obtain ⟨x, t, hx, ht, hhas⟩ := h.live e hpos
  exact ⟨t, by simp only [element_get_value, hx, Option.bind_eq_bind, Option.bind_some, hhas.value,
    ht]⟩

theorem compareValues_spec (h : Held s c) (he : 0 < c e) (hf : 0 < c f) :
    ∃ r, compareValues e f s = some r := by
  obtain ⟨v, hv⟩ := element_get_value_spec h he
  obtain ⟨w, hw⟩ := element_get_value_spec h hf
  exact ⟨strcmp v.bytes w.bytes, by simp only [compareValues, hv, hw, Option.bind_eq_bind,
    Option.bind_some]⟩

theorem line_spec (h : Held s c) (hpos : 0 < c e) : ∃ y, line e s = some y := by
  obtain ⟨x, hx⟩ := h.pos_iff.mp hpos
  obtain ⟨v, hv⟩ := element_get_value_spec h hpos
  exact ⟨(x.client.num, v), by simp only [line, element_get_num, hx, hv, Option.bind_eq_bind,
    Option.bind_some]⟩

/-- **The functions of `element.c` count references.** -/
theorem counts_held : Counts calls Held where
  keep h hpos := (el_keep_ref_spec h hpos).imp fun _ hs => ⟨hs.1, hs.2.1⟩
  free h hpos hlt := (el_free_ref_spec h hpos hlt).imp fun _ hs => ⟨hs.1, hs.2.1⟩
  compare := compareValues_spec

theorem element_new_spec (h : Held s c) (junk : Client) (num : BitVec 32) (value : Str) :
    ∃ s', element_new junk num value s = some (s', s.elements.size) ∧
      s'.elements.size = s.elements.size + 1 ∧
      Held s' (Function.update c s.elements.size (c s.elements.size + 1)) ∧
      ∀ f y, line f s = some y → line f s' = some y := by
  refine ⟨_, ?_, ?_, h.new (y := ⟨1, { num, value := s.strings.size, refcount := 1 }⟩)
    ⟨rfl, rfl, h.size⟩ value, line_new _ _⟩
  · have hget : ∀ y : Elem, (s.elements.alloc y).get s.elements.size = some y := fun y =>
      Heap.get_alloc_self
    simp only [element_new, el_rc_malloc, rc_malloc, update_mk _ (hget _), Heap.put_alloc,
      Option.bind_eq_bind, Option.bind_some]
  · exact Heap.size_alloc

/-! ### A program with a list and a tree -/

/-- A call. `insert` and `deleteElement` are about a node of the list. -/
inductive Op
  | add (junk : Client) (num : BitVec 32) (value : Str)
  | insert (n : ℕ)
  | deleteElement (n : ℕ)
  | deleteList
  | deleteTree
  | print

/-- The list or the tree and the node that the call is about are there. -/
def Op.Valid (s : Containers Store) : Op → Prop
  | add .. | deleteList => s.list ≠ none
  | insert n => s.tree ≠ none ∧ ∃ x, s.listNodes.get n = some x
  | deleteElement n => s.list ≠ none ∧ ∃ x, s.listNodes.get n = some x
  | deleteTree | print => s.tree ≠ none

def Op.run (s : Containers Store) : Op → Option (Containers Store)
  | add junk num value => do
    let (elems, e) ← element_new junk num value s.elems
    Containers.add noCall e { s with elems }
  | insert n => do
    -- `list_node_get_element (n)`
    let x ← s.listNodes.get n
    s.insert calls el_keep_ref noCall x.elem
  | deleteElement n => s.deleteElement calls n
  | deleteList => s.deleteList calls
  | deleteTree => s.deleteTree calls
  | print => (s.print line).map fun _ => s

/-- The calls in any order. -/
def sys : Sys (Containers Store) Op where
  init s := s = initial ⟨.empty, .empty, []⟩
  step s op s' := op.Valid s ∧ op.run s = some s'

/-- Afterwards every element is held by fewer than `2 ^ 31` nodes. -/
def Few (s : Containers Store) (op : Op) : Prop :=
  ∀ s', op.run s = some s' → ∀ e, s'.number e < 2 ^ 31

/-- The references are those of the nodes. -/
abbrev Exact : Containers Store → Prop := Sound Held fun _ => 0

variable {t : Containers Store} {op : Op}

/-- `list_add_element (l, element_new (num, value))`: the list takes the creator's reference. -/
theorem Exact.add (h : Exact t) (hlive : t.list ≠ none) (junk : Client) (num : BitVec 32)
    (value : Str) : ∃ t', (Op.add junk num value).run t = some t' ∧ Exact t' ∧ t'.list ≠ none ∧
      t'.tree = t.tree ∧ t'.treeNodes = t.treeNodes ∧
      ∀ f y, line f t.elems = some y → line f t'.elems = some y := by
  obtain ⟨elems, hnew, -, hheld, hline⟩ := element_new_spec h.held junk num value
  have hone : Held elems fun f =>
      (if t.elems.elements.size = f then 1 else 0) + t.number f := by
    rwa [update_keep (fun f => (if t.elems.elements.size = f then 1 else 0) + t.number f)
      fun f => by rw [Nat.zero_add, Nat.add_comm]] at hheld
  have hlist : Held elems fun f =>
      0 + (t.number f + if t.elems.elements.size = f then 1 else 0) := by
    simpa only [Nat.zero_add, Nat.add_comm] using hone
  have hcall : noCall t.elems.elements.size elems = some elems := rfl
  obtain ⟨t', hadd, hsound, rfl, hlive', htree, -⟩ :=
    Sound.add (Sound.of_elems h hone) hlive hcall hlist
  have hnodes := add_treeNodes hadd
  refine ⟨t', ?_, hsound, hlive', htree, hnodes, hline⟩
  simp only [Op.run, hnew, Option.bind_eq_bind, Option.bind_some, hadd]

/-- `tree_insert_node (t, e)`: the tree takes a reference of its own. -/
theorem Exact.insert (h : Exact t) (hlive : t.tree ≠ none) {x : ListNode}
    (hx : t.listNodes.get n = some x) : ∃ t', (Op.insert n).run t = some t' ∧ Exact t' ∧
      t'.listNodes = t.listNodes ∧ t'.tree ≠ none ∧
      ∀ f, t'.number f = t.number f + if x.elem = f then 1 else 0 := by
  have hpos : 0 < t.number x.elem := number_pos_of_listNode hx
  obtain ⟨elems, hkeep, hheld, -⟩ := el_keep_ref_spec h.held (Nat.add_pos_right 0 hpos)
  rw [update_keep (fun f => 0 + (t.number f + if x.elem = f then 1 else 0))
    fun f => (Nat.add_assoc _ _ _).symm] at hheld
  have hcall : noCall x.elem elems = some elems := rfl
  obtain ⟨t', hins, hsound, -, -, hnodes, htree, hnumber⟩ :=
    Sound.insert h counts_held hlive hkeep hheld (by simp) (fun f => by simp) hcall hheld
  refine ⟨t', ?_, hsound, hnodes, htree, hnumber⟩
  simp only [Op.run, hx, Option.bind_eq_bind, Option.bind_some, hins]

/-- **Every call** succeeds, and the counters stay exact. -/
theorem Exact.run (h : Exact t) (hlt : ∀ e, t.number e < 2 ^ 32) (hv : op.Valid t) :
    ∃ t', op.run t = some t' ∧ Exact t' := by
  have hlt' : ∀ e, 0 + t.number e < 2 ^ 32 := fun e => (Nat.zero_add _).symm ▸ hlt e
  cases op with
  | add junk num value =>
    obtain ⟨t', hrun, hexact, -⟩ := h.add hv junk num value
    exact ⟨t', hrun, hexact⟩
  | insert n =>
    obtain ⟨hlive, x, hx⟩ := hv
    obtain ⟨t', hrun, hexact, -⟩ := h.insert hlive hx
    exact ⟨t', hrun, hexact⟩
  | deleteElement n =>
    obtain ⟨hlive, x, hx⟩ := hv
    obtain ⟨t', hrun, hexact, -⟩ := h.deleteElement counts_held hlive hx hlt'
    exact ⟨t', hrun, hexact⟩
  | deleteList =>
    obtain ⟨t', hrun, hexact, -⟩ := h.deleteList counts_held hv hlt'
    exact ⟨t', hrun, hexact⟩
  | deleteTree =>
    obtain ⟨t', hrun, hexact, -⟩ := h.deleteTree counts_held hv hlt'
    exact ⟨t', hrun, hexact⟩
  | print =>
    have hline : ∀ f, 0 < t.number f → ∃ y, line f t.elems = some y := fun f hf =>
      line_spec h.held (Nat.add_pos_right 0 hf)
    obtain ⟨out, hout⟩ := Sound.print h hv hline
    exact ⟨t, by rw [Op.run, hout, Option.map_some], h⟩

theorem exact_initial : Exact (initial ⟨.empty, .empty, []⟩) := sound_initial held_empty

theorem reach_exact (hr : (sys.restrict Few).Reach t) : Exact t ∧ ∀ e, t.number e < 2 ^ 31 := by
  refine Sys.Reach.invariant (I := fun t => Exact t ∧ ∀ e, t.number e < 2 ^ 31) ?_ ?_ hr
  · rintro _ rfl
    exact ⟨exact_initial, fun e => Nat.lt_of_le_of_lt (number_le _ e) (by decide)⟩
  · rintro t op t' - ⟨hexact, hlt⟩ ⟨hfew, hv, hrun⟩
    obtain ⟨t₁, hrun₁, hexact₁⟩ :=
      hexact.run (fun e => Nat.lt_trans (hlt e) (by decide)) hv
    obtain rfl := Option.some.inj (hrun.symm.trans hrun₁)
    exact ⟨hexact₁, hfew t' hrun⟩

/-- **Both counters are exact.** An element and its string are freed, each once, when no node holds
the element any more, and no call touches what has been freed. -/
structure Counted (t : Containers Store) : Prop where
  counters : ∀ e x, t.elems.elements.get e = some x → x.client.refcount.toInt = t.number e ∧
    x.ref_count.toInt = t.number e ∧ x.client.value = e
  live : ∀ e, ((∃ x, t.elems.elements.get e = some x) ↔ 0 < t.number e) ∧
    ((∃ v, t.elems.strings.get e = some v) ↔ 0 < t.number e)
  freed : ∀ e < t.elems.elements.size,
    (t.elems.freed.count (.element e) = if t.number e = 0 then 1 else 0) ∧
    t.elems.freed.count (.string e) = if t.number e = 0 then 1 else 0
  run : ∀ op : Op, op.Valid t → ∃ t', op.run t = some t'

/-- **Reference counts are exact** in all runs in which no element is held by `2 ^ 31` nodes. -/
theorem counters_exact (hr : (sys.restrict Few).Reach t) : Counted t := by
  obtain ⟨hexact, hlt⟩ := reach_exact hr
  have hheld : Held t.elems t.number := by simpa only [Nat.zero_add] using hexact.held
  refine ⟨fun e x hx => ?_, fun e => ⟨hheld.pos_iff.symm, ?_, fun hpos => ?_⟩, fun e he => ?_,
    fun op hv => ?_⟩
  · obtain ⟨y, -, hy, -, hhas⟩ := hheld.live e (hheld.pos_iff.mpr ⟨x, hx⟩)
    obtain rfl := Option.some.inj (hx.symm.trans hy)
    exact ⟨by rw [hhas.refcount, Counter.toInt_ofNat (hlt e)],
      by rw [hhas.ref_count, Counter.toInt_ofNat (hlt e)], hhas.value⟩
  · rintro ⟨v, hv⟩
    by_contra hzero
    rw [(hheld.gone e (Nat.eq_zero_of_not_pos hzero)).2] at hv
    exact absurd hv nofun
  · obtain ⟨-, v, -, hv, -⟩ := hheld.live e hpos
    exact ⟨v, hv⟩
  · simpa only [he, true_and] using hheld.freed e
  · obtain ⟨t', hrun, -⟩ := hexact.run (fun e => Nat.lt_trans (hlt e) (by decide)) hv
    exact ⟨t', hrun⟩

/-- The list holds one element, with number `1` and the empty string. -/
def single : Containers Store where
  elems := ⟨⟨[some ⟨1, 1, 0, 1⟩]⟩, ⟨[some ⟨[], nofun⟩]⟩, []⟩
  listNodes := ⟨[some ⟨0, none, none⟩]⟩
  list := some ⟨some 0, some 0⟩
  treeNodes := .empty
  tree := some none

/-- The tree holds it, too. -/
def shared : Containers Store where
  elems := ⟨⟨[some ⟨2, 1, 0, 2⟩]⟩, ⟨[some ⟨[], nofun⟩]⟩, []⟩
  listNodes := ⟨[some ⟨0, none, none⟩]⟩
  list := some ⟨some 0, some 0⟩
  treeNodes := ⟨[some ⟨0, none, none⟩]⟩
  tree := some (some 0)

theorem step_single :
    sys.step (initial ⟨.empty, .empty, []⟩) (.add ⟨0, 0, 0⟩ 1 ⟨[], nofun⟩) single :=
  ⟨nofun, rfl⟩

theorem step_shared : sys.step single (.insert 0) shared := ⟨⟨nofun, _, rfl⟩, rfl⟩

theorem counters_exact_shared : Counted shared := by
  have hfew : ∀ t op t', sys.step t op t' → t'.listNodes.size + t'.treeNodes.size ≤ 2 → Few t op :=
    fun t op t' hstep hsize t₁ hrun e => by
      obtain rfl := Option.some.inj (hstep.2.symm.trans hrun)
      exact Nat.lt_of_le_of_lt (Nat.le_trans (number_le _ e) hsize) (by decide)
  have hinit : (sys.restrict Few).Reach (initial ⟨.empty, .empty, []⟩) := .init rfl
  have hsingle := hinit.step_restrict (hfew _ _ _ step_single (by decide)) step_single
  exact counters_exact (hsingle.step_restrict (hfew _ _ _ step_shared (by decide)) step_shared)

/-- Nothing keeps the tree from holding an element any number of times. -/
theorem reach_often (k : ℕ) : ∃ t x, sys.Reach t ∧ Exact t ∧ t.tree ≠ none ∧
    t.listNodes.get 0 = some x ∧ x.elem = 0 ∧ t.number 0 = k + 1 := by
  induction k with
  | zero =>
    have hreach : sys.Reach single := .step (.init rfl) step_single
    obtain ⟨t', hrun, hexact⟩ := exact_initial.run
      (fun e => Nat.lt_of_le_of_lt (number_le _ e) (by decide)) step_single.1
    obtain rfl := Option.some.inj (step_single.2.symm.trans hrun)
    exact ⟨single, _, hreach, hexact, nofun, rfl, rfl, rfl⟩
  | succ k ih =>
    obtain ⟨t, x, hr, hexact, hlive, hx, hzero, hnumber⟩ := ih
    obtain ⟨t', hrun, hexact', hnodes, hlive', hnumber'⟩ := hexact.insert hlive hx
    have hvalid : (Op.insert 0).Valid t := ⟨hlive, x, hx⟩
    refine ⟨t', x, hr.step ⟨hvalid, hrun⟩, hexact', hlive', hnodes ▸ hx, hzero, ?_⟩
    rw [hnumber', hnumber, if_pos hzero]

/-- **A counter of 32 bits** cannot count `2 ^ 31` references. -/
theorem counters_overflow : ¬∀ t, sys.Reach t → ∀ e x, t.elems.elements.get e = some x →
    x.client.refcount.toInt = t.number e ∧ x.ref_count.toInt = t.number e := by
  intro hall
  obtain ⟨t, -, hr, hexact, -, -, -, hnumber⟩ := reach_often (2 ^ 31 - 1)
  have hcount : 0 + t.number 0 = 2 ^ 31 := by omega
  obtain ⟨x, -, hx, -, hhas⟩ := hexact.held.live 0 (by rw [hcount]; decide)
  have hvalue : x.ref_count = BitVec.ofNat 32 (2 ^ 31) := by rw [hhas.ref_count, hcount]
  have hint := (hall t hr 0 x hx).2
  rw [hvalue, hnumber] at hint
  exact absurd hint (by decide)

end IntroSystems.Elements.A5
