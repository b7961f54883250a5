import IntroSystems.Elements.Classes
import IntroSystems.Elements.Containers

/-!
# Reference counts in assignment 7

`refcount.c`, with finalizers, and the memory of the elements of `int_element.c` and
`str_element.c`.

* `rc_keep_ref`, `rc_free_ref`, `int_element_new`, `str_element_new`.
* `Held s c`: the counter of each element `e` is `c e`. **`counts_held`**.
-/

set_option autoImplicit false

namespace IntroSystems.Elements.A7

open CString

/-! ### The code -/

/-- The functions that are given to `rc_malloc`. -/
inductive Finalizer
  | int_elem_finalizer
  | str_element_finalizer
  deriving DecidableEq

/-- An element of either class. The string of a `str_element` is at `value`. -/
inductive Object
  | int (value : BitVec 32)
  | str (value : ℕ)
  deriving DecidableEq

/-- A block of `rc_malloc`: `struct rc_header`, and what the client writes behind it. -/
structure Block where
  refcount : BitVec 32
  finalizer : Option Finalizer
  object : Option Object

/-- A finalizer has run on an element, or `free` on its block. -/
inductive Event
  | finalized (e : ℕ)
  | freed (e : ℕ)
  deriving DecidableEq

def Event.elem : Event → ℕ
  | finalized e | freed e => e

/-- The memory of the elements. `events` are in the order of the run. -/
structure Store where
  blocks : Heap Block
  strings : Heap Str
  events : List Event

/-- `*e = f (*e)`. -/
def update (e : ℕ) (f : Block → Block) (s : Store) : Option Store := do
  let x ← s.blocks.get e
  let blocks ← s.blocks.set e (f x)
  some { s with blocks }

/-- `rc_malloc (nbytes, finalizer)`. -/
def rc_malloc (finalizer : Option Finalizer) (s : Store) : Store × ℕ :=
  ({ s with blocks := s.blocks.alloc { refcount := 1, finalizer, object := none } }, s.blocks.size)

def rc_keep_ref (e : ℕ) (s : Store) : Option Store :=
  update e (fun x => { x with refcount := x.refcount + 1 }) s

/-- `finalizer (p)`. -/
def Finalizer.run (e : ℕ) (s : Store) : Finalizer → Option Store
  | int_elem_finalizer => some { s with events := s.events ++ [.finalized e] }
  | str_element_finalizer => do
    let x ← s.blocks.get e
    match x.object with
    | some (.str value) => do
      let strings ← s.strings.free value
      some { s with strings, events := s.events ++ [.finalized e] }
    | _ => none

def rc_free_ref (e : ℕ) (s : Store) : Option Store := do
  let s ← update e (fun x => { x with refcount := x.refcount - 1 }) s
  let x ← s.blocks.get e
  if x.refcount = 0 then do
    let s ← match x.finalizer with
      | some finalizer => finalizer.run e s
      | none => some s
    let blocks ← s.blocks.free e
    some { s with blocks, events := s.events ++ [.freed e] }
  else some s

def int_element_new (value : BitVec 32) (s : Store) : Option (Store × ℕ) := do
  let (s, e) := rc_malloc (some .int_elem_finalizer) s
  let s ← update e (fun x => { x with object := some (.int value) }) s
  some (s, e)

def str_element_new (value : Str) (s : Store) : Option (Store × ℕ) := do
  let (s, e) := rc_malloc (some .str_element_finalizer) s
  -- `strdup (value)`
  let p := s.strings.size
  let s := { s with strings := s.strings.alloc value }
  let s ← update e (fun x => { x with object := some (.str p) }) s
  some (s, e)

variable (link : Link) (address : ℕ → BitVec 64)

/-- The element at `e`, where `address` are the addresses of strings as numbers. -/
def element (e : ℕ) (s : Store) : Option Element := do
  let x ← s.blocks.get e
  match x.object with
  | some (.int value) => some (.int value)
  | some (.str value) => (s.strings.get value).map (.str (address value))
  | none => none

/-- `e->class->compare(e, f)`. -/
def compareElements (e f : ℕ) (s : Store) : Option ℤ := do
  let a ← element address e s
  let b ← element address f s
  compare link a b

/-- What `list.c` and `tree.c` of this assignment call. -/
def calls : Calls Store where
  keep_ref := rc_keep_ref
  free_ref := rc_free_ref
  compare := compareElements link address

/-- `tree_insert_node` calls nothing before the way down. -/
def noCall (_ : ℕ) (s : Store) : Option Store := some s

/-! ### What the counters are for -/

/-- The finalizer that goes with an object. -/
def Object.finalizer : Object → Finalizer
  | int _ => .int_elem_finalizer
  | str _ => .str_element_finalizer

/-- The block counts `n` references to an object. -/
structure Block.Has (x : Block) (n : ℕ) (o : Object) : Prop where
  refcount : x.refcount = BitVec.ofNat 32 n
  finalizer : x.finalizer = some o.finalizer
  object : x.object = some o

/-- The block at `e` has the string at `p`. -/
def Owns (s : Store) (e p : ℕ) : Prop := ∃ x, s.blocks.get e = some x ∧ x.object = some (.str p)

/-- What has happened to `e`. -/
def Store.eventsOf (s : Store) (e : ℕ) : List Event := s.events.filter fun v => v.elem = e

/-- **The counter of each element `e` is `c e`**, and at `0` it has been finalized and freed. The
strings are those of the elements. -/
structure Held (s : Store) (c : ℕ → ℕ) : Prop where
  live : ∀ e, 0 < c e → ∃ x o, s.blocks.get e = some x ∧ x.Has (c e) o
  gone : ∀ e, c e = 0 → s.blocks.get e = none
  string : ∀ e p, Owns s e p → ∃ t, s.strings.get p = some t
  owner : ∀ p t, s.strings.get p = some t → ∃ e, Owns s e p
  distinct : ∀ e f p, Owns s e p → Owns s f p → e = f
  events : ∀ e, s.eventsOf e =
    if e < s.blocks.size ∧ c e = 0 then [.finalized e, .freed e] else []

variable {link : Link} {address : ℕ → BitVec 64}

variable {s : Store} {c : ℕ → ℕ} {e f n p : ℕ} {x y : Block} {o : Object}

theorem update_eq (g : Block → Block) (hx : s.blocks.get e = some x) :
    update e g s = some { s with blocks := s.blocks.put e (some (g x)) } := by
  simp only [update, hx, Heap.set_eq hx, Option.bind_eq_bind, Option.bind_some]

theorem update_mk {blocks : Heap Block} {strings : Heap Str} {events : List Event}
    (g : Block → Block) (hx : blocks.get e = some x) : update e g ⟨blocks, strings, events⟩ =
      some ⟨blocks.put e (some (g x)), strings, events⟩ :=
  update_eq (s := ⟨blocks, strings, events⟩) g hx

theorem Held.pos_iff (h : Held s c) : 0 < c e ↔ ∃ x, s.blocks.get e = some x := by
  constructor
  · intro hpos
    obtain ⟨x, -, hx, -⟩ := h.live e hpos
    exact ⟨x, hx⟩
  · rintro ⟨x, hx⟩
    by_contra hzero
    rw [h.gone e (Nat.eq_zero_of_not_pos hzero)] at hx
    exact absurd hx nofun

theorem Held.lt_size (h : Held s c) (hpos : 0 < c e) : e < s.blocks.size := by
  obtain ⟨x, hx⟩ := h.pos_iff.mp hpos
  exact Heap.lt_size hx

theorem held_empty : Held ⟨.empty, .empty, []⟩ fun _ => 0 where
  live _ h := absurd h (Nat.lt_irrefl _)
  gone _ _ := rfl
  string _ _ h := by
    obtain ⟨x, hx, -⟩ := h
    exact absurd hx nofun
  owner _ _ h := absurd h nofun
  distinct _ _ _ h := by
    obtain ⟨x, hx, -⟩ := h
    exact absurd hx nofun
  events _ := rfl

theorem Held.put (h : Held s c) (hx : s.blocks.get e = some x) (hn : 0 < n) (hy : y.Has n o)
    (ho : x.object = some o) :
    Held { s with blocks := s.blocks.put e (some y) } (Function.update c e n) := by
  have hpos : 0 < c e := h.pos_iff.mpr ⟨x, hx⟩
  have howns : ∀ f p, Owns { s with blocks := s.blocks.put e (some y) } f p ↔ Owns s f p := by
    intro f p
    by_cases hfe : f = e
    · subst hfe
      simp [Owns, Heap.get_put_self hx, hx, hy.object, ho]
    · simp only [Owns, Heap.get_put_of_ne hfe]
  refine ⟨fun f hf => ?_, fun f hf => ?_, fun f p hf => ?_, fun p t ht => ?_,
    fun f g p hf hg => ?_, fun f => ?_⟩
  · by_cases hfe : f = e
    · rw [hfe, Function.update_self]
      exact ⟨y, o, Heap.get_put_self hx, hy⟩
    · rw [Function.update_of_ne hfe] at hf ⊢
      rw [Heap.get_put_of_ne hfe]
      exact h.live f hf
  · have hfe : f ≠ e := by
      rintro rfl
      rw [Function.update_self] at hf
      exact Nat.ne_of_gt hn hf
    rw [Function.update_of_ne hfe] at hf
    rw [Heap.get_put_of_ne hfe]
    exact h.gone f hf
  · exact h.string f p ((howns f p).mp hf)
  · obtain ⟨f, hf⟩ := h.owner p t ht
    exact ⟨f, (howns f p).mpr hf⟩
  · exact h.distinct f g p ((howns f p).mp hf) ((howns g p).mp hg)
  · simp only [Heap.size_put, update_eq_zero hn hpos]
    exact h.events f

/-- The strings after the finalizer of `o`. -/
def Object.finalize (o : Object) (strings : Heap Str) : Heap Str :=
  match o with
  | int _ => strings
  | str p => strings.put p none

theorem get_finalize {strings : Heap Str} (hp : o ≠ .str p) :
    (o.finalize strings).get p = strings.get p := by
  cases o with
  | int value => rfl
  | str q => exact Heap.get_put_of_ne fun h => hp (h ▸ rfl)

/-- The memory after `e`, with the object `o`, has been finalized and freed. -/
def Store.drop (s : Store) (e : ℕ) (o : Object) : Store where
  blocks := s.blocks.put e none
  strings := o.finalize s.strings
  events := s.events ++ [.finalized e] ++ [.freed e]

@[simp] theorem drop_blocks : (s.drop e o).blocks = s.blocks.put e none := rfl

@[simp] theorem drop_strings : (s.drop e o).strings = o.finalize s.strings := rfl

theorem eventsOf_drop (e f : ℕ) (o : Object) : (s.drop e o).eventsOf f =
    s.eventsOf f ++ (if e = f then [.finalized e, .freed e] else []) := by
  rw [Store.eventsOf, Store.drop, List.filter_append, List.filter_append, List.append_assoc]
  by_cases hf : e = f
  · simp [Store.eventsOf, Event.elem, hf]
  · simp [Store.eventsOf, Event.elem, hf]

theorem Held.drop (h : Held s c) (hx : s.blocks.get e = some x) (ho : x.object = some o) :
    Held (s.drop e o) (Function.update c e 0) := by
  have hpos : 0 < c e := h.pos_iff.mpr ⟨x, hx⟩
  have howns : ∀ f p, Owns (s.drop e o) f p ↔ f ≠ e ∧ Owns s f p := by
    intro f p
    by_cases hfe : f = e
    · simp [Owns, Store.drop, hfe, Heap.get_put_self hx]
    · simp only [Owns, Store.drop, Heap.get_put_of_ne hfe, ne_eq, hfe, not_false_eq_true, true_and]
  -- no other block has the string of `o`
  have hother : ∀ f p, f ≠ e → Owns s f p → o ≠ .str p := by
    rintro f p hfe hf rfl
    exact hfe (h.distinct f e p hf ⟨x, hx, ho⟩)
  refine ⟨fun f hf => ?_, fun f hf => ?_, fun f p hf => ?_, fun p t ht => ?_,
    fun f g p hf hg => ?_, fun f => ?_⟩
  · have hfe : f ≠ e := by
      rintro rfl
      rw [Function.update_self] at hf
      exact Nat.lt_irrefl 0 hf
    rw [Function.update_of_ne hfe] at hf ⊢
    rw [drop_blocks, Heap.get_put_of_ne hfe]
    exact h.live f hf
  · by_cases hfe : f = e
    · rw [hfe]
      exact Heap.get_put_self hx
    · rw [Function.update_of_ne hfe] at hf
      rw [drop_blocks, Heap.get_put_of_ne hfe]
      exact h.gone f hf
  · obtain ⟨hfe, hf⟩ := (howns f p).mp hf
    obtain ⟨t, ht⟩ := h.string f p hf
    exact ⟨t, (get_finalize (hother f p hfe hf)).trans ht⟩
  · have hp : o ≠ .str p := by
      rintro rfl
      obtain ⟨t', ht'⟩ := h.string e p ⟨x, hx, ho⟩
      rw [drop_strings, Object.finalize, Heap.get_put_self ht'] at ht
      exact absurd ht nofun
    obtain ⟨f, hf⟩ := h.owner p t ((get_finalize hp).symm.trans ht)
    refine ⟨f, (howns f p).mpr ⟨?_, hf⟩⟩
    rintro rfl
    obtain ⟨y, hy, hyo⟩ := hf
    obtain rfl := Option.some.inj (hx.symm.trans hy)
    exact hp (Option.some.inj (ho.symm.trans hyo))
  · exact h.distinct f g p ((howns f p).mp hf).2 ((howns g p).mp hg).2
  · rw [eventsOf_drop, h.events f]
    by_cases hfe : f = e
    · subst hfe
      rw [if_neg fun hc => Nat.ne_of_gt hpos hc.2, if_pos rfl, Function.update_self,
        drop_blocks, Heap.size_put, if_pos ⟨Heap.lt_size hx, rfl⟩, List.nil_append]
    · rw [if_neg (Ne.symm hfe), List.append_nil, Function.update_of_ne hfe, drop_blocks,
        Heap.size_put]

theorem Held.new (h : Held s c) (hy : y.Has 1 o) (strings : Heap Str)
    (hsame : ∀ p, o ≠ .str p → strings.get p = s.strings.get p)
    (hnew : ∀ p, o = .str p → s.strings.get p = none ∧ ∃ t, strings.get p = some t) :
    Held { s with blocks := s.blocks.alloc y, strings }
      (Function.update c s.blocks.size (c s.blocks.size + 1)) := by
  have hzero : c s.blocks.size = 0 := Nat.eq_zero_of_not_pos fun hpos =>
    Nat.lt_irrefl _ (h.lt_size hpos)
  have howns : ∀ f p, Owns { s with blocks := s.blocks.alloc y, strings } f p ↔
      Owns s f p ∨ f = s.blocks.size ∧ o = .str p := by
    intro f p
    by_cases hfe : f = s.blocks.size
    · simp [Owns, hfe, hy.object, Heap.get_size]
    · simp only [Owns, Heap.get_alloc_of_ne hfe, hfe, false_and, or_false]
  have hold : ∀ f p, Owns s f p → o ≠ .str p := by
    intro f p hf ho
    obtain ⟨t, ht⟩ := h.string f p hf
    rw [(hnew p ho).1] at ht
    exact absurd ht nofun
  rw [hzero]
  refine ⟨fun f hf => ?_, fun f hf => ?_, fun f p hf => ?_, fun p t ht => ?_,
    fun f g p hf hg => ?_, fun f => ?_⟩
  · by_cases hfe : f = s.blocks.size
    · rw [hfe, Function.update_self]
      exact ⟨y, o, Heap.get_alloc_self, hy⟩
    · rw [Function.update_of_ne hfe] at hf ⊢
      rw [Heap.get_alloc_of_ne hfe]
      exact h.live f hf
  · have hfe : f ≠ s.blocks.size := by
      rintro rfl
      rw [Function.update_self] at hf
      exact absurd hf nofun
    rw [Function.update_of_ne hfe] at hf
    rw [Heap.get_alloc_of_ne hfe]
    exact h.gone f hf
  · rcases (howns f p).mp hf with hf | ⟨-, ho⟩
    · obtain ⟨t, ht⟩ := h.string f p hf
      exact ⟨t, (hsame p (hold f p hf)).trans ht⟩
    · exact (hnew p ho).2
  · by_cases ho : o = .str p
    · exact ⟨s.blocks.size, (howns _ p).mpr (.inr ⟨rfl, ho⟩)⟩
    · obtain ⟨f, hf⟩ := h.owner p t ((hsame p ho).symm.trans ht)
      exact ⟨f, (howns f p).mpr (.inl hf)⟩
  · rcases (howns f p).mp hf with hf | ⟨rfl, ho⟩
    · rcases (howns g p).mp hg with hg | ⟨-, ho⟩
      · exact h.distinct f g p hf hg
      · exact absurd ho (hold f p hf)
    · rcases (howns g p).mp hg with hg | ⟨rfl, -⟩
      · exact absurd ho (hold g p hg)
      · rfl
  · simp only [Heap.size_alloc, update_new_eq_zero]
    exact h.events f

/-! ### What the functions do -/

theorem rc_keep_ref_spec (h : Held s c) (hpos : 0 < c e) :
    ∃ s', rc_keep_ref e s = some s' ∧ Held s' (Function.update c e (c e + 1)) := by
  obtain ⟨x, o, hx, hhas⟩ := h.live e hpos
  exact ⟨_, update_eq _ hx, h.put hx (Nat.succ_pos _)
    ⟨counter_succ hhas.refcount, hhas.finalizer, hhas.object⟩ hhas.object⟩

theorem finalizer_spec (h : Held s c) {blocks : Heap Block} (hx : s.blocks.get e = some x)
    (ho : x.object = some o) (hy : blocks.get e = some y) (hyo : y.object = some o) :
    o.finalizer.run e { s with blocks } = some { blocks, strings := o.finalize s.strings,
                                                 events := s.events ++ [.finalized e] } := by
  cases o with
  | int value => rfl
  | str p =>
    obtain ⟨t, ht⟩ := h.string e p ⟨x, hx, ho⟩
    simp only [Object.finalizer, Finalizer.run, hy, hyo, Heap.free_eq ht, Option.bind_eq_bind,
      Option.bind_some, Object.finalize]

theorem rc_free_ref_spec (h : Held s c) (hpos : 0 < c e) (hlt : c e < 2 ^ 32) :
    ∃ s', rc_free_ref e s = some s' ∧ Held s' (Function.update c e (c e - 1)) := by
  obtain ⟨n, hn⟩ := Nat.exists_eq_succ_of_ne_zero (Nat.ne_of_gt hpos)
  obtain ⟨⟨v, finalizer, object⟩, o, hx, hhas⟩ := h.live e hpos
  rw [hn, Nat.succ_sub_one]
  rw [hn] at hhas hlt
  obtain rfl : finalizer = some o.finalizer := hhas.finalizer
  obtain rfl : object = some o := hhas.object
  have hx₁ : (s.blocks.put e (some ⟨v - 1, some o.finalizer, some o⟩)).get e =
      some ⟨v - 1, some o.finalizer, some o⟩ := Heap.get_put_self hx
  have hv : v - 1 = 0 ↔ n = 0 := by
    rw [counter_pred hhas.refcount, ofNat_eq_zero (Nat.lt_of_succ_lt hlt)]
  cases n with
  | zero =>
    refine ⟨_, ?_, h.drop hx rfl⟩
    simp only [rc_free_ref, update_eq _ hx, Option.bind_eq_bind, Option.bind_some, hx₁,
      if_pos (hv.mpr rfl), finalizer_spec h hx rfl hx₁ rfl, Heap.free_eq hx₁, Heap.put_put,
      Store.drop]
  | succ n =>
    have hpred : Block.Has ⟨v - 1, some o.finalizer, some o⟩ (n + 1) o :=
      ⟨counter_pred hhas.refcount, rfl, rfl⟩
    refine ⟨_, ?_, h.put hx (Nat.succ_pos _) hpred rfl⟩
    simp only [rc_free_ref, update_eq _ hx, Option.bind_eq_bind, Option.bind_some, hx₁,
      if_neg (hv.not.mpr (Nat.succ_ne_zero n))]

variable (link address)

theorem element_spec (h : Held s c) (hpos : 0 < c e) : ∃ a, element address e s = some a := by
  obtain ⟨x, o, hx, hhas⟩ := h.live e hpos
  cases o with
  | int value =>
    exact ⟨.int value, by simp only [element, hx, hhas.object, Option.bind_eq_bind,
      Option.bind_some]⟩
  | str p =>
    obtain ⟨t, ht⟩ := h.string e p ⟨x, hx, hhas.object⟩
    exact ⟨.str (address p) t, by simp only [element, hx, hhas.object, ht, Option.bind_eq_bind,
      Option.bind_some, Option.map_some]⟩

theorem compareElements_spec (h : Held s c) (he : 0 < c e) (hf : 0 < c f) :
    ∃ r, compareElements link address e f s = some r := by
  obtain ⟨a, ha⟩ := element_spec address h he
  obtain ⟨b, hb⟩ := element_spec address h hf
  obtain ⟨r, hr⟩ := compare_isSome link a b
  exact ⟨r, by simp only [compareElements, ha, hb, hr, Option.bind_eq_bind, Option.bind_some]⟩

/-- **`rc_keep_ref` and `rc_free_ref` count references.** -/
theorem counts_held : Counts (calls link address) Held where
  keep := rc_keep_ref_spec
  free := rc_free_ref_spec
  compare := compareElements_spec link address

theorem int_element_new_spec (h : Held s c) (value : BitVec 32) :
    ∃ s', int_element_new value s = some (s', s.blocks.size) ∧
      Held s' (Function.update c s.blocks.size (c s.blocks.size + 1)) := by
  have hget : ∀ y : Block, (s.blocks.alloc y).get s.blocks.size = some y := fun y =>
    Heap.get_alloc_self
  have hhas : Block.Has ⟨1, some .int_elem_finalizer, some (.int value)⟩ 1 (.int value) :=
    ⟨rfl, rfl, rfl⟩
  refine ⟨_, ?_, h.new hhas s.strings (fun p _ => rfl) nofun⟩
  simp only [int_element_new, rc_malloc, update_mk _ (hget _), Heap.put_alloc,
    Option.bind_eq_bind, Option.bind_some]

theorem str_element_new_spec (h : Held s c) (value : Str) :
    ∃ s', str_element_new value s = some (s', s.blocks.size) ∧
      Held s' (Function.update c s.blocks.size (c s.blocks.size + 1)) := by
  have hget : ∀ y : Block, (s.blocks.alloc y).get s.blocks.size = some y := fun y =>
    Heap.get_alloc_self
  have hhas : Block.Has ⟨1, some .str_element_finalizer, some (.str s.strings.size)⟩ 1
      (.str s.strings.size) := ⟨rfl, rfl, rfl⟩
  refine ⟨_, ?_, h.new hhas (s.strings.alloc value) (fun p hp => ?_) fun p hp => ?_⟩
  · simp only [str_element_new, rc_malloc, update_mk _ (hget _), Heap.put_alloc,
      Option.bind_eq_bind, Option.bind_some]
  · exact Heap.get_alloc_of_ne fun h => hp (h ▸ rfl)
  · obtain rfl := Object.str.inj hp
    exact ⟨Heap.get_size, value, Heap.get_alloc_self⟩

end IntroSystems.Elements.A7
