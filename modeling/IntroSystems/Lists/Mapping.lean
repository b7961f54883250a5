import IntroSystems.Lib.CString
import IntroSystems.Lib.Heap
import IntroSystems.Lists.Model

/-!
# Mapping over lists

`list_map1` and `list_map2`, which hand the address of an element to a function, and what that
function is to do.

* `Word`, `Mem`: elements, and the memory that they point to.
* `list_map1`, `list_map2`. `junk` is as for the array of `out_list`, and `cell i` is in the memory
  that `malloc` returns in iteration `i`.
* `Assigns`, `WritesThrough`: a call of the documented kind. `assign`: one as in `test.c`.
* `value`: what such a call can see of an element.
* **`Mapped.next`**: a call for a `NULL` appends its result.
-/

set_option autoImplicit false

namespace IntroSystems.Lists

open CString

/-! ### The memory -/

/-- An `element_t`, or an object that one points to. The other half of an `int` is not known. -/
inductive Word
  | null
  | cell (p : ℕ)
  | string (p : ℕ)
  | int (v : BitVec 32)
  deriving DecidableEq

/-- The blocks that `malloc` has returned, and the strings, which are arrays of `char`. -/
structure Mem where
  cells : Heap Word
  strings : Heap (List Byte)

/-- A call of `f (out, ..)`, for the address `out` of an element. -/
abbrev Call := ℕ → Mem → Option Mem

/-! ### The code -/

/-- `malloc (sizeof (element_t))`, where `w` is in the memory that it gets. -/
def mallocElement (w : Word) (m : Mem) : Mem × ℕ :=
  ({ m with cells := m.cells.alloc w }, m.cells.size)

/-- `list_append (out_list, *out); free (out);` -/
def appendOut (junk : ℕ → Word) (out : ℕ) (m : Mem) (out_list : ListStruct Word) :
    Option (Mem × ListStruct Word) := do
  let e ← m.cells.get out
  let out_list ← list_append junk e out_list
  let cells ← m.cells.free out
  some ({ m with cells }, out_list)

/-- What `list_map1` works on, and the positions that it has read, each with the length that the
list had then. -/
structure Map1 where
  mem : Mem
  out_list : ListStruct Word
  reads : List (ℤ × ℤ)

/-- `if (out == NULL) out = malloc (sizeof (element_t));` What is neither `NULL` nor the address of
a block cannot be written to. -/
def outElement (w : Word) (m : Mem) : Word → Option (Mem × ℕ)
  | .null => some (mallocElement w m)
  | .cell p => some (m, p)
  | _ => none

/-- One iteration of `list_map1`. -/
def list_map1_step (f : ℕ → Word → Mem → Option Mem) (junk cell : ℕ → Word)
    (in_list : ListStruct Word) (i : ℤ) (s : Map1) : Option Map1 := do
  let out ← list_get s.out_list i
  let (m, out) ← outElement (cell i.toNat) s.mem out
  let x ← list_get in_list i
  let m ← f out x m
  let (mem, out_list) ← appendOut junk out m s.out_list
  some ⟨mem, out_list, s.reads ++ [(i, s.out_list.len), (i, in_list.len)]⟩

/-- `list_map1 (f, out_list, in_list)`. -/
def list_map1 (f : ℕ → Word → Mem → Option Mem) (junk cell : ℕ → Word)
    (in_list : ListStruct Word) : Map1 → Option Map1 :=
  Loop.up (list_map1_step f junk cell in_list) 0 (list_len in_list).toNat

/-- What `list_map2` works on, and the calls of `f`: `*out` before the call, and the elements. -/
structure Map2 where
  mem : Mem
  out_list : ListStruct Word
  calls : List (Word × Word × Word)

/-- One iteration of `list_map2`. -/
def list_map2_step (f : ℕ → Word → Word → Mem → Option Mem) (junk cell : ℕ → Word)
    (in_list0 in_list1 : ListStruct Word) (i : ℤ) (s : Map2) : Option Map2 := do
  let (m, out) := mallocElement (cell i.toNat) s.mem
  let x ← list_get in_list0 i
  let y ← list_get in_list1 i
  let w ← m.cells.get out
  let m ← f out x y m
  let (mem, out_list) ← appendOut junk out m s.out_list
  some ⟨mem, out_list, s.calls ++ [(w, x, y)]⟩

/-- `list_map2 (f, out_list, in_list0, in_list1)`. -/
def list_map2 (f : ℕ → Word → Word → Mem → Option Mem) (junk cell : ℕ → Word)
    (in_list0 in_list1 : ListStruct Word) : Map2 → Option Map2 :=
  let outlen := if list_len in_list0 < list_len in_list1 then list_len in_list0
    else list_len in_list1
  Loop.up (list_map2_step f junk cell in_list0 in_list1) 0 outlen.toNat

/-! ### The contract of `f` -/

/-- What `m` holds, but for the block `out`, `m'` holds as well. -/
structure Keeps (m m' : Mem) (out : ℕ) : Prop where
  cells : ∀ p < m.cells.size, p ≠ out → m'.cells.get p = m.cells.get p
  strings : m'.strings = m.strings

/-- **`*out == NULL`**: the call allocates an object for its result `x`, and assigns it to `*out`. -/
def Assigns (call : Call) (x : Word) (out : ℕ) (m : Mem) : Prop :=
  ∃ m' r, call out m = some m' ∧ m.cells.size ≤ r ∧ m'.cells.get out = some (.cell r) ∧
    m'.cells.get r = some x ∧ Keeps m m' out

/-- **`*out != NULL`**: the call writes its result `x` to the object `r` there. -/
def WritesThrough (call : Call) (x : Word) (out r : ℕ) (m : Mem) : Prop :=
  ∃ m', call out m = some m' ∧ m'.cells.get out = some (.cell r) ∧ m'.cells.get r = some x ∧
    Keeps m m' r

/-- **A call of the documented kind**, with the result `x`. -/
structure Documented (call : Call) (x : Word) (out : ℕ) (m : Mem) : Prop where
  assigns : m.cells.get out = some .null → Assigns call x out m
  through : ∀ r w, m.cells.get out = some (.cell r) → m.cells.get r = some w → r ≠ out →
    WritesThrough call x out r m

/-- What a function can see of an element: what it points to, or the element itself. -/
inductive Value
  | object (w : Word)
  | text (s : List Byte)
  | plain (w : Word)

/-- `none` is a pointer to what is not there. -/
def value (m : Mem) : Word → Option Value
  | .cell p => (m.cells.get p).map .object
  | .string p => (m.strings.get p).map .text
  | w => some (.plain w)

/-- `if (*r == NULL) *r = malloc (sizeof (int)); **r = x;` -/
def assign (x : Word) : Call := fun out m => do
  let w ← m.cells.get out
  match w with
  | .null => do
    let cells ← (m.cells.alloc x).set out (.cell m.cells.size)
    some { m with cells }
  | .cell r => do
    let cells ← m.cells.set r x
    some { m with cells }
  | _ => none

variable {m m' : Mem} {out p q r : ℕ} {w x : Word}

theorem Documented.congr {call call' : Call} (h : Documented call x out m)
    (heq : call' out m = call out m) : Documented call' x out m := by
  refine ⟨fun hout => ?_, fun r w hout hr hne => ?_⟩
  · rw [Assigns, heq]
    exact h.assigns hout
  · rw [WritesThrough, heq]
    exact h.through r w hout hr hne

theorem assign_documented (x : Word) (out : ℕ) (m : Mem) : Documented (assign x) x out m where
  assigns hout := by
    have hlt : out < m.cells.size := Heap.lt_size hout
    have hout' : (m.cells.alloc x).get out = some .null := Heap.get_alloc_of_get hout
    refine ⟨{ m with cells := (m.cells.alloc x).put out (some (.cell m.cells.size)) },
      m.cells.size, ?_, Nat.le_refl _, Heap.get_put_self hout', ?_, fun p hp hne => ?_, rfl⟩
    · simp only [assign, hout, Heap.set_eq hout', Option.bind_eq_bind, Option.bind_some]
    · rw [Heap.get_put_of_ne (Nat.ne_of_gt hlt), Heap.get_alloc_self]
    · rw [Heap.get_put_of_ne hne, Heap.get_alloc_of_ne (Nat.ne_of_lt hp)]
  through r w hout hr hne := by
    refine ⟨{ m with cells := m.cells.put r (some x) }, ?_, ?_, Heap.get_put_self hr,
      fun p _ hp => Heap.get_put_of_ne hp, rfl⟩
    · simp only [assign, hout, Heap.set_eq hr, Option.bind_eq_bind, Option.bind_some]
    · rw [Heap.get_put_of_ne (Ne.symm hne), hout]

theorem lt_size_of_value {v : Value} (h : value m (.cell p) = some v) : p < m.cells.size := by
  obtain ⟨w, hw, -⟩ := Option.map_eq_some_iff.mp h
  exact Heap.lt_size hw

theorem value_congr {v : Value} (h : value m w = some v)
    (hold : ∀ p < m.cells.size, m'.cells.get p = m.cells.get p)
    (hstrings : m'.strings = m.strings) : value m' w = some v := by
  cases w with
  | cell p => rw [value, hold p (lt_size_of_value h), ← h, value]
  | string p => rw [value, hstrings, ← h, value]
  | null | int v => exact h

section Values

variable {α β : Type} {f : α → Option β} {xs : List α} {ys : List β}

theorem length_of_values (h : xs.map f = ys.map some) : ys.length = xs.length := by
  have hlen := congrArg List.length h
  simpa only [List.length_map] using hlen.symm

theorem getElem_of_values (h : xs.map f = ys.map some) {i : ℕ} (hi : i < xs.length)
    (hi' : i < ys.length) : f xs[i] = some ys[i] := by
  have hmap := congrArg (·[i]?) h
  simpa only [List.getElem?_map, List.getElem?_eq_getElem hi, List.getElem?_eq_getElem hi',
    Option.map_some, Option.some.injEq] using hmap

end Values

/-! ### Calls for `NULL` -/

/-- **The results `xs` have been appended** to a list that contained `outs`: each is a new object.
What there has been before is as it was. -/
structure Mapped (m₀ : Mem) (l₀ : ListStruct Word) (outs xs : List Word) (m : Mem)
    (l : ListStruct Word) : Prop where
  results : ∃ rs : List ℕ, Appended l₀ outs (rs.map .cell) l ∧ rs.Nodup ∧
    (∀ r ∈ rs, m₀.cells.size ≤ r) ∧ rs.map m.cells.get = xs.map some
  size : m₀.cells.size ≤ m.cells.size
  old : ∀ p < m₀.cells.size, m.cells.get p = m₀.cells.get p
  strings : m.strings = m₀.strings

variable {m₀ : Mem} {l₀ l : ListStruct Word} {outs xs : List Word}

theorem mapped_nil (h : Contains l₀ outs) : Mapped m₀ l₀ outs [] m₀ l₀ where
  results := ⟨[], appended_nil h, .nil, nofun, rfl⟩
  size := Nat.le_refl _
  old _ _ := rfl
  strings := rfl

theorem Mapped.seen (h : Mapped m₀ l₀ outs xs m l) {v : Value} (hx : value m₀ x = some v) :
    value (mallocElement .null m).1 x = some v ∧ x ≠ .cell m.cells.size := by
  refine ⟨value_congr hx (fun p hp => ?_) h.strings, ?_⟩
  · rw [mallocElement, Heap.get_alloc_of_ne (Nat.ne_of_lt (Nat.lt_of_lt_of_le hp h.size)),
      h.old p hp]
  · rintro rfl
    exact absurd (lt_size_of_value hx) (Nat.not_lt.mpr h.size)

/-- **One result more.** -/
theorem Mapped.next (h : Mapped m₀ l₀ outs xs m l) (junk : ℕ → Word) {n : ℕ} (hfits : Fits l₀ n)
    (hn : xs.length < n) {call : Call}
    (hcall : Assigns call x m.cells.size (mallocElement .null m).1) :
    ∃ m₁ m' l', call m.cells.size (mallocElement .null m).1 = some m₁ ∧
      appendOut junk m.cells.size m₁ l = some (m', l') ∧ Mapped m₀ l₀ outs (xs ++ [x]) m' l' := by
  obtain ⟨rs, happ, hnodup, hnew, hall⟩ := h.results
  obtain ⟨m₁, r, hrun, hr, hout, hx, hkeep, hstrings⟩ := hcall
  rw [mallocElement, Heap.size_alloc] at hr hkeep
  have hlen : (rs.map Word.cell).length < n := by
    have := congrArg List.length hall
    simp only [List.length_map] at this ⊢
    omega
  obtain ⟨l', hl', happ'⟩ := happ.append junk hfits hlen (.cell r)
  have hlive : ∀ p ∈ rs, p < m.cells.size := fun p hp => by
    have hmem : m.cells.get p ∈ xs.map some := hall ▸ List.mem_map_of_mem hp
    obtain ⟨x, -, hpx⟩ := List.mem_map.mp hmem
    exact Heap.lt_size hpx.symm
  have hsame : ∀ p < m.cells.size, (m₁.cells.put m.cells.size none).get p = m.cells.get p := by
    intro p hp
    rw [Heap.get_put_of_ne (Nat.ne_of_lt hp), hkeep p (Nat.lt_succ_of_lt hp) (Nat.ne_of_lt hp),
      Heap.get_alloc_of_ne (Nat.ne_of_lt hp)]
  refine ⟨m₁, { m₁ with cells := m₁.cells.put m.cells.size none }, l', hrun, ?_,
    ⟨rs ++ [r], ?_, ?_, ?_, ?_⟩, ?_, fun p hp => ?_, hstrings.trans h.strings⟩
  · simp only [appendOut, hout, hl', Heap.free_eq hout, Option.bind_eq_bind, Option.bind_some]
  · rwa [List.map_append]
  · refine List.nodup_append.mpr ⟨hnodup, List.nodup_singleton r, fun p hp q hq => ?_⟩
    rw [List.mem_singleton.mp hq]
    exact Nat.ne_of_lt (Nat.lt_of_lt_of_le (hlive p hp) (Nat.le_of_succ_le hr))
  · intro p hp
    rcases List.mem_append.mp hp with hp | hp
    · exact hnew p hp
    · rw [List.mem_singleton.mp hp]
      exact Nat.le_trans h.size (Nat.le_of_succ_le hr)
  · have hne : r ≠ m.cells.size := Nat.ne_of_gt hr
    rw [List.map_append, List.map_append, ← hall,
      List.map_congr_left fun p hp => hsame p (hlive p hp)]
    simp only [List.map_cons, List.map_nil, Heap.get_put_of_ne hne, hx]
  · rw [Heap.size_put]
    have := Heap.lt_size hout
    have := h.size
    omega
  · rw [hsame p (Nat.lt_of_lt_of_le hp h.size), h.old p hp]

/-! ### The iterations of `list_map2` -/

theorem outlen_eq {in_list0 in_list1 : ListStruct Word} {ins0 ins1 : List Word}
    (h₀ : Contains in_list0 ins0) (h₁ : Contains in_list1 ins1) :
    (if list_len in_list0 < list_len in_list1 then list_len in_list0
      else list_len in_list1).toNat = min ins0.length ins1.length := by
  rw [list_len, list_len, h₀.len, h₁.len]
  split <;> omega

section Rule

variable {f : ℕ → Word → Word → Mem → Option Mem} {junk cell : ℕ → Word}
  {in_list0 in_list1 : ListStruct Word} {ins0 ins1 es : List Word} {e : Word} {n : ℕ} {s : Map2}

theorem list_map2_step_eq (h₀ : Contains in_list0 ins0) (h₁ : Contains in_list1 ins1)
    (hes : Appended l₀ outs es s.out_list) (hfits : Fits l₀ n) (hn : es.length < n)
    (hlt₀ : es.length < ins0.length) (hlt₁ : es.length < ins1.length)
    (hf : f s.mem.cells.size ins0[es.length] ins1[es.length]
      (mallocElement (cell es.length) s.mem).1 = some m')
    (he : m'.cells.get s.mem.cells.size = some e) :
    ∃ s', list_map2_step f junk cell in_list0 in_list1 es.length s = some s' ∧
      Appended l₀ outs (es ++ [e]) s'.out_list ∧ s'.mem.strings = m'.strings := by
  obtain ⟨l', happ, hes'⟩ := hes.append junk hfits hn e
  rw [mallocElement] at hf
  refine ⟨⟨{ m' with cells := m'.cells.put s.mem.cells.size none }, l',
    s.calls ++ [(cell es.length, ins0[es.length], ins1[es.length])]⟩, ?_, hes', rfl⟩
  simp only [list_map2_step, appendOut, mallocElement, Int.toNat_natCast, h₀.get hlt₀, h₁.get hlt₁,
    Heap.get_alloc_self, hf, he, happ, Heap.free_eq he, Option.bind_eq_bind, Option.bind_some]

/-- **The invariant rule of `list_map2`**: `I es m` holds when the elements `es` have been
appended. Blocks that are allocated and freed do not count. -/
theorem list_map2_rule (f : ℕ → Word → Word → Mem → Option Mem) (junk cell : ℕ → Word) (m₀ : Mem)
    (I : List Word → Mem → Prop)
    (hcongr : ∀ es m m', m'.strings = m.strings → I es m → I es m')
    (h₀ : Contains in_list0 ins0) (h₁ : Contains in_list1 ins1) (hl : Contains l₀ outs)
    (hfits : Fits l₀ (min ins0.length ins1.length))
    (hstep : ∀ es m out w, (hlt₀ : es.length < ins0.length) → (hlt₁ : es.length < ins1.length) →
      I es m → m.cells.get out = some w → ∃ m' e,
        f out ins0[es.length] ins1[es.length] m = some m' ∧ m'.cells.get out = some e ∧
        I (es ++ [e]) m') (hI : I [] m₀) :
    ∃ s es, list_map2 f junk cell in_list0 in_list1 ⟨m₀, l₀, []⟩ = some s ∧
      Contains s.out_list (outs ++ es) ∧ es.length = min ins0.length ins1.length ∧ I es s.mem := by
  have hloop := Loop.up_spec (list_map2_step f junk cell in_list0 in_list1)
    (fun j s => ∃ es : List Word, Appended l₀ outs es s.out_list ∧ es.length = j ∧ I es s.mem)
    (a := 0) (k := min ins0.length ins1.length) (s := ⟨m₀, l₀, []⟩)
  obtain ⟨s, hrun, es, hes, hlen, hI'⟩ := hloop (fun j hj s hs => by
    obtain ⟨es, hes, rfl, hI⟩ := hs
    have hlt₀ : es.length < ins0.length := Nat.lt_of_lt_of_le hj (Nat.min_le_left _ _)
    have hlt₁ : es.length < ins1.length := Nat.lt_of_lt_of_le hj (Nat.min_le_right _ _)
    have hI₁ : I es (mallocElement (cell es.length) s.mem).1 := hcongr es s.mem _ rfl hI
    obtain ⟨m', e, hf, he, hI'⟩ := hstep es _ _ _ hlt₀ hlt₁ hI₁ Heap.get_alloc_self
    obtain ⟨s', hs', hes', hstrings⟩ := list_map2_step_eq h₀ h₁ hes hfits hj hlt₀ hlt₁ hf he
    refine ⟨s', by rw [Int.zero_add, hs'], es ++ [e], hes', ?_, hcongr _ m' _ hstrings hI'⟩
    rw [List.length_append, List.length_singleton]) ⟨[], appended_nil hl, rfl, hI⟩
  refine ⟨s, es, ?_, hes.contains, hlen, hI'⟩
  simp only [list_map2, outlen_eq h₀ h₁, hrun]

end Rule

/-! ### Two objects -/

/-- The memory with the `int` objects `1` and `2`. -/
def twoInts : Mem := ⟨⟨[some (.int 1), some (.int 2)]⟩, .empty⟩

/-- A list with the one element `e`, and `NULL` in the rest of its array. -/
def listOf (e : Word) : ListStruct Word := ⟨e :: List.replicate 9 .null, 1, 10⟩

theorem contains_listOf (e : Word) : Contains (listOf e) [e] := by
  have happ : list_append (fun _ => .null) e (list_create fun _ => .null) = some (listOf e) := rfl
  exact contains_of_append (contains_create fun _ => .null) happ

/-- A list of up to `INITIAL_SIZE` elements. -/
def arrayOf (es : List Word) : ListStruct Word :=
  ⟨es ++ List.replicate (10 - es.length) .null, es.length, 10⟩

theorem contains_arrayOf {es : List Word} (h : es.length ≤ 10) : Contains (arrayOf es) es where
  len := rfl
  size := by
    simp only [arrayOf, List.length_append, List.length_replicate]
    omega
  size_lt := by
    simp only [arrayOf]
    decide
  front := List.prefix_append _ _

end IntroSystems.Lists
