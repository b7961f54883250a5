import IntroSystems.Lib.Loop
import Mathlib.Algebra.Order.Ring.Int
import Mathlib.Data.List.Basic
import Mathlib.Tactic.Common
import Mathlib.Tactic.Ring

/-!
# Growable arrays

`list.c` of assignment 8, but for `list_map1` and `list_map2`. `junk i` is what is in element `i` of
the array of a list before something is stored there. `none` is undefined behaviour: a position
outside of the array, or an `int` that overflows.

* `list_create`, `list_append`, `list_append_array`, `list_insert`, `list_remove`, `list_get`,
  `list_index`, `list_len`, `list_foldl`, `list_filter`, `list_foreach`.
* `Contains`: the values that a list is for. `Fits`: whether there is room for more.
* **`list_append_spec`**, **`list_insert_spec`**, **`list_remove_spec`**, and so on.
-/

set_option autoImplicit false

namespace IntroSystems.Lists

variable {α M : Type}

/-! ### The code -/

def INITIAL_SIZE : ℤ := 10

def GROWTH_FACTOR : ℤ := 5

/-- `struct list`, with what is in the array. -/
structure ListStruct (α : Type) where
  data : List α
  len : ℤ
  size : ℤ

/-- An `int`. -/
def int (v : ℤ) : Option ℤ := if -2 ^ 31 ≤ v ∧ v < 2 ^ 31 then some v else none

namespace ListStruct

/-- `list->data [i]`. -/
def read (list : ListStruct α) (i : ℤ) : Option α := if 0 ≤ i then list.data[i.toNat]? else none

/-- `list->data [i] = e`. -/
def write (list : ListStruct α) (i : ℤ) (e : α) : Option (ListStruct α) :=
  if 0 ≤ i ∧ i < list.data.length then some { list with data := list.data.set i.toNat e } else none

/-- `list->data [i] = list->data [j]`. -/
def copy (i j : ℤ) (list : ListStruct α) : Option (ListStruct α) := do
  let e ← list.read j
  list.write i e

end ListStruct

/-- `list_create ()`. -/
def list_create (junk : ℕ → α) : ListStruct α where
  data := (List.range INITIAL_SIZE.toNat).map junk
  len := 0
  size := INITIAL_SIZE

/-- `realloc (data, n * sizeof (element_t))`. -/
def realloc (junk : ℕ → α) (data : List α) (n : ℕ) : List α :=
  (List.range n).map fun i => data[i]?.getD (junk i)

/-- `expand_list (l)`. -/
def expand_list (junk : ℕ → α) (l : ListStruct α) : Option (ListStruct α) := do
  let size ← int (l.size * GROWTH_FACTOR)
  some { l with data := realloc junk l.data size.toNat, size }

/-- `if (list->len == list->size) expand_list (list);` -/
def grow (junk : ℕ → α) (list : ListStruct α) : Option (ListStruct α) :=
  if list.len = list.size then expand_list junk list else some list

/-- `list_append (list, element)`. -/
def list_append (junk : ℕ → α) (element : α) (list : ListStruct α) : Option (ListStruct α) := do
  let list ← grow junk list
  let list ← list.write list.len element
  let len ← int (list.len + 1)
  some { list with len }

/-- `list_append_array (list, elements, n)`. -/
def list_append_array (junk : ℕ → α) (elements : List α) (n : ℤ) :
    ListStruct α → Option (ListStruct α) :=
  Loop.up (fun i list => do
    let element ← elements[i.toNat]?
    list_append junk element list) 0 n.toNat

/-- `list_insert (list, pos, element)`. -/
def list_insert (junk : ℕ → α) (pos : ℤ) (element : α) (list : ListStruct α) :
    Option (ListStruct α) := do
  let list ← grow junk list
  let list ← Loop.down (fun i => ListStruct.copy i (i - 1)) list.len (list.len - pos).toNat list
  let list ← list.write pos element
  let len ← int (list.len + 1)
  some { list with len }

/-- `list_remove (list, pos)`. -/
def list_remove (pos : ℤ) (list : ListStruct α) : Option (ListStruct α) := do
  let list ← Loop.up (fun i => ListStruct.copy i (i + 1)) pos (list.len - 1 - pos).toNat list
  let len ← int (list.len - 1)
  some { list with len }

/-- `list_get (list, pos)`. -/
def list_get (list : ListStruct α) (pos : ℤ) : Option α := list.read pos

/-- The loop of `list_index`, for the `k` positions from `i` on. -/
def list_index_loop (equal : α → α → Option Bool) (element : α) (list : ListStruct α) :
    ℕ → ℤ → Option ℤ
  | 0, _ => some (-1)
  | k + 1, i => do
    let x ← list.read i
    if ← equal x element then some i else list_index_loop equal element list k (i + 1)

/-- `list_index (list, element, equal)`. -/
def list_index (equal : α → α → Option Bool) (element : α) (list : ListStruct α) : Option ℤ :=
  list_index_loop equal element list list.len.toNat 0

/-- `list_len (list)`. -/
def list_len (list : ListStruct α) : ℤ := list.len

/-- `list_foldl (f, out_element_p, in_list)`. `read` reads `*out_element_p`. -/
def list_foldl (f : α → α → M → Option M) (read : M → Option α) (in_list : ListStruct α) :
    M → Option M :=
  Loop.up (fun i m => do
    let out ← read m
    let x ← list_get in_list i
    f out x m) 0 (list_len in_list).toNat

/-- `list_filter (f, out_list, in_list)`. -/
def list_filter (f : α → Option Bool) (junk : ℕ → α) (in_list : ListStruct α) :
    ListStruct α → Option (ListStruct α) :=
  Loop.up (fun i out_list => do
    let x ← list_get in_list i
    if ← f x then list_append junk x out_list else some out_list) 0 (list_len in_list).toNat

/-- `list_foreach (f, list)`. -/
def list_foreach (f : α → M → Option M) (list : ListStruct α) : M → Option M :=
  Loop.up (fun i m => do
    let x ← list.read i
    f x m) 0 list.len.toNat

/-! ### What a list contains -/

/-- **The values in front of the array are `xs`**, and `size` is the size of the array. -/
structure Contains (l : ListStruct α) (xs : List α) : Prop where
  len : l.len = xs.length
  size : l.size = l.data.length
  size_lt : l.size < 2 ^ 31
  front : xs <+: l.data

/-- There is room for `n` values more, after some expansions. -/
def Fits (l : ListStruct α) (n : ℕ) : Prop :=
  ∃ k : ℕ, l.len + n ≤ l.size * GROWTH_FACTOR ^ k ∧ l.size * GROWTH_FACTOR ^ k < 2 ^ 31

/-- `l'` is `l` after some expansions. -/
def Grown (l l' : ListStruct α) : Prop := ∃ k : ℕ, l'.size = l.size * GROWTH_FACTOR ^ k

variable {l l' : ListStruct α} {xs : List α} {e : α} {i n : ℕ}

theorem grown_of_size (h : l'.size = l.size) : Grown l l' := ⟨0, by rw [h, pow_zero, mul_one]⟩

theorem Grown.trans {l₁ : ListStruct α} (h : Grown l l') (h' : Grown l' l₁) : Grown l l₁ := by
  obtain ⟨k, hk⟩ := h
  obtain ⟨k', hk'⟩ := h'
  exact ⟨k + k', by rw [hk', hk, mul_assoc, pow_add]⟩

theorem int_eq {v : ℤ} (hlo : -2 ^ 31 ≤ v) (hhi : v < 2 ^ 31) : int v = some v :=
  if_pos ⟨hlo, hhi⟩

theorem read_eq (l : ListStruct α) (i : ℕ) : l.read i = l.data[i]? := if_pos (Int.natCast_nonneg i)

theorem write_eq (hi : i < l.data.length) (e : α) :
    l.write i e = some { l with data := l.data.set i e } :=
  if_pos ⟨Int.natCast_nonneg i, Int.ofNat_lt.mpr hi⟩

namespace Contains

theorem length_le (h : Contains l xs) : xs.length ≤ l.data.length := h.front.length_le

/-- **`0 <= len <= size`.** -/
theorem len_le (h : Contains l xs) : 0 ≤ l.len ∧ l.len ≤ l.size := by
  rw [h.len, h.size]
  exact ⟨Int.natCast_nonneg _, Int.ofNat_le.mpr h.length_le⟩

theorem getElem? (h : Contains l xs) (hi : i < xs.length) : l.data[i]? = xs[i]? := by
  rw [List.prefix_iff_getElem?.mp h.front i hi, List.getElem?_eq_getElem hi]

/-- **`list_get`** of a position below the length. -/
theorem get (h : Contains l xs) (hi : i < xs.length) : list_get l i = some xs[i] := by
  rw [list_get, read_eq, h.getElem? hi, List.getElem?_eq_getElem hi]

end Contains

theorem front_of {data : List α} (h : ∀ i < xs.length, data[i]? = xs[i]?) : xs <+: data :=
  List.prefix_iff_getElem?.mpr fun i hi => by rw [h i hi, List.getElem?_eq_getElem hi]

theorem contains_create (junk : ℕ → α) : Contains (list_create junk) [] where
  len := rfl
  size := by rw [list_create, List.length_map, List.length_range]; rfl
  size_lt := show INITIAL_SIZE < 2 ^ 31 by decide
  front := List.nil_prefix

/-! ### Expansion -/

theorem realloc_eq (junk : ℕ → α) (data : List α) {n : ℕ} (h : data.length ≤ n) :
    data <+: realloc junk data n := by
  refine List.prefix_iff_getElem?.mpr fun i hi => ?_
  rw [realloc, List.getElem?_map, List.getElem?_range (Nat.lt_of_lt_of_le hi h), Option.map_some,
    List.getElem?_eq_getElem hi, Option.getD_some]

theorem fits_succ_iff (hlen : l'.len = l.len + 1) (hsize : l'.size = l.size) :
    Fits l (n + 1) ↔ Fits l' n := by
  unfold Fits
  rw [hlen, hsize]
  refine exists_congr fun k => and_congr_left fun _ => ?_
  omega

theorem fits_expand_iff (hfull : l.len = l.size) (hlen : l'.len = l.len)
    (hsize : l'.size = l.size * GROWTH_FACTOR) : Fits l (n + 1) ↔ Fits l' (n + 1) := by
  unfold Fits
  rw [hlen, hsize]
  constructor
  · rintro ⟨k, hle, hlt⟩
    cases k with
    | zero => rw [pow_zero, mul_one] at hle; omega
    | succ k =>
      refine ⟨k, ?_, ?_⟩ <;> rwa [mul_assoc, ← pow_succ']
  · rintro ⟨k, hle, hlt⟩
    refine ⟨k + 1, ?_, ?_⟩ <;> rwa [pow_succ', ← mul_assoc]

/-- **Room for one value more.** -/
theorem grow_spec (junk : ℕ → α) (h : Contains l xs) (hfits : Fits l 1) :
    ∃ l', grow junk l = some l' ∧ Contains l' xs ∧ xs.length < l'.data.length ∧
      Grown l l' ∧
      ∀ n, Fits l (n + 1) ↔ Fits l' (n + 1) := by
  by_cases hfull : l.len = l.size
  · obtain ⟨k, hle, hlt⟩ := hfits
    have hsize : 0 ≤ l.size := by rw [h.size]; exact Int.natCast_nonneg _
    have hk : k ≠ 0 := by
      rintro rfl
      rw [pow_zero, mul_one] at hle
      omega
    have hpos : l.size ≠ 0 := by
      intro hzero
      rw [hzero, zero_mul] at hle
      have := h.len_le
      omega
    have hmul : l.size * GROWTH_FACTOR < 2 ^ 31 := by
      refine lt_of_le_of_lt ?_ hlt
      refine mul_le_mul_of_nonneg_left ?_ hsize
      calc GROWTH_FACTOR
          _ = GROWTH_FACTOR ^ 1 := (pow_one _).symm
          _ ≤ GROWTH_FACTOR ^ k := pow_le_pow_right₀ (by decide) (Nat.one_le_iff_ne_zero.mpr hk)
    have hint : int (l.size * GROWTH_FACTOR) = some (l.size * GROWTH_FACTOR) :=
      int_eq (by rw [GROWTH_FACTOR]; omega) hmul
    have hnat : (l.size * GROWTH_FACTOR).toNat = l.data.length * 5 := by
      rw [h.size, GROWTH_FACTOR]
      omega
    have hdata := realloc_eq junk l.data (n := l.data.length * 5) (by omega)
    have hlen : (realloc junk l.data (l.data.length * 5)).length = l.data.length * 5 := by
      rw [realloc, List.length_map, List.length_range]
    refine ⟨{ l with data := realloc junk l.data (l.data.length * 5),
                     size := l.size * GROWTH_FACTOR }, ?_, ⟨h.len, ?_, hmul, h.front.trans hdata⟩, ?_,
      ⟨1, by rw [pow_one]⟩, fun n => fits_expand_iff hfull rfl rfl⟩
    · rw [grow, if_pos hfull, expand_list, hint, Option.bind_eq_bind, Option.bind_some, hnat]
    · rw [hlen, h.size, GROWTH_FACTOR, Int.natCast_mul]
      rfl
    · have := h.length_le
      have := h.size
      rw [hlen]
      omega
  · refine ⟨l, if_neg hfull, h, ?_, grown_of_size rfl, fun n => Iff.rfl⟩
    have := h.length_le
    rw [h.len, h.size] at hfull
    omega

/-! ### What the functions do -/

theorem Contains.write (h : Contains l xs) (hlt : xs.length < l.data.length) (e : α) :
    l.write l.len e = some { l with data := l.data.set xs.length e } ∧
      Contains { l with data := l.data.set xs.length e, len := l.len + 1 } (xs ++ [e]) := by
  refine ⟨h.len ▸ write_eq hlt e, ?_, ?_, h.size_lt, ?_⟩
  · rw [h.len, List.length_append, List.length_singleton, Int.natCast_add, Int.natCast_one]
  · rw [List.length_set, h.size]
  · refine front_of fun i hi => ?_
    rw [List.length_append, List.length_singleton] at hi
    by_cases hlast : i = xs.length
    · rw [hlast, List.getElem?_set_self hlt, List.getElem?_concat_length]
    · have hi' : i < xs.length := by omega
      rw [List.getElem?_set_ne (Ne.symm hlast), h.getElem? hi', List.getElem?_append_left hi']

theorem Contains.int_succ (h : Contains l xs) (hlt : xs.length < l.data.length) :
    int (l.len + 1) = some (l.len + 1) := by
  have hsize := h.size
  have hsize' := h.size_lt
  have hlen := h.len
  exact int_eq (by omega) (by omega)

/-- **`list_append`**. -/
theorem list_append_spec (junk : ℕ → α) (h : Contains l xs) (hfits : Fits l 1) (e : α) :
    ∃ l', list_append junk e l = some l' ∧ Contains l' (xs ++ [e]) ∧
      Grown l l' ∧
      ∀ n, Fits l (n + 1) ↔ Fits l' n := by
  obtain ⟨l₁, hgrow, h₁, hlt, hsize, hfits₁⟩ := grow_spec junk h hfits
  obtain ⟨hwrite, hcontains⟩ := h₁.write hlt e
  refine ⟨_, ?_, hcontains, hsize, fun n => (hfits₁ n).trans (fits_succ_iff rfl rfl)⟩
  simp only [list_append, hgrow, hwrite, h₁.int_succ hlt, Option.bind_eq_bind, Option.bind_some]

theorem list_append_eq (junk : ℕ → α) (h : Contains l xs) (hlt : xs.length < l.data.length)
    (e : α) : list_append junk e l =
      some { l with data := l.data.set xs.length e, len := l.len + 1 } := by
  have hne : l.len ≠ l.size := by
    intro hfull
    rw [h.len, h.size, Int.ofNat_inj] at hfull
    omega
  simp only [list_append, grow, if_neg hne, (h.write hlt e).1, h.int_succ hlt, Option.bind_eq_bind,
    Option.bind_some]

theorem fits_of_append {junk : ℕ → α} (h : Contains l xs) (happ : list_append junk e l = some l') :
    Fits l 1 := by
  have hlen := h.len_le
  by_cases hfull : l.len = l.size
  · simp only [list_append, grow, if_pos hfull, expand_list, Option.bind_eq_bind,
      Option.bind_eq_some_iff] at happ
    obtain ⟨l₁, ⟨size, hint, hl₁⟩, l₂, hwrite, -⟩ := happ
    rw [int, Option.ite_none_right_eq_some] at hint
    obtain ⟨⟨-, hlt⟩, hsize⟩ := hint
    obtain rfl := Option.some.inj hsize
    obtain rfl := Option.some.inj hl₁
    rw [ListStruct.write, Option.ite_none_right_eq_some] at hwrite
    obtain ⟨⟨-, hbound⟩, -⟩ := hwrite
    rw [realloc, List.length_map, List.length_range] at hbound
    have hlt' : l.len < (l.size * GROWTH_FACTOR).toNat := hbound
    refine ⟨1, ?_, by rwa [pow_one]⟩
    rw [pow_one]
    omega
  · refine ⟨0, ?_, ?_⟩
    · rw [pow_zero, mul_one]
      omega
    · rw [pow_zero, mul_one]
      exact h.size_lt

theorem contains_of_append {junk : ℕ → α} (h : Contains l xs)
    (happ : list_append junk e l = some l') : Contains l' (xs ++ [e]) := by
  obtain ⟨l₁, happ₁, hcontains, -⟩ := list_append_spec junk h (fits_of_append h happ) e
  rwa [Option.some.inj (happ.symm.trans happ₁)]

theorem Contains.unique {ys : List α} (h : Contains l xs) (h' : Contains l ys) : xs = ys := by
  refine List.prefix_of_prefix_length_le h.front h'.front ?_ |>.eq_of_length ?_
  · exact Int.ofNat_le.mp (by rw [← h.len, ← h'.len])
  · exact Int.ofNat_inj.mp (by rw [← h.len, ← h'.len])

theorem Contains.fits_zero (h : Contains l xs) : Fits l 0 := by
  refine ⟨0, ?_, ?_⟩
  · rw [pow_zero, mul_one, Int.natCast_zero, Int.add_zero]
    exact h.len_le.2
  · rw [pow_zero, mul_one]
    exact h.size_lt

theorem Fits.mono {n m : ℕ} (h : Fits l n) (hle : m ≤ n) : Fits l m := by
  obtain ⟨k, hle', hlt⟩ := h
  exact ⟨k, by omega, hlt⟩

/-! ### Moving elements -/

/-- Element `q` of `l'` is element `g q` of `l`. -/
structure Moved (l l' : ListStruct α) (g : ℕ → ℕ) : Prop where
  len : l'.len = l.len
  size : l'.size = l.size
  length : l'.data.length = l.data.length
  data : ∀ q : ℕ, l'.data[q]? = l.data[g q]?

theorem Moved.copy {g g' : ℕ → ℕ} {j : ℕ} (h : Moved l l' g) (hi : i < l.data.length)
    (hj : j < l.data.length) (hg : Function.update g i (g j) = g') :
    ∃ l₁, l'.copy i j = some l₁ ∧ Moved l l₁ g' := by
  have hj' : j < l'.data.length := h.length ▸ hj
  have hi' : i < l'.data.length := h.length ▸ hi
  refine ⟨{ l' with data := l'.data.set i l'.data[j] }, ?_, h.len, h.size, ?_, fun q => ?_⟩
  · rw [ListStruct.copy, read_eq, List.getElem?_eq_getElem hj', Option.bind_eq_bind,
      Option.bind_some, write_eq hi']
  · rw [List.length_set, h.length]
  · rw [← hg]
    by_cases hq : q = i
    · rw [hq, List.getElem?_set_self hi', Function.update_self, ← h.data,
        List.getElem?_eq_getElem hj']
    · rw [List.getElem?_set_ne (Ne.symm hq), Function.update_of_ne hq, h.data]

theorem moved_refl (l : ListStruct α) {g : ℕ → ℕ} (hg : ∀ q, g q = q) : Moved l l g :=
  ⟨rfl, rfl, rfl, fun q => by rw [hg q]⟩

/-- The loop of `list_insert`. -/
theorem move_down (h : Contains l xs) (hlt : xs.length < l.data.length) {pos : ℕ}
    (hpos : pos ≤ xs.length) :
    ∃ l', Loop.down (fun i => ListStruct.copy i (i - 1)) l.len (l.len - pos).toNat l = some l' ∧
      Moved l l' fun q => if pos < q ∧ q ≤ xs.length then q - 1 else q := by
  have hlen := h.len
  have hstep : ∀ j < (l.len - pos).toNat, ∀ l',
      (Moved l l' fun q => if xs.length - j < q ∧ q ≤ xs.length then q - 1 else q) →
      ∃ l₁, ListStruct.copy (l.len - j) (l.len - j - 1) l' = some l₁ ∧
        Moved l l₁ fun q => if xs.length - (j + 1) < q ∧ q ≤ xs.length then q - 1 else q := by
    intro j hj l' hmoved
    have hi : l.len - j = ((xs.length - j : ℕ) : ℤ) := by omega
    have hi' : l.len - j - 1 = ((xs.length - j - 1 : ℕ) : ℤ) := by omega
    rw [hi', hi]
    refine hmoved.copy (by omega) (by omega) (funext fun q => ?_)
    by_cases hq : q = xs.length - j
    · rw [hq, Function.update_self]
      split_ifs <;> omega
    · rw [Function.update_of_ne hq]
      split_ifs <;> omega
  have hstart : Moved l l fun q => if xs.length - 0 < q ∧ q ≤ xs.length then q - 1 else q :=
    moved_refl l fun q => if_neg (by omega)
  obtain ⟨l', hloop, hmoved⟩ := Loop.down_spec (fun i => ListStruct.copy i (i - 1))
    (fun j l' => Moved l l' fun q => if xs.length - j < q ∧ q ≤ xs.length then q - 1 else q)
    hstep hstart
  refine ⟨l', hloop, ?_⟩
  have hk : xs.length - (l.len - pos).toNat = pos := by omega
  rwa [hk] at hmoved

/-- The loop of `list_remove`. -/
theorem move_up (h : Contains l xs) {pos : ℕ} (hpos : pos < xs.length) :
    ∃ l', Loop.up (fun i => ListStruct.copy i (i + 1)) pos (l.len - 1 - pos).toNat l = some l' ∧
      Moved l l' fun q => if pos ≤ q ∧ q < xs.length - 1 then q + 1 else q := by
  have hlen := h.len
  have hle := h.length_le
  have hstep : ∀ j < (l.len - 1 - pos).toNat, ∀ l',
      (Moved l l' fun q => if pos ≤ q ∧ q < pos + j then q + 1 else q) →
      ∃ l₁, ListStruct.copy ((pos : ℤ) + j) ((pos : ℤ) + j + 1) l' = some l₁ ∧
        Moved l l₁ fun q => if pos ≤ q ∧ q < pos + (j + 1) then q + 1 else q := by
    intro j hj l' hmoved
    have hi : (pos : ℤ) + j + 1 = ((pos + j + 1 : ℕ) : ℤ) := by omega
    rw [hi, ← Int.natCast_add]
    refine hmoved.copy (by omega) (by omega) (funext fun q => ?_)
    by_cases hq : q = pos + j
    · rw [hq, Function.update_self]
      split_ifs <;> omega
    · rw [Function.update_of_ne hq]
      split_ifs <;> omega
  have hstart : Moved l l fun q => if pos ≤ q ∧ q < pos + 0 then q + 1 else q :=
    moved_refl l fun q => if_neg (by omega)
  obtain ⟨l', hloop, hmoved⟩ := Loop.up_spec (fun i => ListStruct.copy i (i + 1))
    (fun j l' => Moved l l' fun q => if pos ≤ q ∧ q < pos + j then q + 1 else q) hstep hstart
  refine ⟨l', hloop, ?_⟩
  have hk : pos + (l.len - 1 - pos).toNat = xs.length - 1 := by omega
  rwa [hk] at hmoved

/-- **`list_insert`**. -/
theorem list_insert_spec (junk : ℕ → α) (h : Contains l xs) (hfits : Fits l 1) {pos : ℕ}
    (hpos : pos ≤ xs.length) (e : α) :
    ∃ l', list_insert junk pos e l = some l' ∧ Contains l' (xs.insertIdx pos e) ∧
      Grown l l' := by
  obtain ⟨l₁, hgrow, h₁, hlt, hsize, -⟩ := grow_spec junk h hfits
  obtain ⟨l₂, hloop, hmoved⟩ := move_down h₁ hlt hpos
  have hpos' : pos < l₂.data.length := by rw [hmoved.length]; omega
  refine ⟨{ l₂ with data := l₂.data.set pos e, len := l₁.len + 1 }, ?_, ⟨?_, ?_, ?_, ?_⟩, ?_⟩
  · simp only [list_insert, hgrow, hloop, write_eq hpos', hmoved.len, h₁.int_succ hlt,
      Option.bind_eq_bind, Option.bind_some]
  · rw [List.length_insertIdx_of_le_length hpos, h₁.len, Int.natCast_succ]
  · rw [List.length_set, hmoved.length, ← h₁.size, hmoved.size]
  · exact hmoved.size ▸ h₁.size_lt
  · refine front_of fun q hq => ?_
    rw [List.length_insertIdx_of_le_length hpos] at hq
    rw [List.getElem?_insertIdx]
    rcases Nat.lt_trichotomy q pos with hqp | rfl | hqp
    · rw [List.getElem?_set_ne (Nat.ne_of_gt hqp), hmoved.data, if_neg (by omega), if_pos hqp,
        h₁.getElem? (by omega)]
    · rw [List.getElem?_set_self hpos', if_neg (Nat.lt_irrefl q), if_pos rfl, if_pos hpos]
    · rw [List.getElem?_set_ne (Nat.ne_of_lt hqp), hmoved.data, if_pos (by omega), if_neg (by omega),
        if_neg (Nat.ne_of_gt hqp), h₁.getElem? (by omega)]
  · exact hmoved.size ▸ hsize

/-- **`list_remove`**. -/
theorem list_remove_spec (h : Contains l xs) {pos : ℕ} (hpos : pos < xs.length) :
    ∃ l', list_remove pos l = some l' ∧ Contains l' (xs.eraseIdx pos) ∧ l'.size = l.size := by
  obtain ⟨l₁, hloop, hmoved⟩ := move_up h hpos
  have hlen := h.len
  have hint : int (l.len - 1) = some (l.len - 1) := by
    have hsize := h.size_lt
    have hle := h.len_le
    exact int_eq (by omega) (by omega)
  refine ⟨{ l₁ with len := l.len - 1 }, ?_, ⟨?_, ?_, ?_, ?_⟩, hmoved.size⟩
  · simp only [list_remove, hloop, hmoved.len, hint, Option.bind_eq_bind, Option.bind_some]
  · have hlen' : l.len - 1 = ((xs.length - 1 : ℕ) : ℤ) := by omega
    rwa [List.length_eraseIdx_of_lt hpos]
  · rw [hmoved.length, ← h.size, hmoved.size]
  · exact hmoved.size ▸ h.size_lt
  · refine front_of fun q hq => ?_
    rw [List.length_eraseIdx_of_lt hpos] at hq
    rw [hmoved.data, List.getElem?_eraseIdx]
    by_cases hqp : q < pos
    · rw [if_neg (by omega), if_pos hqp, h.getElem? (by omega)]
    · rw [if_pos (by omega), if_neg hqp, h.getElem? (by omega)]

/-! ### Loops over a list -/

/-- **The values `ys` have been appended** to a list that contained `xs`. -/
structure Appended (l : ListStruct α) (xs ys : List α) (l' : ListStruct α) : Prop where
  contains : Contains l' (xs ++ ys)
  grown : Grown l l'
  fits : ∀ m, Fits l (ys.length + m) ↔ Fits l' m

theorem appended_nil (h : Contains l xs) : Appended l xs [] l where
  contains := by rwa [List.append_nil]
  grown := grown_of_size rfl
  fits m := by rw [List.length_nil, Nat.zero_add]

theorem Appended.append {n : ℕ} (junk : ℕ → α) {ys : List α} (h : Appended l xs ys l')
    (hfits : Fits l n) (hn : ys.length < n) (e : α) :
    ∃ l₁, list_append junk e l' = some l₁ ∧ Appended l xs (ys ++ [e]) l₁ := by
  obtain ⟨l₁, happ, hcontains, hgrown, hfits'⟩ :=
    list_append_spec junk h.contains ((h.fits 1).mp (hfits.mono hn)) e
  refine ⟨l₁, happ, List.append_assoc xs ys [e] ▸ hcontains, h.grown.trans hgrown, fun m => ?_⟩
  rw [List.length_append, List.length_singleton, Nat.add_assoc, Nat.add_comm 1 m, h.fits, hfits']

theorem Appended.of_append {junk : ℕ → α} {ys : List α} {l₁ : ListStruct α}
    (h : Appended l xs ys l') (happ : list_append junk e l' = some l₁) :
    Fits l (ys.length + 1) ∧ Appended l xs (ys ++ [e]) l₁ := by
  have hfits : Fits l (ys.length + 1) := (h.fits 1).mpr (fits_of_append h.contains happ)
  obtain ⟨l₂, happ₂, happended⟩ := h.append junk hfits (Nat.lt_succ_self _) e
  exact ⟨hfits, Option.some.inj (happ.symm.trans happ₂) ▸ happended⟩

/-- **`list_append_array`**. -/
theorem list_append_array_spec (junk : ℕ → α) (h : Contains l xs) {elements : List α} {n : ℤ}
    (hn : n ≤ elements.length) (hfits : Fits l (elements.take n.toNat).length) :
    ∃ l', list_append_array junk elements n l = some l' ∧
      Appended l xs (elements.take n.toNat) l' := by
  rw [List.length_take_of_le (by omega)] at hfits
  refine Loop.up_spec _ (fun j l' => Appended l xs (elements.take j) l') (fun j hj l' happ => ?_)
    (appended_nil h)
  have hlt : j < elements.length := by omega
  obtain ⟨l₁, hrun, happ₁⟩ := happ.append junk hfits
    (by rw [List.length_take_of_le (by omega)]; exact hj) elements[j]
  refine ⟨l₁, ?_, by rwa [List.take_append_getElem hlt] at happ₁⟩
  rw [Int.zero_add, Int.toNat_natCast, List.getElem?_eq_getElem hlt, Option.bind_eq_bind,
    Option.bind_some, hrun]

/-- **`list_filter`**. -/
theorem list_filter_spec (junk : ℕ → α) {f : α → Option Bool} {p : α → Bool}
    {in_list : ListStruct α} {ys : List α} (h : Contains l xs) (hin : Contains in_list ys)
    (hf : ∀ y ∈ ys, f y = some (p y)) (hfits : Fits l (ys.filter p).length) :
    ∃ l', list_filter f junk in_list l = some l' ∧ Appended l xs (ys.filter p) l' := by
  have hk : (list_len in_list).toNat = ys.length := by rw [list_len, hin.len, Int.toNat_natCast]
  have hloop := Loop.up_spec (s := l) (k := ys.length) (a := 0) (fun i out_list => do
      let x ← list_get in_list i
      if ← f x then list_append junk x out_list else some out_list)
    (fun j l' => Appended l xs ((ys.take j).filter p) l')
  rw [list_filter, hk]
  rw [List.take_length] at hloop
  refine hloop (fun j hj l' happ => ?_) (appended_nil h)
  have hget : list_get in_list ((0 : ℤ) + j) = some ys[j] := by rw [Int.zero_add, hin.get hj]
  simp only [hget, hf _ (List.getElem_mem hj), Option.bind_eq_bind, Option.bind_some]
  rw [← List.take_append_getElem hj, List.filter_append, List.filter_singleton]
  cases hp : p ys[j] with
  | false =>
    rw [cond_false, List.append_nil]
    exact ⟨l', rfl, happ⟩
  | true =>
    have hsplit : ys.filter p = (ys.take j).filter p ++ ys[j] :: (ys.drop (j + 1)).filter p := by
      rw [← List.filter_cons_of_pos hp, ← List.drop_eq_getElem_cons hj, ← List.filter_append,
        List.take_append_drop]
    have hlt : ((ys.take j).filter p).length < (ys.filter p).length := by
      rw [hsplit, List.length_append, List.length_cons]
      omega
    exact happ.append junk hfits hlt ys[j]

/-- What `list_index` returns. -/
def firstIndex (p : α → Bool) (xs : List α) : ℤ := (xs.findIdx? p).elim (-1) (↑)

theorem list_index_loop_spec (equal : α → α → Bool) (element : α) (h : Contains l xs) (k i : ℕ)
    (hk : i + k = xs.length) :
    list_index_loop (fun x e => some (equal x e)) element l k i =
      some (((xs.drop i).findIdx? (equal · element)).elim (-1) fun q => ((i + q : ℕ) : ℤ)) := by
  induction k generalizing i with
  | zero =>
    rw [List.drop_of_length_le (by omega), List.findIdx?_nil]
    rfl
  | succ k ih =>
    have hi : i < xs.length := by omega
    have hread : l.read i = some xs[i] := h.get hi
    rw [List.drop_eq_getElem_cons hi, List.findIdx?_cons]
    simp only [list_index_loop, hread, Option.bind_eq_bind, Option.bind_some]
    split
    · rfl
    · have hi' : (i : ℤ) + 1 = ((i + 1 : ℕ) : ℤ) := rfl
      rw [hi', ih (i + 1) (by omega)]
      cases (xs.drop (i + 1)).findIdx? (equal · element) with
      | none => rfl
      | some q =>
        rw [Option.map_some, Option.elim_some, Option.elim_some, Nat.add_right_comm, Nat.add_assoc]

/-- **`list_index`**. -/
theorem list_index_spec (equal : α → α → Bool) (element : α) (h : Contains l xs) :
    list_index (fun x e => some (equal x e)) element l =
      some (firstIndex (equal · element) xs) := by
  have hk : l.len.toNat = xs.length := by rw [h.len, Int.toNat_natCast]
  have hloop := list_index_loop_spec equal element h xs.length 0 (Nat.zero_add _)
  simp only [List.drop_zero, Nat.zero_add] at hloop
  rw [list_index, hk]
  exact hloop

/-- **`list_foldl`**: `I m ys` holds after the values `ys`. -/
theorem list_foldl_spec (f : α → α → M → Option M) (read : M → Option α) (I : M → List α → Prop)
    (h : Contains l xs) (hstep : ∀ m ys y, ys ++ [y] <+: xs → I m ys →
      ∃ out m', read m = some out ∧ f out y m = some m' ∧ I m' (ys ++ [y])) {m : M} (h0 : I m []) :
    ∃ m', list_foldl f read l m = some m' ∧ I m' xs := by
  have hk : (list_len l).toNat = xs.length := by rw [list_len, h.len, Int.toNat_natCast]
  rw [list_foldl, hk]
  have hloop := Loop.up_spec (s := m) (k := xs.length) (a := 0) (fun i m => do
      let out ← read m
      let x ← list_get l i
      f out x m) fun j m => I m (xs.take j)
  rw [List.take_length] at hloop
  refine hloop (fun j hj m hI => ?_) h0
  have hget : list_get l ((0 : ℤ) + j) = some xs[j] := by rw [Int.zero_add, h.get hj]
  obtain ⟨out, m', hread, hf, hI'⟩ := hstep m (xs.take j) xs[j]
    (by rw [List.take_append_getElem hj]; exact List.take_prefix _ _) hI
  refine ⟨m', ?_, by rwa [List.take_append_getElem hj] at hI'⟩
  simp only [hread, hget, hf, Option.bind_eq_bind, Option.bind_some]

/-- **`list_foreach`**, as well. -/
theorem list_foreach_spec (f : α → M → Option M) (I : M → List α → Prop) (h : Contains l xs)
    (hstep : ∀ m ys y, ys ++ [y] <+: xs → I m ys → ∃ m', f y m = some m' ∧ I m' (ys ++ [y]))
    {m : M} (h0 : I m []) : ∃ m', list_foreach f l m = some m' ∧ I m' xs := by
  have hk : l.len.toNat = xs.length := by rw [h.len, Int.toNat_natCast]
  rw [list_foreach, hk]
  have hloop := Loop.up_spec (s := m) (k := xs.length) (a := 0) (fun i m => do
      let x ← l.read i
      f x m) fun j m => I m (xs.take j)
  rw [List.take_length] at hloop
  refine hloop (fun j hj m hI => ?_) h0
  have hread : l.read ((0 : ℤ) + j) = some xs[j] := by
    rw [Int.zero_add]
    exact h.get hj
  obtain ⟨m', hf, hI'⟩ := hstep m (xs.take j) xs[j]
    (by rw [List.take_append_getElem hj]; exact List.take_prefix _ _) hI
  refine ⟨m', ?_, by rwa [List.take_append_getElem hj] at hI'⟩
  simp only [hread, hf, Option.bind_eq_bind, Option.bind_some]

end IntroSystems.Lists
