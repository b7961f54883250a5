import IntroSystems.Lib.CString
import Mathlib.Data.Sum.Order

/-!
# Elements of two classes

`int_element.c` and `str_element.c` of assignment 7, and the interface `element.h` that both
implement.

* `Link`, `Element`: the class objects, and what an element holds.
* `int_compare`, `str_compare`, `compare`: `e->class->compare(e, ...)`.
* `parse_string`: an element for an argument of the program.
* `Element.key`: the order that `element.h` documents.
* **`compare_tells_iff`**: when `compare` tells it.
-/

set_option autoImplicit false

namespace IntroSystems.Elements

open CString Comparison

/-! ### The code -/

/-- Where the linker puts the two class objects. A process has its data below `2 ^ 47`. -/
structure Link where
  class_obj : BitVec 64
  str_element_class_obj : BitVec 64
  ne : class_obj ≠ str_element_class_obj
  lt : str_element_class_obj.toNat < 2 ^ 47

/-- The class objects in the executable `main`. -/
def mainLink : Link where
  class_obj := 0x6020a0
  str_element_class_obj := 0x602080
  ne := by decide
  lt := by decide

/-- An element, behind its pointer to its class. The `char *value` of a `str_element` is a pointer
`value` to a string `text`. -/
inductive Element
  | int (value : BitVec 32)
  | str (value : BitVec 64) (text : Str)
  deriving DecidableEq

/-- The bytes of a number in memory, lowest first. -/
def leBytes (k : ℕ) {w : ℕ} (v : BitVec w) : List Byte :=
  (List.range k).map fun i => v.extractLsb' (8 * i) 8

namespace Element

variable (link : Link)

/-- `elem->class`. -/
def classPtr : Element → BitVec 64
  | int _ => link.class_obj
  | str .. => link.str_element_class_obj

/-- The bytes of the `struct` in memory. -/
def bytes (e : Element) : List Byte :=
  leBytes 8 (e.classPtr link) ++
    match e with
    | int value => leBytes 4 value
    | str value _ => leBytes 8 value

/-- `((struct int_element*) elem)->value`. -/
def intValue : Element → Option (BitVec 32)
  | int value => some value
  | str .. => none

/-- The string at `((struct str_element*) elem)->value`. -/
def strValue : Element → Option Str
  | int _ => none
  | str _ text => some text

end Element

variable (link : Link)

def is_int_element (elem : Element) : Bool := elem.classPtr link = link.class_obj

def is_str_element (elem : Element) : Bool := elem.classPtr link = link.str_element_class_obj

/-- `none` is the end of the body without a `return`. -/
def int_compare (elem1 elem2 : Element) : Option ℤ :=
  if is_int_element link elem1 ∧ ¬is_int_element link elem2 then some (-1)
  else if ¬is_int_element link elem1 ∧ is_int_element link elem2 then some 1
  else if is_int_element link elem1 then do
    let value1 ← elem1.intValue
    let value2 ← elem2.intValue
    let diff := value1 - value2
    some (if diff.toInt < 0 then -1 else if 0 < diff.toInt then 1 else 0)
  else none

/-- The strings that are compared start with the bytes of the two elements themselves. -/
def str_compare (elem1 elem2 : Element) : Option ℤ :=
  if ¬is_str_element link elem1 ∧ is_str_element link elem2 then some (-1)
  else if is_str_element link elem1 ∧ ¬is_str_element link elem2 then some 1
  else do
    let str_elem1 ← scan (elem1.bytes link)
    let str_elem2 ← scan (elem2.bytes link)
    some (strcmp str_elem1 str_elem2)

/-- `class->compare`. -/
def classCompare (cls : BitVec 64) : Option (Element → Element → Option ℤ) :=
  if cls = link.class_obj then some (int_compare link)
  else if cls = link.str_element_class_obj then some (str_compare link)
  else none

/-- `a->class->compare(a, b)`. -/
def compare (a b : Element) : Option ℤ := do
  let f ← classCompare link (a.classPtr link)
  f a b

/-- `parse_string (str)`, where `strdup` returns `p` if it is called. -/
def parse_string (p : BitVec 64) (str : Str) : Element :=
  let (value, endp) := strtol 10 str.bytes
  if str.bytes ≠ [] ∧ endp = [] then .int (BitVec.ofInt 32 value) else .str p str

/-! ### The documented order -/

/-- Ints come before strings. -/
def Element.key : Element → ℤ ⊕ₗ List ℕ
  | int value => toLex (.inl value.toInt)
  | str _ text => toLex (.inr text.key)

/-- The difference of two ints is an `int`. -/
def DiffFits (v w : BitVec 32) : Prop :=
  -2 ^ 31 ≤ v.toInt - w.toInt ∧ v.toInt - w.toInt < 2 ^ 31

instance (v w : BitVec 32) : Decidable (DiffFits v w) := instDecidableAnd

/-- The elements that `compare` is right about. -/
def Comparable : Element → Element → Prop
  | .int v, .int w => DiffFits v w
  | .str _ s, .str _ t => s = t
  | _, _ => True

/-! ### What `compare` returns -/

variable {link}

theorem compare_int_int (v w : BitVec 32) : compare link (.int v) (.int w) =
    some (if (v - w).toInt < 0 then -1 else if 0 < (v - w).toInt then 1 else 0) := by
  simp [compare, classCompare, int_compare, is_int_element, Element.classPtr, Element.intValue]

theorem compare_int_str (v : BitVec 32) (p : BitVec 64) (t : Str) :
    compare link (.int v) (.str p t) = some (-1) := by
  simp [compare, classCompare, int_compare, is_int_element, Element.classPtr, link.ne.symm]

theorem compare_str_int (p : BitVec 64) (s : Str) (w : BitVec 32) :
    compare link (.str p s) (.int w) = some 1 := by
  simp [compare, classCompare, str_compare, is_str_element, Element.classPtr, link.ne,
    link.ne.symm]

/-- The pointer to a class has a zero byte. -/
theorem zero_mem_leBytes (link : Link) : 0 ∈ leBytes 8 link.str_element_class_obj := by
  refine List.mem_map.mpr ⟨7, List.mem_range.mpr (by decide), BitVec.eq_of_toNat_eq ?_⟩
  have hlt : link.str_element_class_obj.toNat < 2 ^ (8 * 7) := lt_trans link.lt (by decide)
  rw [BitVec.extractLsb'_toNat, Nat.shiftRight_eq_div_pow, Nat.div_eq_of_lt hlt]
  rfl

/-- **Two strings always compare equal**: `strcmp` stops inside the pointers to their class. -/
theorem compare_str_str (p q : BitVec 64) (s t : Str) :
    compare link (.str p s) (.str q t) = some 0 := by
  obtain ⟨u, hu⟩ := scan_isSome (zero_mem_leBytes link)
  have hscan : ∀ v w, scan ((Element.str v w).bytes link) = some u := fun v w =>
    (scan_append (zero_mem_leBytes link) _).trans hu
  simp [compare, classCompare, str_compare, is_str_element, Element.classPtr, link.ne.symm, hscan]

theorem compare_isSome (link : Link) (a b : Element) : ∃ r, compare link a b = some r := by
  cases a with
  | int v =>
    cases b with
    | int w => exact ⟨_, compare_int_int v w⟩
    | str q t => exact ⟨_, compare_int_str v q t⟩
  | str p s =>
    cases b with
    | int w => exact ⟨_, compare_str_int p s w⟩
    | str q t => exact ⟨_, compare_str_str p q s t⟩

theorem toInt_sub_cases (v w : BitVec 32) :
    DiffFits v w ∧ (v - w).toInt = v.toInt - w.toInt ∨
      2 ^ 31 ≤ v.toInt - w.toInt ∧ (v - w).toInt < 0 ∨
      v.toInt - w.toInt < -2 ^ 31 ∧ 0 < (v - w).toInt := by
  have hv := v.toInt_lt
  have hv' := v.le_toInt
  have hw := w.toInt_lt
  have hw' := w.le_toInt
  rw [BitVec.toInt_sub, Int.bmod_def]
  simp only [DiffFits]
  omega

theorem parse_string_eq (p : BitVec 64) (str : Str) :
    (∀ v, integer str.bytes = some v → parse_string p str = .int (BitVec.ofInt 32 (clamp v))) ∧
      (integer str.bytes = none → parse_string p str = .str p str) := by
  obtain ⟨hall, hvalue⟩ := strtol_ten str.bytes
  have hdef : parse_string p str = if str.bytes ≠ [] ∧ (strtol 10 str.bytes).2 = [] then
    .int (BitVec.ofInt 32 (strtol 10 str.bytes).1) else .str p str := rfl
  constructor
  · intro v hv
    rw [hdef, if_pos (hall.mpr (by rw [hv]; rfl)), hvalue v hv]
  · intro hnone
    have hnot : ¬(str.bytes ≠ [] ∧ (strtol 10 str.bytes).2 = []) := fun h => by
      simpa [hnone] using hall.mp h
    rw [hdef, if_neg hnot]

theorem tells_int {v w : BitVec 32} {r : ℤ} (hlt : v.toInt < w.toInt → r < 0)
    (heq : v.toInt = w.toInt → r = 0) (hgt : w.toInt < v.toInt → 0 < r) :
    Tells r (Element.int v).key (Element.int w).key := by
  rcases lt_trichotomy v.toInt w.toInt with h | h | h
  · exact .of_lt (hlt h) (Sum.Lex.inl_lt_inl_iff.mpr h)
  · exact .of_eq (heq h) (congrArg (fun x => toLex (Sum.inl x)) h)
  · exact .of_gt (hgt h) (Sum.Lex.inl_lt_inl_iff.mpr h)

/-- **When `compare` tells the order.** -/
theorem compare_tells_iff (a b : Element) :
    (∃ r, compare link a b = some r ∧ Tells r a.key b.key) ↔ Comparable a b := by
  cases a with
  | int v =>
    cases b with
    | int w =>
      rw [compare_int_int]
      rcases toInt_sub_cases v w with ⟨hfit, h⟩ | ⟨hgt, h⟩ | ⟨hlt, h⟩
      · refine iff_of_true ⟨_, rfl, ?_⟩ hfit
        rw [h]
        refine tells_int (fun hvw => ?_) (fun hvw => ?_) fun hvw => ?_
        · rw [if_pos (by omega)]
          decide
        · rw [if_neg (by omega), if_neg (by omega)]
        · rw [if_neg (by omega), if_pos (by omega)]
          decide
      · refine iff_of_false ?_ fun hfit => absurd hfit.2 (not_lt.mpr hgt)
        rintro ⟨r, hr, htells⟩
        rw [if_pos h, Option.some.injEq] at hr
        have hvw := Sum.Lex.inl_lt_inl_iff.mp (htells.1.mp (by omega))
        omega
      · refine iff_of_false ?_ fun hfit => absurd hfit.1 (not_le.mpr hlt)
        rintro ⟨r, hr, htells⟩
        rw [if_neg (by omega), if_pos h, Option.some.injEq] at hr
        have hvw := Sum.Lex.inl_lt_inl_iff.mp (htells.2.2.mp (by omega))
        omega
    | str q t =>
      rw [compare_int_str]
      exact iff_of_true ⟨-1, rfl, .of_lt (by decide) (Sum.Lex.inl_lt_inr _ _)⟩ trivial
  | str p s =>
    cases b with
    | int w =>
      rw [compare_str_int]
      exact iff_of_true ⟨1, rfl, .of_gt (by decide) (Sum.Lex.inl_lt_inr _ _)⟩ trivial
    | str q t =>
      rw [compare_str_str]
      simp only [Option.some.injEq, exists_eq_left', Comparable]
      constructor
      · intro h
        have hkey : toLex (Sum.inr s.key) = toLex (Sum.inr t.key) := h.2.1.mp rfl
        exact Str.key_injective (Sum.inr_injective (toLex_inj.mp hkey))
      · rintro rfl
        exact .of_eq rfl rfl

end IntroSystems.Elements
