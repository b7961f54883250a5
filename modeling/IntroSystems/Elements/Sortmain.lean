import IntroSystems.Elements.Classes
import Mathlib.Data.List.Pairwise

/-!
# Sorting the arguments

`sortmain.c` of assignment 7. `qsort` is a parameter, and so are the addresses that `strdup`
returns.

* `compare`, `main`.
* `SortedOutput`: what the program is for.
* `Antipodal`, `Cyclic`, `Near`: where the differences of ints wrap around.
* **`main_sorts_iff`**: when `compare` is a total preorder, and when the output is sorted.
-/

set_option autoImplicit false

namespace IntroSystems.Elements.Sortmain

open CString Comparison

/-! ### The code -/

/-- A call of `printf`: of a text, with `"%d "`, or with `"%s "`. -/
inductive Printed
  | text (s : String)
  | int (value : BitVec 32)
  | str (value : Str)
  deriving DecidableEq

/-- The value of a printed int. -/
def Printed.intArg : Printed → Option (BitVec 32)
  | .int value => some value
  | _ => none

section Code

variable (link : Link)

/-- `none` is the end of the body without a `return`. -/
def compare (elem1 elem2 : Element) : Option ℤ :=
  if is_int_element link elem1 ∧ ¬is_int_element link elem2 then some (-1)
  else if is_str_element link elem1 ∧ ¬is_str_element link elem2 then some 1
  else if is_int_element link elem1 then do
    let value1 ← elem1.intValue
    let value2 ← elem2.intValue
    some (value1 - value2).toInt
  else if is_str_element link elem1 then do
    let value1 ← elem1.strValue
    let value2 ← elem2.strValue
    some (strcmp value1.bytes value2.bytes)
  else none

/-- The first loop of `main`, from the argument `i` on. -/
def parseAll (strdup : ℕ → BitVec 64) (i : ℕ) : List Str → List Element
  | [] => []
  | arg :: argv => parse_string (strdup i) arg :: parseAll strdup (i + 1) argv

/-- The body of the second loop. -/
def print (elem : Element) : Option Printed :=
  if is_int_element link elem then elem.intValue.map .int else elem.strValue.map .str

/-- What `main` prints. The arguments `argv` are those after the name of the program. -/
def main (qsort : (Element → Element → Option ℤ) → List Element → List Element)
    (strdup : ℕ → BitVec 64) (argv : List Str) : Option (List Printed) := do
  let array := qsort (compare link) (parseAll strdup 0 argv)
  let printed ← array.mapM (print link)
  some (.text "Sorted: " :: (printed ++ [.text "\n"]))

end Code

/-! ### What it is for -/

/-- The numbers among the arguments. -/
def values (argv : List Str) : List ℤ := argv.filterMap fun arg => integer arg.bytes

/-- The other arguments. -/
def texts (argv : List Str) : List Str := argv.filter fun arg => (integer arg.bytes).isNone

/-- The numbers in ascending order, then the other arguments in the order of `strcmp`. -/
def SortedOutput (argv : List Str) (out : List Printed) : Prop :=
  ∃ (ints : List (BitVec 32)) (strs : List Str),
    out = .text "Sorted: " :: (ints.map .int ++ strs.map .str ++ [.text "\n"]) ∧
    (ints.map BitVec.toInt).Perm (values argv) ∧ ints.Pairwise (fun v w => v.toInt ≤ w.toInt) ∧
    strs.Perm (texts argv) ∧ strs.Pairwise fun s t => s.key ≤ t.key

/-- Ints that are `2 ^ 31` apart. -/
def Antipodal : Element → Element → Prop
  | .int v, .int w => v.toInt - w.toInt = 2 ^ 31 ∨ w.toInt - v.toInt = 2 ^ 31
  | _, _ => False

/-- Ints that go around: upwards, and from the largest on to the smallest, none is more than
`2 ^ 31` away from the one before, but the last is from the first. -/
def Cyclic : Element → Element → Element → Prop
  | .int u, .int v, .int w => (v.toInt - u.toInt) % 2 ^ 32 ≤ 2 ^ 31 ∧
      (w.toInt - v.toInt) % 2 ^ 32 ≤ 2 ^ 31 ∧ 2 ^ 31 < (w.toInt - u.toInt) % 2 ^ 32
  | _, _, _ => False

/-- All numbers are ints, and so are their differences. -/
def Near (argv : List Str) : Prop :=
  (∀ v ∈ values argv, -2 ^ 31 ≤ v ∧ v < 2 ^ 31) ∧
    ∀ v ∈ values argv, ∀ w ∈ values argv, v - w < 2 ^ 31

/-! ### What `compare` returns -/

section Compare

variable {link : Link}

theorem compare_int_int (v w : BitVec 32) :
    compare link (.int v) (.int w) = some (v - w).toInt := by
  simp [compare, is_int_element, is_str_element, Element.classPtr, Element.intValue, link.ne]

theorem compare_int_str (v : BitVec 32) (p : BitVec 64) (t : Str) :
    compare link (.int v) (.str p t) = some (-1) := by
  simp [compare, is_int_element, Element.classPtr, link.ne.symm]

theorem compare_str_int (p : BitVec 64) (s : Str) (w : BitVec 32) :
    compare link (.str p s) (.int w) = some 1 := by
  simp [compare, is_int_element, is_str_element, Element.classPtr, link.ne, link.ne.symm]

theorem compare_str_str (p q : BitVec 64) (s t : Str) :
    compare link (.str p s) (.str q t) = some (strcmp s.bytes t.bytes) := by
  simp [compare, is_int_element, is_str_element, Element.classPtr, Element.strValue,
    link.ne.symm]

/-- **`compare` tells the order** of elements that are not ints far apart. -/
theorem compare_tells (link : Link) {a b : Element}
    (h : ∀ v w, a = .int v → b = .int w → DiffFits v w) :
    ∃ r, compare link a b = some r ∧ Tells r a.key b.key := by
  cases a with
  | int v =>
    cases b with
    | int w =>
      rcases toInt_sub_cases v w with ⟨-, hr⟩ | ⟨hgt, -⟩ | ⟨hlt, -⟩
      · refine ⟨_, compare_int_int v w, ?_⟩
        rw [hr]
        exact tells_int (by omega) (by omega) (by omega)
      · exact absurd (h v w rfl rfl).2 (not_lt.mpr hgt)
      · exact absurd (h v w rfl rfl).1 (not_le.mpr hlt)
    | str q t => exact ⟨_, compare_int_str v q t, .of_lt (by decide) (Sum.Lex.inl_lt_inr _ _)⟩
  | str p s =>
    cases b with
    | int w => exact ⟨_, compare_str_int p s w, .of_gt (by decide) (Sum.Lex.inl_lt_inr _ _)⟩
    | str q t =>
      obtain ⟨hlt, heq, hgt⟩ := s.tells_strcmp t
      exact ⟨_, compare_str_str p q s t, hlt.trans Sum.Lex.inr_lt_inr_iff.symm,
        heq.trans ⟨fun h => congrArg (fun x => toLex (Sum.inr x)) h,
          fun h => Sum.inr_injective (toLex_inj.mp h)⟩, hgt.trans Sum.Lex.inr_lt_inr_iff.symm⟩

theorem precedes_iff_key {a b : Element} (h : ∀ v w, a = .int v → b = .int w → DiffFits v w) :
    precedes (compare link) a b = true ↔ a.key ≤ b.key :=
  precedes_iff (compare_tells link h)

/-- Exchanging two ints changes the sign of their difference, unless it is the least int. -/
theorem sign_sub_iff (v w : BitVec 32) :
    (v - w).toInt.sign = -(w - v).toInt.sign ↔ ¬Antipodal (.int v) (.int w) := by
  have hv := v.toInt_lt
  have hv' := v.le_toInt
  have hw := w.toInt_lt
  have hw' := w.le_toInt
  have hneg : (v - w).toInt = -2 ^ 31 ∧ (w - v).toInt = -2 ^ 31 ∧ Antipodal (.int v) (.int w) ∨
      (w - v).toInt = -(v - w).toInt ∧ ¬Antipodal (.int v) (.int w) := by
    rw [BitVec.toInt_sub, BitVec.toInt_sub, Int.bmod_def, Int.bmod_def]
    simp only [Antipodal]
    omega
  rcases hneg with ⟨hr, hs, ha⟩ | ⟨hs, ha⟩
  · rw [hr, hs]
    exact iff_of_false (by decide) (not_not.mpr ha)
  · rw [hs, Int.sign_neg, neg_neg]
    exact iff_of_true rfl ha

/-- **When `compare` is antisymmetric.** -/
theorem compare_opposite_iff (a b : Element) :
    (∃ r s, compare link a b = some r ∧ compare link b a = some s ∧ r.sign = -s.sign) ↔
      ¬Antipodal a b := by
  by_cases hints : ∃ v w, a = .int v ∧ b = .int w
  · obtain ⟨v, w, rfl, rfl⟩ := hints
    rw [compare_int_int, compare_int_int]
    simp only [Option.some.injEq, exists_and_left, exists_eq_left']
    exact sign_sub_iff v w
  · have hanti : ¬Antipodal a b := by
      cases a <;> cases b <;> simp_all [Antipodal]
    obtain ⟨r, hr, htells⟩ := compare_tells link (a := a) (b := b)
      fun v w ha hb => absurd ⟨v, w, ha, hb⟩ hints
    obtain ⟨s, hs, htells'⟩ := compare_tells link (a := b) (b := a)
      fun v w hb ha => absurd ⟨w, v, ha, hb⟩ hints
    exact iff_of_true ⟨r, s, hr, hs, htells.sign_eq htells'⟩ hanti

theorem precedes_int_int (v w : BitVec 32) :
    precedes (compare link) (.int v) (.int w) = true ↔
      (w.toInt - v.toInt) % 2 ^ 32 ≤ 2 ^ 31 := by
  have hv := v.toInt_lt
  have hv' := v.le_toInt
  have hw := w.toInt_lt
  have hw' := w.le_toInt
  rw [precedes, compare_int_int, Option.any_some, decide_eq_true_iff, BitVec.toInt_sub,
    Int.bmod_def]
  omega

/-- **When `compare` is transitive.** -/
theorem compare_trans_iff (a b c : Element) :
    (precedes (compare link) a b = true → precedes (compare link) b c = true →
      precedes (compare link) a c = true) ↔ ¬Cyclic a b c := by
  cases a with
  | int u =>
    cases c with
    | int w =>
      cases b with
      | int v =>
        rw [precedes_int_int, precedes_int_int, precedes_int_int, Cyclic]
        omega
      | str q t =>
        refine iff_of_true (fun _ h => ?_) id
        rw [precedes, compare_str_int] at h
        exact absurd h (by decide)
    | str r s =>
      refine iff_of_true (fun _ _ => ?_) (by cases b <;> exact id)
      rw [precedes, compare_int_str]
      rfl
  | str p s =>
    have hcyclic : ¬Cyclic (.str p s) b c := id
    refine iff_of_true (fun hab hbc => ?_) hcyclic
    cases b with
    | int v =>
      rw [precedes, compare_str_int] at hab
      exact absurd hab (by decide)
    | str q t =>
      cases c with
      | int w =>
        rw [precedes, compare_str_int] at hbc
        exact absurd hbc (by decide)
      | str r u =>
        rw [precedes_iff_key (by simp)] at hab hbc ⊢
        exact le_trans hab hbc

end Compare

/-! ### What `main` prints -/

section Main

variable {link : Link} {strdup : ℕ → BitVec 64} {argv : List Str} {es : List Element}

/-- What is printed for an element. -/
def printed : Element → Printed
  | .int value => .int value
  | .str _ text => .str text

theorem mapM_print (es : List Element) : es.mapM (print link) = some (es.map printed) := by
  induction es with
  | nil => rfl
  | cons e es ih =>
    have he : print link e = some (printed e) := by
      cases e <;> simp [print, is_int_element, Element.classPtr, Element.intValue,
        Element.strValue, printed, link.ne.symm]
    rw [List.mapM_cons, he, ih]
    rfl

theorem main_eq (qsort : (Element → Element → Option ℤ) → List Element → List Element) :
    main link qsort strdup argv = some (.text "Sorted: " ::
      ((qsort (compare link) (parseAll strdup 0 argv)).map printed ++ [.text "\n"])) := by
  simp only [main, mapM_print, Option.bind_eq_bind, Option.bind_some]

theorem filterMap_intValue (i : ℕ) : (parseAll strdup i argv).filterMap Element.intValue =
    (values argv).map fun v => BitVec.ofInt 32 (clamp v) := by
  induction argv generalizing i with
  | nil => rfl
  | cons arg argv ih =>
    rw [parseAll, values, List.filterMap_cons, List.filterMap_cons]
    cases h : integer arg.bytes with
    | some v =>
      rw [(parse_string_eq _ arg).1 v h]
      exact congrArg _ (ih (i + 1))
    | none =>
      rw [(parse_string_eq _ arg).2 h]
      exact ih (i + 1)

theorem filterMap_strValue (i : ℕ) : (parseAll strdup i argv).filterMap Element.strValue =
    texts argv := by
  induction argv generalizing i with
  | nil => rfl
  | cons arg argv ih =>
    rw [parseAll, texts, List.filterMap_cons]
    cases h : integer arg.bytes with
    | some v =>
      rw [(parse_string_eq _ arg).1 v h, List.filter_cons_of_neg (by simp [h])]
      exact ih (i + 1)
    | none =>
      rw [(parse_string_eq _ arg).2 h, List.filter_cons_of_pos (by simp [h])]
      exact congrArg _ (ih (i + 1))

theorem toInt_ofInt_clamp {v : ℤ} (h : -2 ^ 31 ≤ v ∧ v < 2 ^ 31) :
    (BitVec.ofInt 32 (clamp v)).toInt = v := by
  have hclamp : clamp v = v := by
    simp only [clamp]
    omega
  rw [hclamp, BitVec.toInt_ofInt, Int.bmod_def]
  omega

theorem mem_filterMap_intValue {V : BitVec 32} :
    V ∈ es.filterMap Element.intValue ↔ .int V ∈ es := by
  rw [List.mem_filterMap]
  constructor
  · rintro ⟨e, he, hV⟩
    cases e with
    | int value => rwa [← Option.some.inj hV]
    | str p t => exact absurd hV (by simp [Element.intValue])
  · exact fun h => ⟨_, h, rfl⟩

theorem map_printed_of_sorted (h : es.Pairwise fun a b => a.key ≤ b.key) :
    es.map printed =
      (es.filterMap Element.intValue).map .int ++ (es.filterMap Element.strValue).map .str := by
  induction es with
  | nil => rfl
  | cons e es ih =>
    rw [List.pairwise_cons] at h
    rw [List.map_cons, List.filterMap_cons, List.filterMap_cons, ih h.2]
    cases e with
    | int value => rfl
    | str p t =>
      have hnil : es.filterMap Element.intValue = [] := by
        refine List.eq_nil_iff_forall_not_mem.mpr fun V hV => ?_
        exact absurd (h.1 _ (mem_filterMap_intValue.mp hV)) (Sum.Lex.not_inr_le_inl)
      rw [hnil]
      rfl

theorem ints_of_map_printed {ints : List (BitVec 32)} {strs : List Str}
    (h : es.map printed = ints.map .int ++ strs.map .str) :
    es.filterMap Element.intValue = ints := by
  have hints : ∀ es : List Element, (es.map printed).filterMap Printed.intArg =
      es.filterMap Element.intValue := by
    intro es
    rw [List.filterMap_map]
    congr 1
    funext e
    cases e <;> rfl
  rw [← hints, h]
  simp [List.filterMap_map, Function.comp_def, Printed.intArg]

variable {qsort : (Element → Element → Option ℤ) → List Element → List Element}

theorem diffFits_of_near (h : Near argv) (i : ℕ) {V W : BitVec 32}
    (hV : .int V ∈ parseAll strdup i argv) (hW : .int W ∈ parseAll strdup i argv) :
    DiffFits V W := by
  have key : ∀ U : BitVec 32, .int U ∈ parseAll strdup i argv → U.toInt ∈ values argv := by
    intro U hU
    rw [← mem_filterMap_intValue, filterMap_intValue] at hU
    obtain ⟨v, hv, rfl⟩ := List.mem_map.mp hU
    rwa [toInt_ofInt_clamp (h.1 v hv)]
  have hVW := h.2 _ (key V hV) _ (key W hW)
  have hWV := h.2 _ (key W hW) _ (key V hV)
  exact ⟨by omega, hVW⟩

/-- **The output is sorted** if the numbers are near each other. -/
theorem sortedOutput_of_near (hq : Sorts qsort) (h : Near argv) :
    Consistent (compare link) (parseAll strdup 0 argv) ∧
      ∃ out, main link qsort strdup argv = some out ∧ SortedOutput argv out := by
  have htells : ∀ a ∈ parseAll strdup 0 argv, ∀ b ∈ parseAll strdup 0 argv,
      ∃ r, compare link a b = some r ∧ Tells r a.key b.key := fun a ha b hb =>
    compare_tells link fun V W hV hW => diffFits_of_near h 0 (hV ▸ ha) (hW ▸ hb)
  have hcons : Consistent (compare link) (parseAll strdup 0 argv) := consistent_of_tells htells
  obtain ⟨hperm, hpre⟩ := hq _ _ hcons
  have hsorted : (qsort (compare link) (parseAll strdup 0 argv)).Pairwise
      fun a b => a.key ≤ b.key :=
    hpre.imp_of_mem fun ha hb hab =>
      (precedes_iff (htells _ (hperm.mem_iff.mp ha) _ (hperm.mem_iff.mp hb))).mp hab
  refine ⟨hcons, _, main_eq qsort, _, _, by rw [map_printed_of_sorted hsorted], ?_, ?_, ?_, ?_⟩
  · have hvalues : (values argv).map (fun v => (BitVec.ofInt 32 (clamp v)).toInt) = values argv :=
      (List.map_congr_left fun v hv => toInt_ofInt_clamp (h.1 v hv)).trans (List.map_id' _)
    have hmap := (hperm.filterMap Element.intValue).map BitVec.toInt
    rw [filterMap_intValue, List.map_map] at hmap
    exact hmap.trans (.of_eq hvalues)
  · refine hsorted.filterMap _ fun a b hab V hV W hW => ?_
    cases a <;> cases b <;> simp_all [Element.intValue, Element.key]
  · exact (hperm.filterMap Element.strValue).trans (.of_eq (filterMap_strValue 0))
  · refine hsorted.filterMap _ fun a b hab s hs t ht => ?_
    cases a <;> cases b <;> simp_all [Element.strValue, Element.key]

theorem pairwise_or {α : Type} {R : α → α → Prop} {l : List α} (h : l.Pairwise R) {a b : α}
    (ha : a ∈ l) (hb : b ∈ l) (hne : a ≠ b) : R a b ∨ R b a := by
  have hor : l.Pairwise fun a b => R a b ∨ R b a := h.imp Or.inl
  have hsymm : Std.Symm fun a b => R a b ∨ R b a := ⟨fun _ _ => Or.symm⟩
  exact hor.forall ha hb hne

/-- **If the output is sorted**, the numbers are near each other. -/
theorem near_of_sortedOutput (hq : Sorts qsort)
    (hcons : Consistent (compare link) (parseAll strdup 0 argv)) {out : List Printed}
    (hmain : main link qsort strdup argv = some out) (hout : SortedOutput argv out) :
    Near argv := by
  obtain ⟨ints, strs, rfl, hvalues, hasc, -, -⟩ := hout
  obtain ⟨hperm, hpre⟩ := hq _ _ hcons
  rw [main_eq, Option.some.injEq, List.cons.injEq] at hmain
  have hints := ints_of_map_printed (List.append_cancel_right hmain.2)
  have hof : ∀ v ∈ values argv, ∃ V ∈ ints, V.toInt = v := fun v hv =>
    List.mem_map.mp (hvalues.mem_iff.mpr hv)
  refine ⟨fun v hv => ?_, fun v hv w hw => ?_⟩
  · obtain ⟨V, -, rfl⟩ := hof v hv
    have hlt := V.toInt_lt
    have hle := V.le_toInt
    omega
  obtain ⟨V, hV, rfl⟩ := hof v hv
  obtain ⟨W, hW, rfl⟩ := hof w hw
  have hmem : ∀ U ∈ ints, .int U ∈ parseAll strdup 0 argv := fun U hU =>
    hperm.mem_iff.mp (mem_filterMap_intValue.mp (hints ▸ hU))
  by_contra hfar
  -- in the output `W` comes before `V`, though `compare` does not say so
  have horder : ints.Pairwise fun A B => A.toInt ≤ B.toInt ∧
      precedes (compare link) (.int A) (.int B) = true := by
    refine hasc.and ?_
    rw [← hints]
    refine hpre.filterMap _ fun a b hab A hA B hB => ?_
    cases a <;> cases b <;> simp_all [Element.intValue]
  have hne : W ≠ V := fun h => hfar (by rw [h]; omega)
  have hWV : precedes (compare link) (.int W) (.int V) = true := by
    rcases pairwise_or horder hW hV hne with h | h
    · exact h.2
    · exact absurd h.1 (by omega)
  have hlt := V.toInt_lt
  have hle := W.le_toInt
  rw [precedes_int_int] at hWV
  have hanti : Antipodal (.int V) (.int W) := .inl (by omega)
  refine (sign_sub_iff V W).mp ?_ hanti
  exact hcons.opposite _ (hmem V hV) _ (hmem W hW) _ _ (compare_int_int V W) (compare_int_int W V)

end Main

/-- **When `compare` is a total preorder, and the output is sorted.** -/
theorem main_sorts_iff (link : Link) :
    (∀ a b, (∃ r s, compare link a b = some r ∧ compare link b a = some s ∧ r.sign = -s.sign) ↔
        ¬Antipodal a b) ∧
      (∀ a b c, (precedes (compare link) a b = true → precedes (compare link) b c = true →
        precedes (compare link) a c = true) ↔ ¬Cyclic a b c) ∧
      ∀ qsort, Sorts qsort → ∀ strdup argv,
        (Consistent (compare link) (parseAll strdup 0 argv) ∧
          ∃ out, main link qsort strdup argv = some out ∧ SortedOutput argv out) ↔ Near argv :=
  ⟨compare_opposite_iff, compare_trans_iff, fun _ hq _ _ =>
    ⟨fun ⟨hcons, _, hmain, hout⟩ => near_of_sortedOutput hq hcons hmain hout,
      sortedOutput_of_near hq⟩⟩

/-- `sortmain 7 b -3`. -/
theorem main_sorts_three : ∃ out, main mainLink sort (fun i => BitVec.ofNat 64 (16 * i))
    [⟨[ch '7'], by decide⟩, ⟨[ch 'b'], by decide⟩, ⟨[ch '-', ch '3'], by decide⟩] = some out ∧
    SortedOutput [⟨[ch '7'], by decide⟩, ⟨[ch 'b'], by decide⟩, ⟨[ch '-', ch '3'], by decide⟩]
      out := by
  refine (((main_sorts_iff mainLink).2.2 sort sorts_sort _ _).mpr ?_).2
  have hvalues : values [⟨[ch '7'], by decide⟩, ⟨[ch 'b'], by decide⟩,
      ⟨[ch '-', ch '3'], by decide⟩] = [7, -3] := by decide
  rw [Near, hvalues]
  decide

/-- **`2147483647` and `-1`**: each is below the other. -/
theorem compare_far : ¬∃ r s, compare mainLink (.int 2147483647) (.int (-1)) = some r ∧
    compare mainLink (.int (-1)) (.int 2147483647) = some s ∧ r.sign = -s.sign := by
  rintro ⟨r, s, hr, hs, hsign⟩
  rw [compare_int_int, Option.some.injEq] at hr hs
  rw [← hr, ← hs] at hsign
  exact absurd hsign (by decide)

end IntroSystems.Elements.Sortmain
