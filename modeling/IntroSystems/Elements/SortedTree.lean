import IntroSystems.Elements.Classes
import IntroSystems.Lib.SearchTree

/-!
# The tree of elements

`tree_insert_node` of assignment 7, on trees as values.

* `tree_insert_node_helper`, `tree_insert_node`.
* `belongsLeft`, `Placeable`: the side where a new element belongs, and when it finds it.
* **`compare_sorts_iff`**: when the comparison is the documented order, and when the tree is sorted
  by it.
-/

set_option autoImplicit false

namespace IntroSystems.Elements

open CString Comparison SearchTree Element

variable (link : Link)

/-- `none` is a comparison that does not return. -/
def Element.tree_insert_node_helper (e : Element) : BinaryTree Element → Option (BinaryTree Element)
  | .nil => some (.node e .nil .nil)
  | .node elem left right => do
    let r ← compare link e elem
    if r ≤ 0 then do
      let left ← tree_insert_node_helper e left
      some (.node elem left right)
    else do
      let right ← tree_insert_node_helper e right
      some (.node elem left right)

def Element.tree_insert_node (t : BinaryTree Element) (e : Element) : Option (BinaryTree Element) :=
  tree_insert_node_helper link e t

/-- The tree after all of `es` have been inserted. -/
def treeOf (es : List Element) : Option (BinaryTree Element) :=
  es.foldlM (tree_insert_node link) .nil

/-- `e->class->compare(e, elem) <= 0`. -/
def goesLeft : Element → Element → Bool := precedes (compare link)

/-- The new `e` belongs to the left of `elem`. -/
def belongsLeft (e elem : Element) : Bool := e.key ≤ elem.key

/-- The new `e` is sent to the side of `elem` where it belongs. -/
def Placeable : Element → Element → Prop
  | .int v, .int w => DiffFits v w
  | .str _ s, .str _ t => s.key ≤ t.key
  | _, _ => True

variable {link}

theorem tree_insert_node_eq (t : BinaryTree Element) (e : Element) :
    tree_insert_node link t e = some (SearchTree.insert (goesLeft link) e t) := by
  rw [tree_insert_node]
  induction t with
  | nil => rfl
  | node elem left right ihl ihr =>
    obtain ⟨r, hr⟩ := compare_isSome link e elem
    have hleft : goesLeft link e elem = decide (r ≤ 0) := by rw [goesLeft, precedes, hr]; rfl
    rw [tree_insert_node_helper, SearchTree.insert, hr, hleft, ihl, ihr]
    by_cases h : r ≤ 0
    · simp [h]
    · simp [h]

theorem treeOf_eq (es : List Element) : treeOf link es = some (ofList (goesLeft link) es) := by
  have key : ∀ t, es.foldlM (tree_insert_node link) t =
      some (insertAll (goesLeft link) t es) := by
    induction es with
    | nil => exact fun t => rfl
    | cons e es ih =>
      intro t
      rw [List.foldlM_cons, tree_insert_node_eq]
      exact ih _
  exact key .nil

/-- **Which elements find their side.** -/
theorem fits_iff (e elem : Element) :
    Fits (goesLeft link) (fun a b => a.key ≤ b.key) e elem ↔ Placeable e elem := by
  cases e with
  | int v =>
    cases elem with
    | int w =>
      have hleft : goesLeft link (.int v) (.int w) = decide ((v - w).toInt ≤ 0) := by
        rw [goesLeft, precedes, compare_int_int, Option.any_some, decide_eq_decide]
        split_ifs <;> omega
      rw [Fits, hleft]
      simp only [decide_eq_true_eq, Element.key, Sum.Lex.inl_le_inl_iff, Placeable]
      rcases toInt_sub_cases v w with ⟨hfit, h⟩ | ⟨hgt, h⟩ | ⟨hlt, h⟩
      · refine iff_of_true ?_ hfit
        split_ifs <;> omega
      · rw [if_pos h.le]
        exact iff_of_false (by omega) fun hfit => absurd hfit.2 (not_lt.mpr hgt)
      · rw [if_neg (by omega)]
        exact iff_of_false (by omega) fun hfit => absurd hfit.1 (not_le.mpr hlt)
    | str q t =>
      have hleft : goesLeft link (.int v) (.str q t) = true := by
        rw [goesLeft, precedes, compare_int_str]
        rfl
      rw [Fits, if_pos hleft]
      exact iff_of_true (Sum.Lex.inl_le_inr _ _) trivial
  | str p s =>
    cases elem with
    | int w =>
      have hleft : goesLeft link (.str p s) (.int w) = false := by
        rw [goesLeft, precedes, compare_str_int]
        rfl
      rw [Fits, if_neg (by rw [hleft]; decide)]
      exact iff_of_true (Sum.Lex.inl_le_inr _ _) trivial
    | str q t =>
      have hleft : goesLeft link (.str p s) (.str q t) = true := by
        rw [goesLeft, precedes, compare_str_str]
        rfl
      rw [Fits, if_pos hleft]
      exact Sum.Lex.inr_le_inr_iff

theorem goesLeft_eq (e elem : Element) (h : Placeable e elem) :
    goesLeft link e elem = belongsLeft e elem := by
  rw [Bool.eq_iff_iff, belongsLeft, decide_eq_true_iff]
  cases e with
  | int v =>
    cases elem with
    | int w => exact precedes_iff ((compare_tells_iff (.int v) (.int w)).mpr h)
    | str q t => exact precedes_iff ((compare_tells_iff (.int v) (.str q t)).mpr trivial)
  | str p s =>
    cases elem with
    | int w => exact precedes_iff ((compare_tells_iff (.str p s) (.int w)).mpr trivial)
    | str q t =>
      refine iff_of_true ?_ (Sum.Lex.inr_le_inr_iff.mpr h)
      rw [goesLeft, precedes, compare_str_str]
      rfl

/-- **When comparisons tell the order, and trees are sorted by it.** -/
theorem compare_sorts_iff (link : Link) :
    (∀ a b, (∃ r, compare link a b = some r ∧ Tells r a.key b.key) ↔ Comparable a b) ∧
      ∀ es, (∃ t, treeOf link es = some t ∧ (inorder t).Perm es ∧
          (inorder t).Pairwise fun a b => a.key ≤ b.key) ↔
        Placed belongsLeft Placeable es := by
  refine ⟨compare_tells_iff, fun es => ?_⟩
  have hfits : Fits (goesLeft link) (fun a b => a.key ≤ b.key) = Placeable := by
    funext e elem
    exact propext (fits_iff e elem)
  have hsorted := sorted_iff (goesLeft link)
    (fun a b c (hab : a.key ≤ b.key) (hbc : b.key ≤ c.key) => le_trans hab hbc) es
  have hplaced : Placed (goesLeft link) Placeable es ↔ Placed belongsLeft Placeable es :=
    ⟨.congr goesLeft_eq, .congr fun e elem h => (goesLeft_eq e elem h).symm⟩
  rw [hfits, hplaced] at hsorted
  rw [← hsorted, treeOf_eq]
  constructor
  · rintro ⟨t, ht, -, h⟩
    rwa [← Option.some.inj ht] at h
  · exact fun h => ⟨_, rfl, inorder_ofList_perm _ es, h⟩

/-- **`"a"` and `"b"` compare equal.** -/
theorem compare_strings :
    ¬∃ r, compare mainLink (.str 0x1000 ⟨[ch 'a'], by decide⟩) (.str 0x1010 ⟨[ch 'b'], by decide⟩) =
      some r ∧ Tells r (Element.str 0x1000 ⟨[ch 'a'], by decide⟩).key
        (Element.str 0x1010 ⟨[ch 'b'], by decide⟩).key := by
  rintro ⟨r, hr, htells⟩
  rw [compare_str_str, Option.some.injEq] at hr
  have hlt : r < 0 := htells.1.mpr (Sum.Lex.inr_lt_inr_iff.mpr (by decide))
  omega

end IntroSystems.Elements
