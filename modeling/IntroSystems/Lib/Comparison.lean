import Mathlib

/-!
# Comparison functions

Functions that compare two values and return a number, as `qsort` takes them. `none` is a comparison
that does not return.

* `Tells`: the number tells an order.
* `Consistent`: the function does not contradict itself. **`consistent_of_tells`**.
* `Sorts`: what `qsort` promises. `sort`, **`sorts_sort`**: a function that keeps the promise.
-/

set_option autoImplicit false

namespace IntroSystems.Comparison

variable {α β : Type}

/-- A comparison function that returns `r` tells the order of `a` and `b`. -/
def Tells [LT β] (r : ℤ) (a b : β) : Prop := (r < 0 ↔ a < b) ∧ (r = 0 ↔ a = b) ∧ (0 < r ↔ b < a)

/-- `cmp (a, b) <= 0`. -/
def precedes (cmp : α → α → Option ℤ) (a b : α) : Bool := (cmp a b).any (· ≤ 0)

/-- On the values of `xs`, `cmp` returns, gives opposite answers when its arguments are exchanged,
and is transitive. -/
structure Consistent (cmp : α → α → Option ℤ) (xs : List α) : Prop where
  returns : ∀ a ∈ xs, ∀ b ∈ xs, ∃ r, cmp a b = some r
  opposite : ∀ a ∈ xs, ∀ b ∈ xs, ∀ r s, cmp a b = some r → cmp b a = some s → r.sign = -s.sign
  trans : ∀ a ∈ xs, ∀ b ∈ xs, ∀ c ∈ xs,
    precedes cmp a b = true → precedes cmp b c = true → precedes cmp a c = true

/-- The contract of `qsort`. It says nothing about a comparison that contradicts itself. -/
def Sorts (qsort : (α → α → Option ℤ) → List α → List α) : Prop :=
  ∀ cmp xs, Consistent cmp xs →
    (qsort cmp xs).Perm xs ∧ (qsort cmp xs).Pairwise fun a b => precedes cmp a b = true

/-! ### Telling an order -/

section Tells

variable [LinearOrder β] {r : ℤ} {a b : β}

theorem Tells.of_lt (hr : r < 0) (h : a < b) : Tells r a b :=
  ⟨iff_of_true hr h, iff_of_false hr.ne h.ne, iff_of_false hr.not_gt h.not_gt⟩

theorem Tells.of_eq (hr : r = 0) (h : a = b) : Tells r a b :=
  ⟨iff_of_false hr.not_lt h.not_lt, iff_of_true hr h, iff_of_false hr.not_gt h.not_gt⟩

theorem Tells.of_gt (hr : 0 < r) (h : b < a) : Tells r a b :=
  ⟨iff_of_false hr.not_gt h.not_gt, iff_of_false hr.ne' h.ne', iff_of_true hr h⟩

theorem Tells.nonpos_iff (h : Tells r a b) : r ≤ 0 ↔ a ≤ b := by
  rw [← not_lt, ← not_lt, h.2.2]

theorem Tells.sign_eq {s : ℤ} (h : Tells r a b) (h' : Tells s b a) : r.sign = -s.sign := by
  rcases lt_trichotomy a b with hab | hab | hab
  · rw [Int.sign_eq_neg_one_of_neg (h.1.mpr hab), Int.sign_eq_one_of_pos (h'.2.2.mpr hab)]
  · rw [h.2.1.mpr hab, h'.2.1.mpr hab.symm]
    rfl
  · rw [Int.sign_eq_one_of_pos (h.2.2.mpr hab), Int.sign_eq_neg_one_of_neg (h'.1.mpr hab)]
    rfl

variable {cmp : α → α → Option ℤ} {xs : List α} {key : α → β}

theorem precedes_iff {x y : α} (h : ∃ r, cmp x y = some r ∧ Tells r (key x) (key y)) :
    precedes cmp x y = true ↔ key x ≤ key y := by
  obtain ⟨r, hr, htells⟩ := h
  rw [precedes, hr, Option.any_some, decide_eq_true_iff, htells.nonpos_iff]

/-- **A comparison that tells an order is consistent.** -/
theorem consistent_of_tells
    (h : ∀ x ∈ xs, ∀ y ∈ xs, ∃ r, cmp x y = some r ∧ Tells r (key x) (key y)) :
    Consistent cmp xs where
  returns x hx y hy := (h x hx y hy).imp fun _ hr => hr.1
  opposite x hx y hy r s hr hs := by
    obtain ⟨r', hr', htells⟩ := h x hx y hy
    obtain ⟨s', hs', htells'⟩ := h y hy x hx
    obtain rfl := Option.some.inj (hr.symm.trans hr')
    obtain rfl := Option.some.inj (hs.symm.trans hs')
    exact htells.sign_eq htells'
  trans x hx y hy z hz hxy hyz := by
    rw [precedes_iff (h x hx y hy)] at hxy
    rw [precedes_iff (h y hy z hz)] at hyz
    rw [precedes_iff (h x hx z hz)]
    exact le_trans hxy hyz

end Tells

/-! ### A sorting function -/

/-- Merge sort. -/
def sort (cmp : α → α → Option ℤ) (xs : List α) : List α :=
  (xs.attach.mergeSort fun a b => precedes cmp a.1 b.1).map Subtype.val

/-- **Merge sort keeps the contract.** -/
theorem sorts_sort : Sorts (@sort α) := by
  intro cmp xs h
  constructor
  · calc sort cmp xs
        _ |>.Perm (xs.attach.map Subtype.val) := (List.mergeSort_perm _ _).map _
        _ |>.Perm xs := by rw [List.attach_map_subtype_val]
  · refine List.pairwise_map.mpr (List.pairwise_mergeSort ?_ ?_ _)
    · exact fun a b c => h.trans a.1 a.2 b.1 b.2 c.1 c.2
    · intro a b
      obtain ⟨r, hr⟩ := h.returns a.1 a.2 b.1 b.2
      obtain ⟨s, hs⟩ := h.returns b.1 b.2 a.1 a.2
      have hsign := h.opposite a.1 a.2 b.1 b.2 r s hr hs
      rw [precedes, precedes, hr, hs, Option.any_some, Option.any_some, Bool.or_eq_true,
        decide_eq_true_iff, decide_eq_true_iff]
      by_contra hpos
      rw [not_or, not_le, not_le] at hpos
      rw [Int.sign_eq_one_of_pos hpos.1, Int.sign_eq_one_of_pos hpos.2] at hsign
      exact absurd hsign (by decide)

end IntroSystems.Comparison
