import Mathlib.Data.List.Chain
import Mathlib.Order.Lattice

/-!
# Tilings of an interval by blocks

A block is a nonempty half-open interval of a linear order, in use or free. A list of blocks
tiles `[a, b)` when each block starts where the one before it ends.

* `Tiles`, `tiles_append`, `Tiles.replace`: cutting a tiling and replacing a run of blocks.
* `Tiles.disjoint`: two blocks of a tiling do not overlap.
* `Coalesced`, `coalesced_middle`: no two consecutive blocks are free.
* `Tiles.exists_next`, `Tiles.exists_prev`: the neighbours of a block.
* **`Tiles.unique`**: a coalesced tiling is determined by its used blocks.
* **`Tiles.free_iff_maximalGap`**: its free blocks are the maximal gaps between the used ones.
-/

set_option autoImplicit false

namespace Tiling

/-- A block `[lo, hi)`, in use or free. -/
@[ext] structure Block (α : Type) [LT α] where
  lo : α
  hi : α
  lt : lo < hi
  used : Bool

section Preorder

variable {α : Type} [Preorder α]

/-- The blocks of the list tile `[a, b)`, in order. -/
def Tiles : α → α → List (Block α) → Prop
  | a, b, [] => a = b
  | a, b, x :: xs => x.lo = a ∧ Tiles x.hi b xs

/-- No two consecutive blocks are free. -/
def Coalesced (xs : List (Block α)) : Prop := xs.IsChain fun x y => x.used = true ∨ y.used = true

variable {a b c : α} {x y : Block α} {xs ys mid mid' : List (Block α)}

@[simp] theorem tiles_nil : Tiles a b ([] : List (Block α)) ↔ a = b := Iff.rfl

@[simp] theorem tiles_cons : Tiles a b (x :: xs) ↔ x.lo = a ∧ Tiles x.hi b xs := Iff.rfl

theorem tiles_append : Tiles a c (xs ++ ys) ↔ ∃ b, Tiles a b xs ∧ Tiles b c ys := by
  induction xs generalizing a with
  | nil => simp
  | cons x xs ih => simp only [List.cons_append, tiles_cons, ih, and_assoc, exists_and_left]

theorem Tiles.end_eq (h : Tiles a b xs) (h' : Tiles a c xs) : b = c := by
  induction xs generalizing a with
  | nil => exact h.symm.trans h'
  | cons x xs ih => exact ih h.2 h'.2

/-- **A run of blocks may be replaced by another run that tiles the same interval.** -/
theorem Tiles.replace (h : Tiles a b (xs ++ (x :: mid ++ ys))) (hm : Tiles x.lo c (x :: mid))
    (hm' : Tiles x.lo c mid') : Tiles a b (xs ++ (mid' ++ ys)) := by
  obtain ⟨l, hx, h⟩ := tiles_append.mp h
  obtain ⟨r, hmid, hy⟩ := tiles_append.mp h
  obtain rfl : x.lo = l := hmid.1
  obtain rfl : r = c := hmid.end_eq hm
  exact tiles_append.mpr ⟨_, hx, tiles_append.mpr ⟨_, hm', hy⟩⟩

theorem Tiles.le (h : Tiles a b xs) : a ≤ b := by
  induction xs generalizing a with
  | nil => exact le_of_eq h
  | cons x xs ih => exact h.1 ▸ x.lt.le.trans (ih h.2)

theorem Tiles.bounds (h : Tiles a b xs) (hx : x ∈ xs) : a ≤ x.lo ∧ x.hi ≤ b := by
  obtain ⟨pre, post, rfl⟩ := List.append_of_mem hx
  obtain ⟨l, h1, h2⟩ := tiles_append.mp h
  exact ⟨h2.1 ▸ h1.le, h2.2.le⟩

theorem Tiles.pairwise (h : Tiles a b xs) : xs.Pairwise fun x y => x.hi ≤ y.lo := by
  induction xs generalizing a with
  | nil => exact List.Pairwise.nil
  | cons x xs ih => exact List.pairwise_cons.mpr ⟨fun y hy => (h.2.bounds hy).1, ih h.2⟩

/-- **Two blocks of a tiling do not overlap.** -/
theorem Tiles.disjoint (h : Tiles a b xs) (hx : x ∈ xs) (hy : y ∈ xs) (hne : x ≠ y) :
    x.hi ≤ y.lo ∨ y.hi ≤ x.lo := by
  have hsymm : Std.Symm fun x y : Block α => x.hi ≤ y.lo ∨ y.hi ≤ x.lo := ⟨fun _ _ => Or.symm⟩
  have hp : xs.Pairwise fun x y => x.hi ≤ y.lo ∨ y.hi ≤ x.lo := h.pairwise.imp Or.inl
  exact hp.forall hx hy hne

theorem Tiles.eq_of_lo (h : Tiles a b xs) (hx : x ∈ xs) (hy : y ∈ xs) (he : x.lo = y.lo) : x = y := by
  by_contra hne
  rcases h.disjoint hx hy hne with h' | h'
  · exact absurd (x.lt.trans_le h') (he ▸ lt_irrefl _)
  · exact absurd (y.lt.trans_le h') (he ▸ lt_irrefl _)

theorem Tiles.nodup (h : Tiles a b xs) : xs.Nodup := by
  refine h.pairwise.imp fun {x y} hxy e => ?_
  rw [← e] at hxy
  exact absurd (x.lt.trans_le hxy) (lt_irrefl _)

/-! ## Neighbours -/

theorem coalesced_middle : Coalesced (xs ++ x :: ys) ↔ (Coalesced xs ∧ Coalesced ys) ∧
    (∀ w ∈ xs.getLast?, w.used = true ∨ x.used = true) ∧
    ∀ y ∈ ys.head?, x.used = true ∨ y.used = true := by
  simp only [Coalesced, List.isChain_append, List.isChain_cons, List.head?_cons, Option.mem_def,
    Option.some.injEq, forall_eq']
  tauto

theorem Tiles.exists_next (h : Tiles a b xs) (hx : x ∈ xs) :
    x.hi = b ∨ ∃ y ∈ xs, y.lo = x.hi ∧ (Coalesced xs → x.used = true ∨ y.used = true) := by
  obtain ⟨pre, post, rfl⟩ := List.append_of_mem hx
  obtain ⟨l, -, h2⟩ := tiles_append.mp h
  rcases post with _ | ⟨y, post⟩
  · exact .inl h2.2
  · refine .inr ⟨y, by simp, h2.2.1, fun hc => (coalesced_middle.mp hc).2.2 y rfl⟩

theorem Tiles.exists_prev (h : Tiles a b xs) (hx : x ∈ xs) :
    x.lo = a ∨ ∃ w ∈ xs, w.hi = x.lo ∧ (Coalesced xs → w.used = true ∨ x.used = true) := by
  obtain ⟨pre, post, rfl⟩ := List.append_of_mem hx
  obtain ⟨l, h1, h2⟩ := tiles_append.mp h
  rcases List.eq_nil_or_concat pre with rfl | ⟨pre, w, rfl⟩
  · exact .inl (h2.1.trans h1.symm)
  · rw [List.concat_eq_append] at h1 hx
    obtain ⟨k, -, h3⟩ := tiles_append.mp h1
    refine .inr ⟨w, by simp, h3.2.trans h2.1.symm, fun hc => ?_⟩
    exact (coalesced_middle.mp hc).2.1 w (by simp)

end Preorder

section LinearOrder

variable {α : Type} [LinearOrder α] {a b : α} {x : Block α} {xs ys : List (Block α)}

theorem Tiles.exists_mem (h : Tiles a b xs) {p : α} (ha : a ≤ p) (hb : p < b) :
    ∃ x ∈ xs, x.lo ≤ p ∧ p < x.hi := by
  induction xs generalizing a with
  | nil => exact absurd (ha.trans_lt hb) (h ▸ lt_irrefl _)
  | cons x xs ih =>
    by_cases hp : p < x.hi
    · exact ⟨x, by simp, h.1 ▸ ha, hp⟩
    · obtain ⟨y, hy, hyp⟩ := ih h.2 (not_lt.mp hp)
      exact ⟨y, List.mem_cons_of_mem _ hy, hyp⟩

theorem Coalesced.tail (h : Coalesced (x :: xs)) : Coalesced xs := List.IsChain.tail h

/-- Of two coalesced tilings with the same used blocks, the first blocks end together. -/
theorem Tiles.first_hi_le {y : Block α} (hx : Tiles a b (x :: xs)) (hy : Tiles a b (y :: ys))
    (hcx : Coalesced (x :: xs)) (hu : ∀ z : Block α, z.used = true → (z ∈ x :: xs ↔ z ∈ y :: ys)) :
    y.hi ≤ x.hi := by
  by_contra hlt
  rw [not_le] at hlt
  by_cases hxu : x.used = true
  · -- a used first block is a block of both tilings
    have := hy.eq_of_lo ((hu x hxu).mp List.mem_cons_self) List.mem_cons_self (hx.1.trans hy.1.symm)
    exact absurd hlt (this ▸ lt_irrefl _)
  · rcases hx.exists_next List.mem_cons_self with h | ⟨z, hz, hzx, hzu⟩
    · exact absurd (hlt.trans_le hy.2.le) (h ▸ lt_irrefl _)
    · -- the next block is used and starts inside `y`
      have hzu := (hzu hcx).resolve_left hxu
      have hzy := (hu z hzu).mp hz
      have hne : z ≠ y := fun e => by
        have h1 : x.lo < z.lo := hzx ▸ x.lt
        rw [e, hy.1, hx.1] at h1
        exact lt_irrefl _ h1
      rcases hy.disjoint hzy List.mem_cons_self hne with h | h
      · rw [hy.1, ← hx.1] at h
        exact absurd (z.lt.trans_le (h.trans (hzx ▸ x.lt.le))) (lt_irrefl _)
      · exact absurd (hlt.trans_le (h.trans_eq hzx)) (lt_irrefl _)

/-- **A coalesced tiling is determined by its used blocks.** -/
theorem Tiles.unique (hx : Tiles a b xs) (hy : Tiles a b ys) (hcx : Coalesced xs)
    (hcy : Coalesced ys) (hu : ∀ z : Block α, z.used = true → (z ∈ xs ↔ z ∈ ys)) : xs = ys := by
  induction xs generalizing a ys with
  | nil =>
    rcases ys with _ | ⟨y, ys⟩
    · rfl
    · exact absurd (y.lt.trans_le hy.2.le) (by rw [hy.1, tiles_nil.mp hx]; exact lt_irrefl _)
  | cons x xs ih =>
    rcases ys with _ | ⟨y, ys⟩
    · exact absurd (x.lt.trans_le hx.2.le) (by rw [hx.1, tiles_nil.mp hy]; exact lt_irrefl _)
    have hhi : x.hi = y.hi := le_antisymm
      (hy.first_hi_le hx hcy fun z hz => (hu z hz).symm) (hx.first_hi_le hy hcx hu)
    have hlo : x.lo = y.lo := hx.1.trans hy.1.symm
    have hxy : x = y := by
      by_cases hxu : x.used = true
      · exact hy.eq_of_lo ((hu x hxu).mp List.mem_cons_self) List.mem_cons_self hlo
      by_cases hyu : y.used = true
      · exact hx.eq_of_lo List.mem_cons_self ((hu y hyu).mpr List.mem_cons_self) hlo
      exact Block.ext hlo hhi (by simp_all)
    subst hxy
    refine congrArg _ (ih hx.2 hy.2 hcx.tail hcy.tail fun z hz => ?_)
    have hnx := (List.nodup_cons.mp hx.nodup).1
    have hny := (List.nodup_cons.mp hy.nodup).1
    have := hu z hz
    simp only [List.mem_cons] at this
    by_cases hzx : z = x
    · subst hzx; simp [hnx, hny]
    · simpa [hzx] using this

/-! ## Gaps -/

/-- `[lo, hi)` is a nonempty part of `[a, b)` that meets none of the intervals `U`. -/
structure Gap (a b : α) (U : α → α → Prop) (lo hi : α) : Prop where
  le_lo : a ≤ lo
  lt : lo < hi
  hi_le : hi ≤ b
  avoids : ∀ l r, U l r → r ≤ lo ∨ hi ≤ l

/-- A gap that lies in no larger gap. -/
def MaximalGap (a b : α) (U : α → α → Prop) (lo hi : α) : Prop :=
  Gap a b U lo hi ∧ ∀ l r, Gap a b U l r → l ≤ lo → hi ≤ r → l = lo ∧ r = hi

/-- The intervals of the used blocks. -/
def UsedSpan (xs : List (Block α)) (l r : α) : Prop := ∃ u ∈ xs, u.used = true ∧ u.lo = l ∧ u.hi = r

theorem Tiles.gap_of_free (h : Tiles a b xs) (hx : x ∈ xs) (hf : x.used = false) :
    Gap a b (UsedSpan xs) x.lo x.hi where
  le_lo := (h.bounds hx).1
  lt := x.lt
  hi_le := (h.bounds hx).2
  avoids := by
    rintro l r ⟨u, hu, huu, rfl, rfl⟩
    exact h.disjoint hu hx fun e => by rw [e, hf] at huu; exact absurd huu (by decide)

theorem Tiles.gap_subset (h : Tiles a b xs) (hc : Coalesced xs) (hx : x ∈ xs) (hf : x.used = false)
    {l r : α} (hg : Gap a b (UsedSpan xs) l r) (hl : l < x.hi) (hr : x.lo < r) :
    x.lo ≤ l ∧ r ≤ x.hi := by
  constructor
  · by_contra hlt
    rw [not_le] at hlt
    rcases h.exists_prev hx with e | ⟨w, hw, he, hwu⟩
    · exact absurd (hg.le_lo.trans_lt hlt) (e ▸ lt_irrefl _)
    · have hwu : w.used = true := (hwu hc).resolve_right (by simp [hf])
      rcases hg.avoids _ _ ⟨w, hw, hwu, rfl, rfl⟩ with h' | h'
      · exact absurd (h'.trans_lt hlt) (he ▸ lt_irrefl _)
      · exact absurd (h'.trans_lt (he ▸ w.lt)) (not_lt.mpr hr.le)
  · by_contra hlt
    rw [not_le] at hlt
    rcases h.exists_next hx with e | ⟨y, hy, he, hyu⟩
    · exact absurd (hlt.trans_le hg.hi_le) (e ▸ lt_irrefl _)
    · have hyu : y.used = true := (hyu hc).resolve_left (by simp [hf])
      rcases hg.avoids _ _ ⟨y, hy, hyu, rfl, rfl⟩ with h' | h'
      · exact absurd ((he ▸ y.lt).trans_le h') (not_lt.mpr hl.le)
      · exact absurd (hlt.trans_le h') (he ▸ lt_irrefl _)

/-- **The free blocks of a coalesced tiling are the maximal gaps between its used blocks.** -/
theorem Tiles.free_iff_maximalGap (h : Tiles a b xs) (hc : Coalesced xs) (lo hi : α) :
    (∃ x ∈ xs, x.used = false ∧ x.lo = lo ∧ x.hi = hi) ↔ MaximalGap a b (UsedSpan xs) lo hi := by
  constructor
  · rintro ⟨x, hx, hf, rfl, rfl⟩
    refine ⟨h.gap_of_free hx hf, fun l r hg hl hr => ?_⟩
    obtain ⟨h1, h2⟩ := h.gap_subset hc hx hf hg (hl.trans_lt x.lt) (x.lt.trans_le hr)
    exact ⟨le_antisymm hl h1, le_antisymm h2 hr⟩
  · rintro ⟨hg, hmax⟩
    obtain ⟨x, hx, hlo, hhi⟩ := h.exists_mem hg.le_lo (hg.lt.trans_le hg.hi_le)
    have hf : x.used = false := by
      by_contra hu
      rw [Bool.not_eq_false] at hu
      rcases hg.avoids _ _ ⟨x, hx, hu, rfl, rfl⟩ with h' | h'
      · exact absurd (hhi.trans_le h') (lt_irrefl _)
      · exact absurd (hg.lt.trans_le (h'.trans hlo)) (lt_irrefl _)
    obtain ⟨h1, h2⟩ := h.gap_subset hc hx hf hg hhi (hlo.trans_lt hg.lt)
    obtain ⟨e1, e2⟩ := hmax _ _ (h.gap_of_free hx hf) h1 h2
    exact ⟨x, hx, hf, e1, e2⟩

end LinearOrder

end Tiling
