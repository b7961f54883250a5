import Mathlib.Algebra.BigOperators.Group.Finset.Basic
import Mathlib.Algebra.BigOperators.Ring.Finset
import Mathlib.Algebra.Order.BigOperators.Group.Finset
import Mathlib.Data.Fintype.BigOperators
import Mathlib.Tactic.Ring

/-!
# Tallies of threads

Each of finitely many threads is at a program point, `pc : T → L`.

* `total g pc`: the sum of the weights `g` of the threads' points. `number p pc`: how many threads
  are at a point where `p` holds.
* **`total_update`**, **`number_update`**: one thread moves.
* `number_pos_iff`, `number_eq_zero_iff`, `number_lt_card_iff`.
-/

set_option autoImplicit false

namespace Tally

variable {T L : Type} [Fintype T] [DecidableEq T]

/-- The sum of the weights of all threads. -/
def total (g : T → L → ℤ) (pc : T → L) : ℤ := ∑ t, g t (pc t)

/-- The number of threads at a point where `p` holds. -/
def number (p : T → L → Bool) (pc : T → L) : ℤ := (Finset.univ.filter fun t => p t (pc t)).card

variable {pc : T → L} {p q : T → L → Bool}

omit [DecidableEq T] in
theorem number_eq_total (p : T → L → Bool) (pc : T → L) :
    number p pc = total (fun t l => if p t l then 1 else 0) pc := by
  unfold number total
  rw [Finset.card_filter, Nat.cast_sum]
  simp

/-- **One thread moves.** -/
theorem total_update (g : T → L → ℤ) (pc : T → L) (t : T) (l : L) :
    total g (Function.update pc t l) = total g pc - g t (pc t) + g t l := by
  unfold total
  rw [← Finset.add_sum_erase _ _ (Finset.mem_univ t), ← Finset.add_sum_erase _ _ (Finset.mem_univ t),
    Function.update_self]
  have hrest : ∀ u ∈ Finset.univ.erase t, g u (Function.update pc t l u) = g u (pc u) := by
    intro u hu
    rw [Function.update_of_ne (Finset.ne_of_mem_erase hu)]
  rw [Finset.sum_congr rfl hrest]
  ring

theorem number_update (p : T → L → Bool) (pc : T → L) (t : T) (l : L) :
    number p (Function.update pc t l) =
      number p pc - (if p t (pc t) then 1 else 0) + if p t l then 1 else 0 := by
  rw [number_eq_total, number_eq_total, total_update]

theorem number_update_of_eq {t : T} {l : L} (h : p t l = p t (pc t)) :
    number p (Function.update pc t l) = number p pc := by
  rw [number_update, h]
  omega

omit [DecidableEq T]

theorem number_nonneg (p : T → L → Bool) (pc : T → L) : 0 ≤ number p pc := Int.natCast_nonneg _

theorem number_pos_iff : 0 < number p pc ↔ ∃ t, p t (pc t) = true := by
  unfold number
  rw [Int.natCast_pos, Finset.card_pos]
  simp [Finset.Nonempty]

theorem number_eq_zero_iff : number p pc = 0 ↔ ∀ t, p t (pc t) = false := by
  have hpos : 0 < number p pc ↔ ∃ t, p t (pc t) = true := number_pos_iff
  have hnn := number_nonneg p pc
  constructor
  · intro h t
    by_contra ht
    have := hpos.mpr ⟨t, by simpa using ht⟩
    omega
  · intro h
    by_contra hne
    obtain ⟨t, ht⟩ := hpos.mp (by omega)
    rw [h t] at ht
    exact absurd ht (by decide)

theorem number_lt_card_iff : number p pc < Fintype.card T ↔ ∃ t, p t (pc t) = false := by
  unfold number
  rw [Nat.cast_lt, ← Finset.card_univ, (Finset.card_filter_le _ _).lt_iff_ne, ne_eq,
    Finset.card_filter_eq_iff]
  simp

theorem number_congr (h : ∀ t, p t (pc t) = q t (pc t)) : number p pc = number q pc := by
  unfold number
  simp only [h]

theorem total_le {g : T → L → ℤ} {b : ℤ} (h : ∀ t, g t (pc t) ≤ b) :
    total g pc ≤ Fintype.card T * b := by
  unfold total
  calc ∑ t, g t (pc t) ≤ ∑ _t : T, b := Finset.sum_le_sum fun t _ => h t
    _ = Fintype.card T * b := by rw [Finset.sum_const, nsmul_eq_mul, Finset.card_univ]

end Tally
