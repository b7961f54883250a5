import Mathlib.Algebra.Group.Nat.Even
import Mathlib.Data.Int.Notation
import Mathlib.Logic.Function.Basic
import Mathlib.Tactic.Common

/-!
# What containers ask of elements

`list.c` and `tree.c` are the same in assignments 5 and 7, up to what they call on elements. An
element is a pointer, and `E` is the memory of the elements.

* `Calls`: the functions that are called.
* `Counts`: they count the references to each element, and `Holds s c` says that `c` are held.
* `counter_succ`, `counter_pred`: a counter of 32 bits.
-/

set_option autoImplicit false

namespace IntroSystems.Elements

/-- The functions of an element that `list.c` and `tree.c` call. `none` is undefined behaviour. -/
structure Calls (E : Type) where
  keep_ref : ℕ → E → Option E
  free_ref : ℕ → E → Option E
  compare : ℕ → ℕ → E → Option ℤ

/-- **The calls count references.** Counters have 32 bits. -/
structure Counts {E : Type} (calls : Calls E) (Holds : E → (ℕ → ℕ) → Prop) : Prop where
  keep : ∀ {s c e}, Holds s c → 0 < c e →
    ∃ s', calls.keep_ref e s = some s' ∧ Holds s' (Function.update c e (c e + 1))
  free : ∀ {s c e}, Holds s c → 0 < c e → c e < 2 ^ 32 →
    ∃ s', calls.free_ref e s = some s' ∧ Holds s' (Function.update c e (c e - 1))
  compare : ∀ {s c e f}, Holds s c → 0 < c e → 0 < c f → ∃ r, calls.compare e f s = some r

variable {c : ℕ → ℕ} {e : ℕ}

theorem update_keep (c' : ℕ → ℕ) (h : ∀ f, c' f = c f + if e = f then 1 else 0) :
    Function.update c e (c e + 1) = c' := by
  funext f
  rw [h f]
  by_cases hf : e = f
  · rw [← hf, Function.update_self, if_pos rfl]
  · rw [Function.update_of_ne (Ne.symm hf), if_neg hf, Nat.add_zero]

theorem update_free (c' : ℕ → ℕ) (h : ∀ f, c' f + (if e = f then 1 else 0) = c f) :
    Function.update c e (c e - 1) = c' := by
  funext f
  by_cases hf : e = f
  · rw [← hf, Function.update_self, ← h e, if_pos rfl, Nat.add_sub_cancel]
  · rw [Function.update_of_ne (Ne.symm hf), ← h f, if_neg hf, Nat.add_zero]

variable {n : ℕ}

theorem update_pos {f : ℕ} (h : f ≠ e → 0 < c f) : 0 < Function.update c e (c e + 1) f := by
  by_cases hf : f = e
  · rw [hf, Function.update_self]
    exact Nat.succ_pos _
  · rw [Function.update_of_ne hf]
    exact h hf

theorem update_eq_zero (hn : 0 < n) (hpos : 0 < c e) (f : ℕ) :
    Function.update c e n f = 0 ↔ c f = 0 := by
  by_cases hf : f = e
  · rw [hf, Function.update_self]
    exact iff_of_false (Nat.ne_of_gt hn) (Nat.ne_of_gt hpos)
  · rw [Function.update_of_ne hf]

theorem update_new_eq_zero (f : ℕ) :
    (f < n + 1 ∧ Function.update c n (0 + 1) f = 0) ↔ f < n ∧ c f = 0 := by
  by_cases hf : f = n
  · simp [hf]
  · rw [Function.update_of_ne hf]
    omega

/-! ### Counters -/

theorem counter_succ {v : BitVec 32} (h : v = BitVec.ofNat 32 n) :
    v + 1 = BitVec.ofNat 32 (n + 1) := by
  rw [h, BitVec.ofNat_add]
  rfl

theorem counter_pred {v : BitVec 32} (h : v = BitVec.ofNat 32 (n + 1)) :
    v - 1 = BitVec.ofNat 32 n := by
  rw [← counter_succ rfl] at h
  rw [h, BitVec.add_sub_cancel]

theorem ofNat_eq_zero (hlt : n < 2 ^ 32) : BitVec.ofNat 32 n = 0 ↔ n = 0 := by
  rw [← BitVec.toNat_inj, BitVec.toNat_ofNat, Nat.mod_eq_of_lt hlt]
  rfl

end IntroSystems.Elements
