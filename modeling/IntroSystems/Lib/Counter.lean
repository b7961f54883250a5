import Mathlib.Data.BitVec

/-!
# An `int` that counts

A signed word of 32 bits as the number that it stands for.

* `Counter.toInt_add_one`, `Counter.toInt_sub_one`: counting up and down, short of the two ends.
* `Counter.toInt_ofNat`: a number that fits. `Counter.toInt_eq_zero`: the test for zero.
-/

set_option autoImplicit false

namespace Counter

variable {v : BitVec 32} {n : ℕ}

theorem toInt_add_one (h : v.toInt ≠ 2147483647) : (v + 1).toInt = v.toInt + 1 := by
  have hlt := v.toInt_lt
  have hle := v.le_toInt
  rw [BitVec.toInt_add, Int.bmod_def]
  simp only [BitVec.reduceToInt]
  omega

theorem toInt_sub_one (h : v.toInt ≠ -2147483648) : (v - 1).toInt = v.toInt - 1 := by
  have hlt := v.toInt_lt
  have hle := v.le_toInt
  rw [BitVec.toInt_sub, Int.bmod_def]
  simp only [BitVec.reduceToInt]
  omega

theorem toInt_ofNat (h : n < 2 ^ 31) : (BitVec.ofNat 32 n).toInt = n := by
  rw [BitVec.toInt_eq_toNat_bmod, BitVec.toNat_ofNat, Int.bmod_def]
  omega

theorem toInt_eq_zero : v.toInt = 0 ↔ v = 0 := BitVec.toInt_inj (y := 0)

end Counter
