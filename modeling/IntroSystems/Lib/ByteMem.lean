import Mathlib.Data.Int.Notation
import Mathlib.Tactic.Common
import Mathlib.Tactic.SplitIfs

/-!
# Byte-addressed memory

A memory gives a byte to every address. Words of 32 bits are stored in four bytes, least
significant byte first.

* `load32`, `store32`, and their laws `load32_store32_self`, `load32_store32_of_disjoint`,
  `store32_apply_of_notMem`.
* `load32_congr`: a load reads four bytes and no others.
-/

set_option autoImplicit false

namespace ByteMem

/-- Memories. -/
abbrev Mem := ℤ → BitVec 8

/-- The word stored at `a`. -/
def load32 (m : Mem) (a : ℤ) : BitVec 32 := m (a + 3) ++ m (a + 2) ++ m (a + 1) ++ m a

/-- Store the word `v` at `a`. -/
def store32 (m : Mem) (a : ℤ) (v : BitVec 32) : Mem := fun x =>
  if x = a then v.extractLsb' 0 8
  else if x = a + 1 then v.extractLsb' 8 8
  else if x = a + 2 then v.extractLsb' 16 8
  else if x = a + 3 then v.extractLsb' 24 8
  else m x

variable {m m' : Mem} {a b : ℤ}

theorem store32_apply_of_notMem {x : ℤ} (v : BitVec 32) (h : x < a ∨ a + 4 ≤ x) :
    store32 m a v x = m x := by
  unfold store32
  rw [if_neg (by omega), if_neg (by omega), if_neg (by omega), if_neg (by omega)]

theorem load32_congr (h : ∀ x, a ≤ x → x < a + 4 → m' x = m x) : load32 m' a = load32 m a := by
  unfold load32
  rw [h (a + 3) (by omega) (by omega), h (a + 2) (by omega) (by omega),
    h (a + 1) (by omega) (by omega), h a (by omega) (by omega)]

theorem load32_store32_of_disjoint (v : BitVec 32) (h : b + 4 ≤ a ∨ a + 4 ≤ b) :
    load32 (store32 m a v) b = load32 m b :=
  load32_congr fun x h1 h2 => store32_apply_of_notMem v (by omega)

/-- **A load reads what was stored.** -/
theorem load32_store32_self (m : Mem) (a : ℤ) (v : BitVec 32) :
    load32 (store32 m a v) a = v := by
  have h0 : store32 m a v a = v.extractLsb' 0 8 := by rw [store32, if_pos rfl]
  have h1 : store32 m a v (a + 1) = v.extractLsb' 8 8 := by
    rw [store32, if_neg (by omega), if_pos rfl]
  have h2 : store32 m a v (a + 2) = v.extractLsb' 16 8 := by
    rw [store32, if_neg (by omega), if_neg (by omega), if_pos rfl]
  have h3 : store32 m a v (a + 3) = v.extractLsb' 24 8 := by
    rw [store32, if_neg (by omega), if_neg (by omega), if_neg (by omega), if_pos rfl]
  unfold load32
  rw [h0, h1, h2, h3]
  ext i hi
  simp only [BitVec.getElem_append, BitVec.getElem_extractLsb']
  split_ifs <;> rw [← BitVec.getLsbD_eq_getElem] <;> congr 1 <;> omega

end ByteMem
