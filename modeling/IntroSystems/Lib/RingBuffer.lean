import Mathlib.Data.List.Basic
import Mathlib.Data.Nat.ModEq
import Mathlib.Tactic.Common

/-!
# Ring buffers

A list of cells, filled from a position `head` on and around the end. One cell always stays free, so
that the buffer is empty exactly if the position behind the last element is `head`.

* `Holds`; `Holds.empty_iff`, `Holds.full_iff`; **`Holds.push`**, **`Holds.pop`**.
-/

set_option autoImplicit false

namespace RingBuffer

variable {V : Type} {cells : List V} {head : ℕ} {x : V} {xs : List V}

/-- The position after `k` steps from `head`. -/
def index (cells : List V) (head k : ℕ) : ℕ := (head + k) % cells.length

/-- The elements from `head` on. -/
structure Holds (cells : List V) (head : ℕ) (xs : List V) : Prop where
  cell : ∀ k y, xs[k]? = some y → cells[index cells head k]? = some y
  length : xs.length < cells.length
  inside : head < cells.length

theorem index_lt (h : head < cells.length) (k : ℕ) : index cells head k < cells.length :=
  Nat.mod_lt _ (by omega)

theorem index_inj {j k : ℕ} (hj : j < cells.length) (hk : k < cells.length)
    (he : index cells head j = index cells head k) : j = k := by
  have hmod : j ≡ k [MOD cells.length] := Nat.ModEq.add_left_cancel' head he
  rwa [Nat.ModEq, Nat.mod_eq_of_lt hj, Nat.mod_eq_of_lt hk] at hmod

theorem index_zero (h : head < cells.length) : index cells head 0 = head := Nat.mod_eq_of_lt h

theorem index_add (j k : ℕ) : index cells (index cells head j) k = index cells head (j + k) := by
  simp [index, Nat.add_assoc]

theorem Holds.nil (h : 0 < cells.length) : Holds cells 0 [] := ⟨by simp, h, h⟩

theorem Holds.empty_iff (h : Holds cells head xs) :
    head = index cells head xs.length ↔ xs.length = 0 := by
  have h0 := index_zero h.inside
  refine ⟨fun he => ?_, fun hl => by rw [hl, h0]⟩
  exact (index_inj (Nat.lt_of_le_of_lt (Nat.zero_le _) h.length) h.length (h0.trans he)).symm

theorem Holds.full_iff (h : Holds cells head xs) :
    index cells (index cells head xs.length) 1 = head ↔ xs.length + 1 = cells.length := by
  rw [index_add]
  constructor
  · intro he
    by_contra hne
    have hlt : xs.length + 1 < cells.length := lt_of_le_of_ne h.length hne
    have h0 := index_inj hlt (Nat.lt_of_le_of_lt (Nat.zero_le _) h.length)
      (he.trans (index_zero h.inside).symm)
    omega
  · intro he
    simp [index, he, Nat.mod_eq_of_lt h.inside]

/-- **An element is put behind the others.** -/
theorem Holds.push (h : Holds cells head xs) (hlt : xs.length + 1 < cells.length) (x : V) :
    Holds (cells.set (index cells head xs.length) x) head (xs ++ [x]) := by
  refine ⟨fun k y hy => ?_, by simpa using hlt, by simpa using h.inside⟩
  have hidx : index (cells.set (index cells head xs.length) x) head k = index cells head k := by
    simp [index]
  rw [hidx]
  rcases lt_trichotomy k xs.length with hk | rfl | hk
  · rw [List.getElem?_append_left hk] at hy
    have hne : index cells head xs.length ≠ index cells head k := fun he =>
      hk.ne (index_inj h.length (hk.trans h.length) he).symm
    rw [List.getElem?_set_ne hne]
    exact h.cell k y hy
  · rw [List.getElem?_set_self (index_lt h.inside _)]
    simpa using hy
  · rw [List.getElem?_eq_none (by simpa [Nat.succ_le_iff] using hk)] at hy
    cases hy

/-- **The first element is taken out.** -/
theorem Holds.pop (h : Holds cells head (x :: xs)) :
    cells[head]? = some x ∧ Holds cells (index cells head 1) xs := by
  have h0 := h.cell 0 x rfl
  rw [index_zero h.inside] at h0
  refine ⟨h0, fun k y hy => ?_, Nat.lt_of_succ_lt h.length, index_lt h.inside 1⟩
  rw [index_add, Nat.add_comm]
  exact h.cell (k + 1) y hy

end RingBuffer
