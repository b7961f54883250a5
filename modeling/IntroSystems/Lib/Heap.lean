import Mathlib.Data.List.Basic
import Mathlib.Tactic.Common

/-!
# Blocks that are allocated and freed

The blocks of one type, each at an address that is never used again. To read, write or free a block
that is not live is an error, `none`; so no block is freed twice.

* `get`, `alloc`, `set`, `free`. `put` is what `set` and `free` do to a live block.
* `Full`: nothing has been freed. `number P`: how many live blocks meet `P`.
-/

set_option autoImplicit false

namespace IntroSystems

/-- The blocks, with `none` for one that has been freed. -/
structure Heap (α : Type) where
  cells : List (Option α)

namespace Heap

variable {α : Type}

def empty : Heap α := ⟨[]⟩

/-- How many blocks there have been; the address of the next one. -/
def size (h : Heap α) : ℕ := h.cells.length

/-- `*p`. -/
def get (h : Heap α) (p : ℕ) : Option α := h.cells[p]?.join

/-- `malloc`. The new block is at `h.size`. -/
def alloc (h : Heap α) (a : α) : Heap α := ⟨h.cells ++ [some a]⟩

/-- Overwrite the block at `p`. -/
def put (h : Heap α) (p : ℕ) (c : Option α) : Heap α := ⟨h.cells.set p c⟩

/-- `*p = a`. -/
def set (h : Heap α) (p : ℕ) (a : α) : Option (Heap α) := (h.get p).map fun _ => h.put p (some a)

/-- `free (p)`. -/
def free (h : Heap α) (p : ℕ) : Option (Heap α) := (h.get p).map fun _ => h.put p none

/-- How many live blocks meet `P`. -/
def number (P : α → Bool) (h : Heap α) : ℕ := h.cells.countP fun c => c.any P

variable {h : Heap α} {p q : ℕ} {a b : α} {c : Option α} {P : α → Bool}

theorem lt_size (hp : h.get p = some a) : p < h.size := by
  by_contra hlt
  rw [get, List.getElem?_eq_none (Nat.le_of_not_lt hlt)] at hp
  exact absurd hp (by simp)

theorem getElem_eq (hp : h.get p = some a) (hlt : p < h.cells.length) : h.cells[p] = some a := by
  rwa [get, List.getElem?_eq_getElem hlt, Option.join_some] at hp

@[simp] theorem size_alloc : (h.alloc a).size = h.size + 1 := by simp [alloc, size]

@[simp] theorem size_put : (h.put p c).size = h.size := by simp [put, size]

@[simp] theorem get_alloc_self : (h.alloc a).get h.size = some a := by simp [get, alloc, size]

theorem get_alloc_of_ne (hp : p ≠ h.size) : (h.alloc a).get p = h.get p := by
  rw [get, get, alloc]
  rcases Nat.lt_or_gt_of_ne hp with hlt | hgt
  · rw [List.getElem?_append_left hlt]
  · rw [List.getElem?_eq_none (Nat.le_of_lt hgt), List.getElem?_eq_none]
    rw [List.length_append]
    exact hgt

theorem get_size : h.get h.size = none := by simp [get, size]

theorem get_alloc_of_get (hp : h.get p = some b) : (h.alloc a).get p = some b := by
  rw [get_alloc_of_ne (Nat.ne_of_lt (lt_size hp)), hp]

theorem get_put_self (hp : h.get p = some a) : (h.put p c).get p = c := by
  have hlt : p < h.cells.length := lt_size hp
  simp [get, put, hlt]

theorem get_put_of_ne (hq : q ≠ p) : (h.put p c).get q = h.get q := by
  rw [get, get, put, List.getElem?_set_ne (Ne.symm hq)]

theorem live_put (hp : h.get p = some a) :
    (∃ c, (h.put p (some b)).get q = some c) ↔ ∃ c, h.get q = some c := by
  by_cases hq : q = p
  · subst hq
    exact iff_of_true ⟨b, get_put_self hp⟩ ⟨a, hp⟩
  · rw [get_put_of_ne hq]

theorem put_self (hp : h.get p = some a) : h.put p (some a) = h := by
  have hlt : p < h.cells.length := lt_size hp
  have hcell : h.cells[p] = some a := getElem_eq hp hlt
  rw [put, ← hcell, List.set_getElem_self]

@[simp] theorem put_put {d : Option α} : (h.put p c).put p d = h.put p d := by
  rw [put, put, put, List.set_set]

@[simp] theorem put_alloc : (h.alloc a).put h.size (some b) = h.alloc b := by
  simp [put, alloc, size]

theorem set_eq (hp : h.get p = some a) : h.set p b = some (h.put p (some b)) := by
  rw [set, hp, Option.map_some]

theorem size_set {h' : Heap α} (hs : h.set p a = some h') : h'.size = h.size := by
  obtain ⟨b, -, rfl⟩ := Option.map_eq_some_iff.mp hs
  exact size_put

theorem free_eq (hp : h.get p = some a) : h.free p = some (h.put p none) := by
  rw [free, hp, Option.map_some]

/-- Nothing has been freed. -/
def Full (h : Heap α) : Prop := ∀ p < h.size, ∃ a, h.get p = some a

theorem Full.alloc (hf : h.Full) : (h.alloc a).Full := by
  intro p hp
  by_cases hnew : p = h.size
  · rw [hnew]
    exact ⟨a, get_alloc_self⟩
  · rw [size_alloc] at hp
    rw [get_alloc_of_ne hnew]
    exact hf p (by omega)

theorem Full.set {h' : Heap α} (hf : h.Full) (hs : h.set p a = some h') : h'.Full := by
  obtain ⟨b, hb, rfl⟩ := Option.map_eq_some_iff.mp hs
  intro q hq
  rw [size_put] at hq
  exact (live_put hb).mpr (hf q hq)

theorem number_alloc : (h.alloc a).number P = h.number P + if P a then 1 else 0 := by
  simp [number, alloc, List.countP_append, List.countP_cons]

theorem number_put (hp : h.get p = some a) :
    (h.put p c).number P + (if P a then 1 else 0) = h.number P + if c.any P then 1 else 0 := by
  have hlt : p < h.cells.length := lt_size hp
  have hcell : h.cells[p] = some a := getElem_eq hp hlt
  have hpos : P a = true → 0 < h.cells.countP fun c => c.any P := fun ha =>
    List.countP_pos_iff.mpr ⟨some a, hcell ▸ List.getElem_mem hlt, ha⟩
  rw [number, number, put, List.countP_set hlt]
  simp only [hcell, Option.any_some]
  by_cases ha : P a = true
  · have := hpos ha
    rw [if_pos ha]
    omega
  · rw [if_neg ha]
    omega

theorem number_pos (hp : h.get p = some a) (ha : P a = true) : 0 < h.number P :=
  List.countP_pos_iff.mpr ⟨some a, getElem_eq hp (lt_size hp) ▸ List.getElem_mem _, ha⟩

theorem number_eq_zero (hall : ∀ p a, h.get p = some a → P a = false) : h.number P = 0 := by
  refine List.countP_eq_zero.mpr fun c hc => ?_
  cases c with
  | none => simp
  | some a =>
    obtain ⟨p, hp⟩ := List.getElem?_of_mem hc
    have hget : h.get p = some a := by rw [get, hp, Option.join_some]
    simp [hall p a hget]

theorem number_eq_zero_of_none (hnone : ∀ p, h.get p = none) : h.number P = 0 :=
  number_eq_zero fun p a hp => by
    rw [hnone p] at hp
    cases hp

theorem cells_eq (h : Heap α) : h.cells = (List.range h.size).map h.get := by
  refine List.ext_getElem (by simp [size]) fun p hp _ => ?_
  rw [List.getElem_map, List.getElem_range, get, List.getElem?_eq_getElem hp, Option.join_some]

theorem number_eq_countP {ps : List ℕ} (hnd : ps.Nodup)
    (hlive : ∀ p a, h.get p = some a → p ∈ ps) :
    h.number P = ps.countP fun p => (h.get p).any P := by
  rw [number, cells_eq, List.countP_map, List.countP_eq_length_filter,
    List.countP_eq_length_filter]
  refine List.Perm.length_eq ((List.perm_ext_iff_of_nodup ((List.nodup_range).filter _)
    (hnd.filter _)).mpr fun p => ?_)
  rw [List.mem_filter, List.mem_filter, List.mem_range, Function.comp_apply]
  refine and_congr_left fun hp => ?_
  obtain ⟨a, ha, -⟩ := (Option.any_eq_true _ _).mp hp
  exact iff_of_true (lt_size ha) (hlive p a ha)

end Heap

end IntroSystems
