import IntroSystems.Lib.Transition
import Mathlib.Algebra.Order.Ring.Int
import Mathlib.Data.List.Basic
import Mathlib.Logic.Function.Basic

/-!
# Relaxation of a matrix

`sor.c` of the uthread examples: threads relax blocks of a matrix into a second one and copy them
back, with a barrier after either. The barrier is not part of the repository: here it is what tells,
from who has arrived so far, whether a thread may go on.

* `int`: what is computed in an `int`. `SquareMatrix`, `matrixGet`, `matrixSet`: an access out of
  bounds is undefined.
* `RelaxArgs`, `blockArgs`: the blocks of the threads.
* `Pc`, `State`, `exec`, `sys`: one step is one access to a matrix, or an arrival at the barrier.
* `matrixCompare`.
* `Inside`, `place`, `position_eq`: the accesses to the cells of a matrix with `int` indices.
  `blockArgs_eq`, `exists_mem_blockArgs`: the blocks cover it.
-/

set_option autoImplicit false

namespace IntroSystems.Sor

/-- An `int`. -/
def int (x : ℤ) : ℤ := x.bmod (2 ^ 32)

/-- `struct square_matrix_t`, with the cells below `size * size`. -/
structure SquareMatrix where
  size : ℕ
  value : ℕ → ℤ

/-- `(row + matrix->size) % matrix->size`. -/
def wrap (size : ℕ) (row : ℤ) : ℤ := (int (row + size)).tmod size

/-- The index into `value`. -/
def position (matrix : SquareMatrix) (row col : ℤ) : Option ℕ :=
  let k := int (int (wrap matrix.size row * matrix.size) + wrap matrix.size col)
  if 0 ≤ k ∧ k < matrix.size * matrix.size then some k.toNat else none

def matrixSet (matrix : SquareMatrix) (row col value : ℤ) : Option SquareMatrix :=
  (position matrix row col).map fun k =>
    { matrix with value := Function.update matrix.value k value }

def matrixGet (matrix : SquareMatrix) (row col : ℤ) : Option ℤ :=
  (position matrix row col).map matrix.value

/-- `for (i=first; i<=last; i++)`. -/
def interval (first last : ℤ) : List ℤ :=
  (List.range (last + 1 - first).toNat).map fun k : ℕ => first + k

/-- The two loops over the rows and the columns. -/
def cells (start_row end_row start_col end_col : ℤ) : List (ℤ × ℤ) :=
  (interval start_row end_row).flatMap fun row => (interval start_col end_col).map fun col => (row, col)

/-- The bounds in `struct relax_args`. -/
structure RelaxArgs where
  start_row : ℤ
  end_row : ℤ
  start_col : ℤ
  end_col : ℤ

def RelaxArgs.cells (args : RelaxArgs) : List (ℤ × ℤ) :=
  Sor.cells args.start_row args.end_row args.start_col args.end_col

/-- The two inner loops of `relax_one_step`. -/
def neighbours (out : ℤ × ℤ) : List (ℤ × ℤ) :=
  cells (out.1 - 1) (out.1 + 1) (out.2 - 1) (out.2 + 1)

/-- The threads of `sor`, by `i` and `j`. -/
abbrev Thread (tpr : ℕ) := Fin tpr × Fin tpr

def blockArgs (N : ℕ) {tpr : ℕ} (t : Thread tpr) : RelaxArgs where
  start_row := (int (t.1 * N)).tdiv tpr
  end_row := (int ((t.1 + 1) * N)).tdiv tpr - 1
  start_col := (int (t.2 * N)).tdiv tpr
  end_col := (int ((t.2 + 1) * N)).tdiv tpr - 1

/-- Where a thread is in `relax`, in iteration `i`. -/
inductive Pc
  /-- In `relax_one_step` at a cell, with these neighbours still to add. -/
  | relax (i : ℕ) (out : ℤ × ℤ) (rest inner : List (ℤ × ℤ)) (out_total : ℤ)
  /-- Before the first `uthread_barrier_arrive`, and in it. -/
  | relaxed (i : ℕ)
  | inFirst (i : ℕ)
  /-- In `matrix_copy` at a cell, before `matrix_get` or with what it has given. -/
  | copy (i : ℕ) (cell : ℤ × ℤ) (rest : List (ℤ × ℤ)) (value : Option ℤ)
  /-- Before the second `uthread_barrier_arrive`, and in it. -/
  | copied (i : ℕ)
  | inSecond (i : ℕ)
  | done
  deriving DecidableEq

/-- `arrivals` is what the barrier has seen. -/
structure State (T : Type) where
  matrix : SquareMatrix
  temp_matrix : SquareMatrix
  arrivals : List T
  pc : T → Pc

variable {T : Type}

/-- The next cell of `relax_one_step`. -/
def nextRelax (i : ℕ) : List (ℤ × ℤ) → Pc
  | [] => .relaxed i
  | out :: rest => .relax i out rest (neighbours out) 0

/-- The next cell of `matrix_copy`. -/
def nextCopy (i : ℕ) : List (ℤ × ℤ) → Pc
  | [] => .copied i
  | cell :: rest => .copy i cell rest none

/-- `for (i=0; i<args->iterations; i++)`. -/
def iterate (args : RelaxArgs) (iterations i : ℕ) : Pc :=
  if i < iterations then nextRelax i args.cells else .done

variable [DecidableEq T]

def State.goto (s : State T) (t : T) (pc : Pc) : State T :=
  { s with pc := Function.update s.pc t pc }

/-- The next step of a thread. -/
def exec (args : T → RelaxArgs) (iterations : ℕ) (s : State T) (t : T) : Option (State T) :=
  match s.pc t with
  | .relax i out rest (cell :: inner) out_total =>
    (matrixGet s.matrix cell.1 cell.2).map fun value =>
      s.goto t (.relax i out rest inner (int (out_total + value)))
  | .relax i out rest [] out_total =>
    (matrixSet s.temp_matrix out.1 out.2 (out_total.tdiv 9)).map fun temp_matrix =>
      { s with temp_matrix }.goto t (nextRelax i rest)
  | .relaxed i => some ({ s with arrivals := s.arrivals ++ [t] }.goto t (.inFirst i))
  | .inFirst i => some (s.goto t (nextCopy i (args t).cells))
  | .copy i cell rest none =>
    (matrixGet s.temp_matrix cell.1 cell.2).map fun value =>
      s.goto t (.copy i cell rest (some value))
  | .copy i cell rest (some value) =>
    (matrixSet s.matrix cell.1 cell.2 value).map fun matrix =>
      { s with matrix }.goto t (nextCopy i rest)
  | .copied i => some ({ s with arrivals := s.arrivals ++ [t] }.goto t (.inSecond i))
  | .inSecond i => some (s.goto t (iterate (args t) iterations (i + 1)))
  | .done => none

/-- The thread can go on. -/
def Ready (released : List T → T → Bool) (s : State T) (t : T) : Prop :=
  match s.pc t with
  | .inFirst _ | .inSecond _ => released s.arrivals t = true
  | .done => False
  | _ => True

instance (released : List T → T → Bool) (s : State T) (t : T) : Decidable (Ready released s t) := by
  unfold Ready
  cases s.pc t <;> infer_instance

/-- The threads from their creation on, with whatever is in `temp_matrix` then. -/
def start (args : T → RelaxArgs) (iterations : ℕ) (matrix temp_matrix : SquareMatrix) : State T :=
  ⟨matrix, temp_matrix, [], fun t => iterate (args t) iterations 0⟩

/-- The runs of the threads. -/
def sys (args : T → RelaxArgs) (iterations : ℕ) (released : List T → T → Bool)
    (matrix temp_matrix : SquareMatrix) : Sys (Option (State T)) T :=
  Sys.ofNext (fun s => s = start args iterations matrix temp_matrix) (Ready released)
    (exec args iterations)

/-- The two matrices have the same cells. -/
def matrixCompare (a b : SquareMatrix) : Bool :=
  decide (a.size = b.size) && (cells 0 (a.size - 1) 0 (a.size - 1)).all fun c =>
    decide (matrixGet a c.1 c.2 = matrixGet b c.1 c.2)

/-! ## The cells -/

variable {N : ℕ} {c : ℤ × ℤ} {m : SquareMatrix}

theorem int_eq {x : ℤ} (h0 : -2 ^ 31 ≤ x) (h1 : x < 2 ^ 31) : int x = x :=
  Int.bmod_eq_of_le (by omega) (by omega)

theorem mem_interval {first last x : ℤ} : x ∈ interval first last ↔ first ≤ x ∧ x ≤ last := by
  unfold interval
  rw [List.mem_map]
  constructor
  · rintro ⟨k, hk, rfl⟩
    rw [List.mem_range] at hk
    omega
  · rintro ⟨h1, h2⟩
    exact ⟨(x - first).toNat, by rw [List.mem_range]; omega, by omega⟩

theorem mem_cells {a b a' b' : ℤ} :
    c ∈ cells a b a' b' ↔ (a ≤ c.1 ∧ c.1 ≤ b) ∧ a' ≤ c.2 ∧ c.2 ≤ b' := by
  unfold cells
  simp only [List.mem_flatMap, List.mem_map, mem_interval]
  constructor
  · rintro ⟨row, hrow, col, hcol, rfl⟩
    exact ⟨hrow, hcol⟩
  · rintro ⟨hrow, hcol⟩
    exact ⟨c.1, hrow, c.2, hcol, rfl⟩

/-- A cell of the matrix. -/
def Inside (N : ℕ) (c : ℤ × ℤ) : Prop := (0 ≤ c.1 ∧ c.1 < N) ∧ 0 ≤ c.2 ∧ c.2 < N

/-- A row or a column, wrapped around. -/
def around (N : ℕ) (x : ℤ) : ℤ := (x + N).tmod N

/-- The index of a cell, or of one that is wrapped around. -/
def place (N : ℕ) (c : ℤ × ℤ) : ℕ := (around N c.1 * N + around N c.2).toNat

theorem around_of_inside {x : ℤ} (h0 : 0 ≤ x) (h1 : x < N) : around N x = x := by
  unfold around
  rw [Int.tmod_eq_emod_of_nonneg (by omega), Int.add_emod_right, Int.emod_eq_of_lt h0 h1]

theorem around_bounds (hN : 0 < N) {x : ℤ} (hx : -N ≤ x) : 0 ≤ around N x ∧ around N x < N :=
  ⟨Int.tmod_nonneg _ (by omega), Int.tmod_lt_of_pos _ (by omega)⟩

theorem index_bounds (hN : 0 < N) (h1 : -N ≤ c.1) (h2 : -N ≤ c.2) :
    0 ≤ around N c.1 * N ∧ around N c.1 * N + around N c.2 < N * N := by
  obtain ⟨ha, hb⟩ := around_bounds hN h1
  obtain ⟨-, hb'⟩ := around_bounds hN h2
  refine ⟨Int.mul_nonneg ha (by omega), ?_⟩
  have := Int.mul_le_mul_of_nonneg_right (Int.le_sub_one_of_lt hb) (show (0 : ℤ) ≤ N by omega)
  rw [Int.sub_mul] at this
  omega

theorem lt_of_sq_lt (hlt : N * N < 2 ^ 31) : N < 2 ^ 16 := by
  by_contra hge
  have := Nat.mul_le_mul (not_lt.mp hge) (not_lt.mp hge)
  omega

theorem wrap_eq (hlt : N * N < 2 ^ 31) {x : ℤ} (h0 : -N ≤ x) (h1 : x ≤ N) :
    wrap N x = around N x := by
  have := lt_of_sq_lt hlt
  rw [wrap, int_eq (by omega) (by omega)]
  rfl

theorem position_eq (hm : m.size = N) (hlt : N * N < 2 ^ 31) (hN : 0 < N)
    (h1 : -N ≤ c.1 ∧ c.1 ≤ N) (h2 : -N ≤ c.2 ∧ c.2 ≤ N) :
    position m c.1 c.2 = some (place N c) := by
  obtain ⟨h0, hk⟩ := index_bounds hN h1.1 h2.1
  have h0' := (around_bounds hN h2.1).1
  have hlt' : (N * N : ℤ) < 2 ^ 31 := by exact_mod_cast hlt
  have hrow : int (around N c.1 * N) = around N c.1 * N := int_eq (by omega) (by omega)
  unfold position
  rw [hm, wrap_eq hlt h1.1 h1.2, wrap_eq hlt h2.1 h2.2, hrow, int_eq (by omega) (by omega)]
  exact if_pos ⟨by omega, hk⟩

theorem place_lt (hN : 0 < N) (h1 : -N ≤ c.1) (h2 : -N ≤ c.2) : place N c < N * N := by
  have h := index_bounds hN h1 h2
  have h0 := (around_bounds hN h2).1
  unfold place
  omega

theorem place_of_inside (h : Inside N c) : place N c = c.1.toNat * N + c.2.toNat := by
  obtain ⟨⟨h0, h1⟩, h2, h3⟩ := h
  unfold place
  rw [around_of_inside h0 h1, around_of_inside h2 h3]
  obtain ⟨a, ha⟩ := Int.eq_ofNat_of_zero_le h0
  obtain ⟨b, hb⟩ := Int.eq_ofNat_of_zero_le h2
  rw [ha, hb]
  exact_mod_cast rfl

/-- The cell of an index. -/
def cellAt (N k : ℕ) : ℤ × ℤ := (((k / N : ℕ) : ℤ), ((k % N : ℕ) : ℤ))

theorem cellAt_place (h : Inside N c) : cellAt N (place N c) = c := by
  have hp := place_of_inside h
  obtain ⟨⟨h0, h1⟩, h2, h3⟩ := h
  have hN : 0 < N := by omega
  have hlt : c.2.toNat < N := by omega
  unfold cellAt
  rw [hp, Nat.add_comm, Nat.add_mul_div_right _ _ hN, Nat.add_mul_mod_self_right,
    Nat.div_eq_of_lt hlt, Nat.mod_eq_of_lt hlt, Nat.zero_add, Int.toNat_of_nonneg h0,
    Int.toNat_of_nonneg h2]

theorem inside_cellAt {k : ℕ} (h : k < N * N) : Inside N (cellAt N k) := by
  have hN : 0 < N := Nat.pos_of_ne_zero fun e => by simp [e] at h
  refine ⟨⟨Int.natCast_nonneg _, ?_⟩, Int.natCast_nonneg _, ?_⟩
  · exact Int.ofNat_lt.mpr (Nat.div_lt_of_lt_mul h)
  · exact Int.ofNat_lt.mpr (Nat.mod_lt k hN)

theorem place_cellAt {k : ℕ} (h : k < N * N) : place N (cellAt N k) = k := by
  rw [place_of_inside (inside_cellAt h)]
  exact Nat.div_add_mod' k N

theorem Inside.place_lt (h : Inside N c) : place N c < N * N := by
  obtain ⟨⟨h0, h1⟩, h2, h3⟩ := h
  exact Sor.place_lt (by omega) (by omega) (by omega)

theorem neighbour_place_lt (h : Inside N c) {n : ℤ × ℤ} (hn : n ∈ neighbours c) :
    place N n < N * N := by
  obtain ⟨⟨h0, h1⟩, h2, h3⟩ := h
  obtain ⟨⟨k0, -⟩, k2, -⟩ := mem_cells.mp hn
  exact place_lt (by omega) (by omega) (by omega)

theorem neighbours_length (c : ℤ × ℤ) : (neighbours c).length = 9 := by
  have h : ∀ x : ℤ, x + 1 + 1 - (x - 1) = 3 := fun x => by omega
  simp [neighbours, cells, interval, h, Function.comp_def]

/-! ## The blocks -/

theorem int_mul_tdiv {tpr i : ℕ} (hlt : tpr * N < 2 ^ 31) (hi : i ≤ tpr) :
    (int (i * N)).tdiv tpr = (i * N / tpr : ℕ) := by
  have hle := Nat.mul_le_mul_right N hi
  rw [← Nat.cast_mul, int_eq (by omega) (by omega)]
  rfl

theorem blockArgs_eq {tpr : ℕ} (hlt : tpr * N < 2 ^ 31) (t : Thread tpr) : blockArgs N t =
    { start_row := (t.1 * N / tpr : ℕ), end_row := ((t.1 + 1) * N / tpr : ℕ) - 1,
      start_col := (t.2 * N / tpr : ℕ), end_col := ((t.2 + 1) * N / tpr : ℕ) - 1 } := by
  have hend : ∀ i : Fin tpr, (int ((i + 1) * N)).tdiv tpr = ((i + 1) * N / tpr : ℕ) := fun i => by
    rw [← int_mul_tdiv hlt i.isLt]
    simp
  unfold blockArgs
  rw [int_mul_tdiv hlt t.1.isLt.le, int_mul_tdiv hlt t.2.isLt.le, hend, hend]

theorem exists_block {tpr x : ℕ} (htpr : 0 < tpr) (hx : x < N) :
    ∃ i : Fin tpr, i * N / tpr ≤ x ∧ x + 1 ≤ (i + 1) * N / tpr := by
  have hN : 0 < N := by omega
  have hpos : 0 < (x + 1) * tpr := Nat.mul_pos (Nat.succ_pos x) htpr
  have hle : (x + 1) * tpr ≤ N * tpr := Nat.mul_le_mul_right tpr hx
  have hi : ((x + 1) * tpr - 1) / N < tpr := Nat.div_lt_of_lt_mul (by omega)
  have h1 := Nat.div_mul_le_self ((x + 1) * tpr - 1) N
  have h2 := Nat.lt_div_mul_add hN (a := (x + 1) * tpr - 1)
  generalize ((x + 1) * tpr - 1) / N = q at hi h1 h2
  refine ⟨⟨q, hi⟩, ?_, ?_⟩
  · change q * N / tpr ≤ x
    rw [← Nat.lt_succ_iff, Nat.div_lt_iff_lt_mul htpr, Nat.succ_eq_add_one]
    omega
  · change x + 1 ≤ (q + 1) * N / tpr
    rw [Nat.le_div_iff_mul_le htpr, Nat.add_mul q, Nat.one_mul]
    omega

/-- **The blocks cover the matrix.** -/
theorem exists_mem_blockArgs {tpr : ℕ} (htpr : 0 < tpr) (hlt : tpr * N < 2 ^ 31) (h : Inside N c) :
    ∃ t : Thread tpr, c ∈ (blockArgs N t).cells := by
  obtain ⟨⟨h0, h1⟩, h2, h3⟩ := h
  obtain ⟨i, hi, hi'⟩ := exists_block (N := N) (x := c.1.toNat) htpr (by omega)
  obtain ⟨j, hj, hj'⟩ := exists_block (N := N) (x := c.2.toNat) htpr (by omega)
  refine ⟨(i, j), mem_cells.mpr ?_⟩
  rw [blockArgs_eq hlt]
  simp only
  omega

theorem inside_of_mem_blockArgs {tpr : ℕ} {t : Thread tpr} (hlt : tpr * N < 2 ^ 31)
    (h : c ∈ (blockArgs N t).cells) : Inside N c := by
  rw [blockArgs_eq hlt] at h
  have hle : ∀ i : Fin tpr, (i + 1) * N / tpr ≤ N := fun i =>
    Nat.div_le_of_le_mul (Nat.mul_le_mul_right N i.isLt)
  obtain ⟨⟨h0, h1⟩, h2, h3⟩ := mem_cells.mp h
  have ha := Int.ofNat_le.mpr (hle t.1)
  have hb := Int.ofNat_le.mpr (hle t.2)
  exact ⟨⟨(Int.natCast_nonneg _).trans h0, Int.lt_of_le_sub_one (h1.trans (Int.sub_le_sub_right ha 1))⟩,
    (Int.natCast_nonneg _).trans h2, Int.lt_of_le_sub_one (h3.trans (Int.sub_le_sub_right hb 1))⟩

end IntroSystems.Sor
