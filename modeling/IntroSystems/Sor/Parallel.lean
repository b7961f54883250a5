import IntroSystems.Lib.Supersteps
import IntroSystems.Sor.Model
import Mathlib.Algebra.BigOperators.Group.List.Basic
import Mathlib.Algebra.Order.BigOperators.Group.List
import Mathlib.Data.Fintype.Prod

/-!
# The parallel relaxation

* `relaxation`: what one iteration makes of a matrix, all cells at once.
* `assignments`: the threads as supersteps, two for each iteration. **`lawful`**: in each the threads
  read one matrix and write the other.
* `Shows`, **`simulates`**: every step of a thread is one of the supersteps.
* `Within`, `sum_bounds`: the sums that the threads form do not overflow.
* **`parallel_eq_sequential`**: no access is out of bounds, no run gets stuck, and the result is the
  iterated relaxation whatever the interleaving, which a single thread gives too.
-/

set_option autoImplicit false

namespace IntroSystems.Sor

open Superstep

/-- The two matrices' cells: those of `matrix`, and of `temp_matrix`. -/
inductive Loc
  | matrix (k : ℕ)
  | temp (k : ℕ)
  deriving DecidableEq

/-- The average of a cell and its neighbours. -/
def average (N : ℕ) (v : ℕ → ℤ) (c : ℤ × ℤ) : ℤ :=
  ((neighbours c).map fun n => v (place N n)).sum.tdiv 9

/-- One iteration, on all cells at once. -/
def relaxation (N : ℕ) (v : ℕ → ℤ) (k : ℕ) : ℤ :=
  if k < N * N then average N v (cellAt N k) else v k

/-- The assignment of `relax_one_step` for a cell. -/
def relaxAssign (N : ℕ) (c : ℤ × ℤ) : Assign Loc ℤ where
  reads := (neighbours c).map fun n => .matrix (place N n)
  target := .temp (place N c)
  value got := got.sum.tdiv 9

/-- The assignment of `matrix_copy` for a cell. -/
def copyAssign (N : ℕ) (c : ℤ × ℤ) : Assign Loc ℤ where
  reads := [.temp (place N c)]
  target := .matrix (place N c)
  value got := got.headD 0

variable {T : Type}

/-- The supersteps: phase `2 * i` relaxes, and phase `2 * i + 1` copies. -/
def assignments (N : ℕ) (args : T → RelaxArgs) (iterations : ℕ) (t : T) (k : ℕ) :
    List (Assign Loc ℤ) :=
  if k < 2 * iterations then
    (args t).cells.map (if k % 2 = 0 then relaxAssign N else copyAssign N)
  else []

/-- What a phase does to the memory. -/
def phase (N iterations k : ℕ) (m : Loc → ℤ) : Loc → ℤ
  | .matrix j => if k < 2 * iterations ∧ k % 2 = 1 ∧ j < N * N then m (.temp j) else m (.matrix j)
  | .temp j =>
    if k < 2 * iterations ∧ k % 2 = 0 ∧ j < N * N then average N (fun i => m (.matrix i)) (cellAt N j)
    else m (.temp j)

variable {N iterations k : ℕ} {args : T → RelaxArgs} {t : T}

/-- The blocks are in the matrix, and cover it, and an `int` indexes its cells. -/
structure Tiles (N : ℕ) (args : T → RelaxArgs) : Prop where
  small : N * N < 2 ^ 31
  inside : ∀ t, ∀ c ∈ (args t).cells, Inside N c
  covers : ∀ c, Inside N c → ∃ t, c ∈ (args t).cells

theorem tiles_blockArgs {tpr : ℕ} (htpr : 0 < tpr) (hdvd : tpr ∣ N) (hN : N * N < 2 ^ 31) :
    Tiles N (blockArgs N : Thread tpr → RelaxArgs) := by
  have hlt : tpr * N < 2 ^ 31 := by
    rcases Nat.eq_zero_or_pos N with rfl | hpos
    · simp
    · exact (Nat.mul_le_mul_right N (Nat.le_of_dvd hpos hdvd)).trans_lt hN
  exact ⟨hN, fun _ _ => inside_of_mem_blockArgs hlt, fun _ => exists_mem_blockArgs htpr hlt⟩

theorem assignments_even {i : ℕ} (hi : i < iterations) (t : T) :
    assignments N args iterations t (2 * i) = (args t).cells.map (relaxAssign N) := by
  rw [assignments, if_pos (by omega), if_pos (by omega)]

theorem assignments_odd {i : ℕ} (hi : i < iterations) (t : T) :
    assignments N args iterations t (2 * i + 1) = (args t).cells.map (copyAssign N) := by
  rw [assignments, if_pos (by omega), if_neg (by omega)]

theorem assigned_iff (h : Tiles N args) (x : Loc) :
    Assigned (assignments N args iterations) k x ↔
      k < 2 * iterations ∧ ((k % 2 = 0 ∧ ∃ j < N * N, x = .temp j) ∨
        k % 2 = 1 ∧ ∃ j < N * N, x = .matrix j) := by
  unfold Assigned assignments
  constructor
  · rintro ⟨t, a, ha, rfl⟩
    split_ifs at ha with hk hk2
    · obtain ⟨c, hc, rfl⟩ := List.mem_map.mp ha
      exact ⟨hk, .inl ⟨hk2, _, (h.inside t c hc).place_lt, rfl⟩⟩
    · obtain ⟨c, hc, rfl⟩ := List.mem_map.mp ha
      exact ⟨hk, .inr ⟨by omega, _, (h.inside t c hc).place_lt, rfl⟩⟩
    · exact absurd ha List.not_mem_nil
  · rintro ⟨hk, ⟨hk2, j, hj, rfl⟩ | ⟨hk2, j, hj, rfl⟩⟩
    · obtain ⟨t, ht⟩ := h.covers _ (inside_cellAt hj)
      refine ⟨t, relaxAssign N (cellAt N j), ?_, congrArg Loc.temp (place_cellAt hj)⟩
      rw [if_pos hk, if_pos hk2]
      exact List.mem_map_of_mem ht
    · obtain ⟨t, ht⟩ := h.covers _ (inside_cellAt hj)
      refine ⟨t, copyAssign N (cellAt N j), ?_, congrArg Loc.matrix (place_cellAt hj)⟩
      rw [if_pos hk, if_neg (by omega)]
      exact List.mem_map_of_mem ht

/-- **In a phase one matrix is read and the other written.** -/
theorem lawful (h : Tiles N args) :
    Lawful (assignments N args iterations) (2 * iterations) (phase N iterations) where
  ends t k hk := if_neg (by omega)
  apart t k a ha x hx := by
    rw [assigned_iff h]
    rintro ⟨hk, hx'⟩
    rw [assignments, if_pos hk] at ha
    split_ifs at ha with hk2
    · obtain ⟨c, -, rfl⟩ := List.mem_map.mp ha
      obtain ⟨n, -, rfl⟩ := List.mem_map.mp hx
      simp [hk2] at hx'
    · obtain ⟨c, -, rfl⟩ := List.mem_map.mp ha
      obtain rfl := List.mem_singleton.mp hx
      simp [hk2] at hx'
  value t k a ha m := by
    by_cases hk : k < 2 * iterations
    · rw [assignments, if_pos hk] at ha
      split_ifs at ha with hk2
      · obtain ⟨c, hc, rfl⟩ := List.mem_map.mp ha
        have hin := h.inside t c hc
        simp only [relaxAssign, phase, List.map_map]
        rw [if_pos ⟨hk, hk2, hin.place_lt⟩, cellAt_place hin]
        rfl
      · obtain ⟨c, hc, rfl⟩ := List.mem_map.mp ha
        have hin := h.inside t c hc
        simp only [copyAssign, phase]
        rw [if_pos ⟨hk, by omega, hin.place_lt⟩]
        rfl
    · rw [assignments, if_neg hk] at ha
      exact absurd ha List.not_mem_nil
  keeps k x m hx := by
    rw [assigned_iff h] at hx
    cases x with
    | matrix j => exact if_neg fun ⟨h1, h2, h3⟩ => hx ⟨h1, .inr ⟨h2, j, h3, rfl⟩⟩
    | temp j => exact if_neg fun ⟨h1, h2, h3⟩ => hx ⟨h1, .inl ⟨h2, j, h3, rfl⟩⟩

theorem after_matrix (m : Loc → ℤ) {i : ℕ} (hi : i ≤ iterations) :
    (fun k => after (phase N iterations) m (2 * i) (.matrix k)) =
      (relaxation N)^[i] fun k => m (.matrix k) := by
  induction i with
  | zero => rfl
  | succ i ih =>
    rw [Function.iterate_succ_apply', ← ih (by omega)]
    funext k
    change phase N iterations (2 * i + 1) (phase N iterations (2 * i) _) (.matrix k) = _
    unfold relaxation
    by_cases hk : k < N * N
    · simp [phase, hk, show 2 * i + 1 < 2 * iterations by omega, show 2 * i < 2 * iterations by omega]
    · simp [phase, hk]

theorem after_matrix_succ (m : Loc → ℤ) {i : ℕ} (hi : i ≤ iterations) :
    (fun k => after (phase N iterations) m (2 * i + 1) (.matrix k)) =
      (relaxation N)^[i] fun k => m (.matrix k) := by
  rw [← after_matrix m hi]
  funext k
  change phase N iterations (2 * i) _ (.matrix k) = _
  simp [phase]

/-! ## The steps of the threads -/

variable [DecidableEq T] {s s' : State T} {a : Superstep.State T Loc ℤ} {pc : Pc} {p : At Loc ℤ}
  {released : List T → T → Bool} {c : ℤ × ℤ}

/-- The cells of the matrices. -/
def memory (matrix temp_matrix : SquareMatrix) : Loc → ℤ
  | .matrix k => matrix.value k
  | .temp k => temp_matrix.value k

/-- The point of the supersteps that a point of `relax` stands for. -/
def Pc.Shows (N iterations : ℕ) : Pc → At Loc ℤ → Prop
  | .relax i out rest inner out_total, p => i < iterations ∧ (∀ c ∈ out :: rest, Inside N c) ∧
      ∃ got, p = .work (2 * i) got ((out :: rest).map (relaxAssign N)) ∧
        got.length ≤ (neighbours out).length ∧ inner = (neighbours out).drop got.length ∧
        out_total = got.sum
  | .relaxed i, p => i < iterations ∧ p = .work (2 * i) [] []
  | .inFirst i, p => i < iterations ∧ p = .wait (2 * i)
  | .copy i cell rest value, p => i < iterations ∧ (∀ c ∈ cell :: rest, Inside N c) ∧
      p = .work (2 * i + 1) value.toList ((cell :: rest).map (copyAssign N))
  | .copied i, p => i < iterations ∧ p = .work (2 * i + 1) [] []
  | .inSecond i, p => i < iterations ∧ p = .wait (2 * i + 1)
  | .done, p => p = .work (2 * iterations) [] []

/-- The state of the supersteps that a state of the threads stands for. -/
structure Shows (N iterations : ℕ) (s : State T) (a : Superstep.State T Loc ℤ) : Prop where
  size : s.matrix.size = N
  temp_size : s.temp_matrix.size = N
  mem : a.mem = memory s.matrix s.temp_matrix
  arrivals : a.arrivals = s.arrivals
  pc : ∀ t, (s.pc t).Shows N iterations (a.pc t)

theorem Shows.goto (h : Shows N iterations s a) (t : T) (hp : pc.Shows N iterations p) :
    Shows N iterations (s.goto t pc) (a.goto t p) where
  size := h.size
  temp_size := h.temp_size
  mem := h.mem
  arrivals := h.arrivals
  pc u := by
    by_cases hu : u = t
    · subst hu
      simpa [State.goto, Superstep.State.goto] using hp
    · simpa [State.goto, Superstep.State.goto, hu] using h.pc u

omit [DecidableEq T] in
theorem Shows.arrive (h : Shows N iterations s a) (t : T) :
    Shows N iterations { s with arrivals := s.arrivals ++ [t] }
      { a with arrivals := a.arrivals ++ [t] } :=
  ⟨h.size, h.temp_size, h.mem, congrArg (· ++ [t]) h.arrivals, h.pc⟩

omit [DecidableEq T] in
theorem nextRelax_shows {i : ℕ} (hi : i < iterations) {rest : List (ℤ × ℤ)}
    (hin : ∀ c ∈ rest, Inside N c) :
    (nextRelax i rest).Shows N iterations (.work (2 * i) [] (rest.map (relaxAssign N))) := by
  cases rest with
  | nil => exact ⟨hi, rfl⟩
  | cons out rest => exact ⟨hi, hin, [], rfl, Nat.zero_le _, rfl, rfl⟩

omit [DecidableEq T] in
theorem nextCopy_shows {i : ℕ} (hi : i < iterations) {rest : List (ℤ × ℤ)}
    (hin : ∀ c ∈ rest, Inside N c) :
    (nextCopy i rest).Shows N iterations (.work (2 * i + 1) [] (rest.map (copyAssign N))) := by
  cases rest with
  | nil => exact ⟨hi, rfl⟩
  | cons cell rest => exact ⟨hi, hin, rfl⟩

omit [DecidableEq T] in
theorem iterate_shows (h : Tiles N args) (t : T) {i : ℕ} (hi : i ≤ iterations) :
    (iterate (args t) iterations i).Shows N iterations
      (.work (2 * i) [] (assignments N args iterations t (2 * i))) := by
  unfold iterate
  split_ifs with hlt
  · rw [assignments_even hlt]
    exact nextRelax_shows hlt (h.inside t)
  · obtain rfl : i = iterations := by omega
    rw [assignments, if_neg (by omega)]
    rfl

/-! ## The accesses -/

omit [DecidableEq T] in
theorem position_of_inside {m : SquareMatrix} (hm : m.size = N) (hN : N * N < 2 ^ 31) {out : ℤ × ℤ}
    (ho : Inside N out) (hc : c = out ∨ c ∈ neighbours out) :
    position m c.1 c.2 = some (place N c) := by
  obtain ⟨⟨h0, h1⟩, h2, h3⟩ := ho
  rcases hc with rfl | hc
  · exact position_eq hm hN (by omega) (by omega) (by omega)
  · obtain ⟨⟨k0, k1⟩, k2, k3⟩ := mem_cells.mp hc
    exact position_eq hm hN (by omega) (by omega) (by omega)

omit [DecidableEq T] in
theorem matrixGet_of_inside {m : SquareMatrix} (hm : m.size = N) (hN : N * N < 2 ^ 31)
    {out : ℤ × ℤ} (ho : Inside N out) (hc : c = out ∨ c ∈ neighbours out) :
    matrixGet m c.1 c.2 = some (m.value (place N c)) := by
  rw [matrixGet, position_of_inside hm hN ho hc]
  rfl

omit [DecidableEq T] in
theorem matrixSet_of_inside {m : SquareMatrix} (hm : m.size = N) (hN : N * N < 2 ^ 31)
    (hc : Inside N c) (value : ℤ) : matrixSet m c.1 c.2 value =
      some { m with value := Function.update m.value (place N c) value } := by
  rw [matrixSet, position_of_inside hm hN hc (.inl rfl)]
  rfl

omit [DecidableEq T] in
theorem Shows.setTemp (h : Shows N iterations s a) (k : ℕ) (value : ℤ) :
    Shows N iterations { s with temp_matrix :=
        { s.temp_matrix with value := Function.update s.temp_matrix.value k value } }
      { a with mem := Function.update a.mem (.temp k) value } := by
  refine ⟨h.size, h.temp_size, ?_, h.arrivals, h.pc⟩
  rw [h.mem]
  funext x
  cases x <;> simp [memory, Function.update_apply]

omit [DecidableEq T] in
theorem Shows.setMatrix (h : Shows N iterations s a) (k : ℕ) (value : ℤ) :
    Shows N iterations { s with matrix :=
        { s.matrix with value := Function.update s.matrix.value k value } }
      { a with mem := Function.update a.mem (.matrix k) value } := by
  refine ⟨h.size, h.temp_size, ?_, h.arrivals, h.pc⟩
  rw [h.mem]
  funext x
  cases x <;> simp [memory, Function.update_apply]

section Exec

variable {i : ℕ} {cell : ℤ × ℤ} {rest inner : List (ℤ × ℤ)} {out_total value : ℤ} {m : SquareMatrix}

theorem exec_relax_cons (hpc : s.pc t = .relax i cell rest (c :: inner) out_total)
    (hget : matrixGet s.matrix c.1 c.2 = some value) : exec args iterations s t =
      some (s.goto t (.relax i cell rest inner (int (out_total + value)))) := by
  rw [exec, hpc]
  dsimp only
  rw [hget]
  rfl

theorem exec_relax_nil (hpc : s.pc t = .relax i cell rest [] out_total)
    (hset : matrixSet s.temp_matrix cell.1 cell.2 (out_total.tdiv 9) = some m) :
    exec args iterations s t = some ({ s with temp_matrix := m }.goto t (nextRelax i rest)) := by
  rw [exec, hpc]
  dsimp only
  rw [hset]
  rfl

theorem exec_copy_none (hpc : s.pc t = .copy i cell rest none)
    (hget : matrixGet s.temp_matrix cell.1 cell.2 = some value) :
    exec args iterations s t = some (s.goto t (.copy i cell rest (some value))) := by
  rw [exec, hpc]
  dsimp only
  rw [hget]
  rfl

theorem exec_copy_some (hpc : s.pc t = .copy i cell rest (some value))
    (hset : matrixSet s.matrix cell.1 cell.2 value = some m) :
    exec args iterations s t = some ({ s with matrix := m }.goto t (nextCopy i rest)) := by
  rw [exec, hpc]
  dsimp only
  rw [hset]
  rfl

end Exec

/-- **A step of a thread is one of the supersteps**, as long as the sum that it forms does not
overflow. -/
theorem Shows.exec (h : Shows N iterations s a) (hargs : Tiles N args) (hr : Ready released s t)
    (hfits : ∀ a', Step (assignments N args iterations) (2 * iterations)
      (fun l t => released l t = true) a t a' → ∀ k got c rest, Inside N c →
        a'.pc t = .work k got (relaxAssign N c :: rest) → int got.sum = got.sum) :
    ∃ s' a', exec args iterations s t = some s' ∧
      Step (assignments N args iterations) (2 * iterations) (fun l t => released l t = true) a t a' ∧
      Shows N iterations s' a' := by
  have ht := h.pc t
  unfold Ready at hr
  cases hpc : s.pc t with
  | relax i out rest inner out_total =>
    rw [hpc] at ht
    obtain ⟨hi, hin, got, hp, hlen, rfl, rfl⟩ := ht
    have hout := hin out List.mem_cons_self
    rcases Nat.lt_or_ge got.length (neighbours out).length with hlt | hge
    · -- one more neighbour
      rw [List.drop_eq_getElem_cons hlt] at hpc
      have hget := matrixGet_of_inside h.size hargs.small hout (.inr (List.getElem_mem hlt))
      have hstep : Step (assignments N args iterations) (2 * iterations)
          (fun l t => released l t = true) a t _ :=
        .read (x := .matrix (place N (neighbours out)[got.length])) hp (by simp [relaxAssign, hlt])
      have hsum := hfits _ hstep (2 * i) _ out (rest.map (relaxAssign N)) hout
        Superstep.goto_pc_self
      refine ⟨_, _, exec_relax_cons hpc hget, hstep, h.goto t ⟨hi, hin, _, rfl, ?_, ?_, ?_⟩⟩
      · simpa [Nat.succ_le_iff] using hlt
      · simp
      · rw [← hsum]
        simp [h.mem, memory]
    · have hlen' : got.length = (neighbours out).length := le_antisymm hlen hge
      rw [hlen', List.drop_length] at hpc
      have hset := matrixSet_of_inside h.temp_size hargs.small hout (got.sum.tdiv 9)
      refine ⟨_, _, exec_relax_nil hpc hset, .write hp (by simpa [relaxAssign] using hlen'), ?_⟩
      exact (h.setTemp _ _).goto t
        (nextRelax_shows hi fun c hc => hin c (List.mem_cons_of_mem out hc))
  | relaxed i =>
    rw [hpc] at ht
    obtain ⟨hi, hp⟩ := ht
    refine ⟨_, _, by rw [Sor.exec, hpc], .arrive hp (by omega), ?_⟩
    exact (h.arrive t).goto t ⟨hi, rfl⟩
  | inFirst i =>
    rw [hpc] at ht hr
    obtain ⟨hi, hp⟩ := ht
    refine ⟨_, _, by rw [Sor.exec, hpc], .pass hp (by rw [h.arrivals]; exact hr), ?_⟩
    rw [assignments_odd hi]
    exact h.goto t (nextCopy_shows hi (hargs.inside t))
  | copy i cell rest value =>
    rw [hpc] at ht
    obtain ⟨hi, hin, hp⟩ := ht
    have hcell := hin cell List.mem_cons_self
    cases value with
    | none =>
      have hget := matrixGet_of_inside h.temp_size hargs.small hcell (.inl rfl)
      refine ⟨_, _, exec_copy_none hpc hget, .read (x := .temp (place N cell)) hp rfl,
        h.goto t ⟨hi, hin, ?_⟩⟩
      rw [h.mem]
      rfl
    | some value =>
      have hset := matrixSet_of_inside h.size hargs.small hcell value
      refine ⟨_, _, exec_copy_some hpc hset, .write hp rfl, ?_⟩
      exact (h.setMatrix _ _).goto t
        (nextCopy_shows hi fun c hc => hin c (List.mem_cons_of_mem cell hc))
  | copied i =>
    rw [hpc] at ht
    obtain ⟨hi, hp⟩ := ht
    refine ⟨_, _, by rw [Sor.exec, hpc], .arrive hp (by omega), ?_⟩
    exact (h.arrive t).goto t ⟨hi, rfl⟩
  | inSecond i =>
    rw [hpc] at ht hr
    obtain ⟨hi, hp⟩ := ht
    refine ⟨_, _, by rw [Sor.exec, hpc], .pass hp (by rw [h.arrivals]; exact hr), ?_⟩
    exact h.goto t (iterate_shows hargs t (i := i + 1) (by omega))
  | done =>
    rw [hpc] at hr
    exact hr.elim

/-! ## The bounds -/

variable {matrix temp_matrix : SquareMatrix} {o : Option (State T)}

omit [DecidableEq T] in
theorem after_matrix_phase (hk : k ≤ 2 * iterations) :
    (fun j => after (phase N iterations) (memory matrix temp_matrix) k (.matrix j)) =
      (relaxation N)^[k / 2] matrix.value := by
  rcases Nat.even_or_odd' k with ⟨i, rfl | rfl⟩
  · rw [Nat.mul_div_cancel_left i Nat.two_pos]
    exact after_matrix _ (by omega)
  · rw [show (2 * i + 1) / 2 = i by omega]
    exact after_matrix_succ _ (by omega)

/-- The values of the cells are in a range. -/
def Within (N : ℕ) (B : ℤ) (v : ℕ → ℤ) : Prop := ∀ k < N * N, 0 ≤ v k ∧ v k ≤ B

variable {v : ℕ → ℤ} {B : ℤ}

omit [DecidableEq T] in
theorem Within.sum (h : Within N B v) (hc : Inside N c) (n : ℕ) :
    0 ≤ ((neighbours c).take n |>.map fun x => v (place N x)).sum ∧
      ((neighbours c).take n |>.map fun x => v (place N x)).sum ≤ 9 * B := by
  have hv : ∀ y ∈ ((neighbours c).take n).map fun x => v (place N x), 0 ≤ y ∧ y ≤ B := by
    intro y hy
    obtain ⟨x, hx, rfl⟩ := List.mem_map.mp hy
    exact h _ (neighbour_place_lt hc (List.mem_of_mem_take hx))
  have hB : 0 ≤ B := by
    have := h _ hc.place_lt
    omega
  refine ⟨List.sum_nonneg fun y hy => (hv y hy).1, ?_⟩
  refine (List.sum_le_card_nsmul _ B fun y hy => (hv y hy).2).trans ?_
  rw [nsmul_eq_mul]
  refine mul_le_mul_of_nonneg_right ?_ hB
  have hlen := neighbours_length c
  simp only [List.length_map, List.length_take]
  omega

omit [DecidableEq T] in
theorem Within.relaxation (h : Within N B v) : Within N B (relaxation N v) := by
  intro k hk
  have hsum := h.sum (inside_cellAt hk) 9
  rw [← neighbours_length (cellAt N k), List.take_length] at hsum
  rw [Sor.relaxation, if_pos hk, average]
  refine ⟨Int.tdiv_nonneg hsum.1 (by decide), ?_⟩
  rw [Int.tdiv_eq_ediv_of_nonneg hsum.1]
  omega

omit [DecidableEq T] in
theorem Within.iterate (h : Within N B v) (i : ℕ) : Within N B ((Sor.relaxation N)^[i] v) := by
  induction i with
  | zero => exact h
  | succ i ih =>
    rw [Function.iterate_succ_apply']
    exact ih.relaxation

/-- **No sum overflows.** -/
theorem sum_bounds (hk : Superstep.Inv (assignments N args iterations) (2 * iterations)
    (phase N iterations) (memory matrix temp_matrix) k a) (hB : Within N B matrix.value) {j : ℕ}
    {got : List ℤ} {rest : List (Assign Loc ℤ)} (hc : Inside N c)
    (hp : a.pc t = .work j got (relaxAssign N c :: rest)) : 0 ≤ got.sum ∧ got.sum ≤ 9 * B := by
  have hread := hk.read t
  rw [hp] at hread
  have hgot : got = ((neighbours c).take got.length).map fun x =>
      (Sor.relaxation N)^[k / 2] matrix.value (place N x) := by
    change got = ((relaxAssign N c).reads.take got.length).map _ at hread
    rw [relaxAssign, ← List.map_take, List.map_map] at hread
    rw [← after_matrix_phase (N := N) hk.le]
    exact hread
  rw [hgot]
  exact (hB.iterate _).sum hc _

theorem Shows.bounded (h : Shows N iterations s a)
    (hk : Superstep.Inv (assignments N args iterations) (2 * iterations) (phase N iterations)
      (memory matrix temp_matrix) k a) (hB : Within N B matrix.value) {i : ℕ} {out : ℤ × ℤ}
    {rest inner : List (ℤ × ℤ)} {out_total : ℤ}
    (hpc : s.pc t = .relax i out rest inner out_total) : 0 ≤ out_total ∧ out_total ≤ 9 * B := by
  have ht := h.pc t
  rw [hpc] at ht
  obtain ⟨-, hin, got, hp, -, -, rfl⟩ := ht
  exact sum_bounds hk hB (hin out List.mem_cons_self) hp

/-! ## The runs -/

theorem simulates (hargs : Tiles N args) (hm : matrix.size = N) (ht : temp_matrix.size = N)
    (hsafe : ∀ l t u, released l t = true → l.count t ≤ l.count u) (hB : Within N B matrix.value)
    (hint : 9 * B < 2 ^ 31) :
    Sys.Simulates (sys args iterations released matrix temp_matrix)
      (Superstep.sys (assignments N args iterations) (2 * iterations)
        (fun l t => released l t = true) (memory matrix temp_matrix))
      fun o a => (Superstep.sys (assignments N args iterations) (2 * iterations)
        (fun l t => released l t = true) (memory matrix temp_matrix)).Reach a ∧
          ∃ s, o = some s ∧ Shows N iterations s a where
  init := by
    rintro o ⟨s, rfl, rfl⟩
    exact ⟨_, rfl, .init rfl, _, rfl, hm, ht, rfl, rfl, fun t => iterate_shows hargs t (Nat.zero_le _)⟩
  step := by
    rintro o t o' a ⟨ha, s, rfl, h⟩ ⟨s₀, hs₀, hr, rfl⟩
    cases hs₀
    obtain ⟨s', a', hexec, hstep, h'⟩ := h.exec hargs hr fun a' hstep j got c rest hc hp => by
      obtain ⟨k, hk⟩ := Superstep.reach_inv (lawful hargs) hsafe (ha.step (l := t) hstep)
      obtain ⟨h0, h1⟩ := sum_bounds hk hB hc hp
      exact int_eq (by omega) (by omega)
    exact ⟨a', .single _ hstep, ha.step (l := t) hstep, s', hexec, h'⟩

theorem reach_shows (hargs : Tiles N args) (hm : matrix.size = N) (ht : temp_matrix.size = N)
    (hsafe : ∀ l t u, released l t = true → l.count t ≤ l.count u) (hB : Within N B matrix.value)
    (hint : 9 * B < 2 ^ 31) (hr : (sys args iterations released matrix temp_matrix).Reach o) :
    ∃ s a k, o = some s ∧ Shows N iterations s a ∧
      Superstep.Inv (assignments N args iterations) (2 * iterations) (phase N iterations)
        (memory matrix temp_matrix) k a := by
  obtain ⟨a, -, ha, s, rfl, h⟩ := (simulates hargs hm ht hsafe hB hint).reach hr
  obtain ⟨k, hk⟩ := Superstep.reach_inv (lawful hargs) hsafe ha
  exact ⟨s, a, k, rfl, h, hk⟩

omit [DecidableEq T] in
theorem Pc.Shows.done_iff (h : pc.Shows N iterations p) : pc = .done ↔ p = .work (2 * iterations) [] [] := by
  cases pc with
  | done => exact iff_of_true rfl h
  | relax i out rest inner out_total =>
    obtain ⟨-, -, got, rfl, -⟩ := h
    simp
  | copy i cell rest value =>
    obtain ⟨-, -, rfl⟩ := h
    simp
  | relaxed i | copied i =>
    obtain ⟨hi, rfl⟩ := h
    simp
    omega
  | inFirst i | inSecond i =>
    obtain ⟨hi, rfl⟩ := h
    simp

theorem Shows.ready (h : Shows N iterations s a) {a' : Superstep.State T Loc ℤ}
    (hstep : Step (assignments N args iterations) (2 * iterations)
      (fun l t => released l t = true) a t a') : Ready released s t := by
  have ht := h.pc t
  unfold Ready
  cases hpc : s.pc t with
  | relax i out rest inner out_total | relaxed i | copy i cell rest value | copied i => trivial
  | inFirst i | inSecond i =>
    rw [hpc] at ht
    obtain ⟨-, hp⟩ := ht
    cases hstep with
    | read hp' _ | write hp' _ | arrive hp' _ =>
      rw [hp] at hp'
      cases hp'
    | pass _ hrel =>
      rw [h.arrivals] at hrel
      exact hrel
  | done =>
    rw [hpc] at ht
    have hp : a.pc t = .work (2 * iterations) [] [] := ht
    cases hstep with
    | read hp' _ | write hp' _ | pass hp' _ =>
      rw [hp] at hp'
      cases hp'
    | arrive hp' hk =>
      rw [hp] at hp'
      obtain ⟨rfl, -, -⟩ := At.work.inj hp'
      omega

/-! ## The result -/

theorem Shows.result (h : Shows N iterations s a) (hargs : Tiles N args)
    (hk : Superstep.Inv (assignments N args iterations) (2 * iterations) (phase N iterations)
      (memory matrix temp_matrix) k a) (hpc : s.pc t = .done) :
    s.matrix.value = (Sor.relaxation N)^[iterations] matrix.value := by
  have hmem := hk.eq_after (lawful hargs) ((h.pc t).done_iff.mp hpc)
  rw [h.mem] at hmem
  have hfinal : (fun j => after (phase N iterations) (memory matrix temp_matrix) (2 * iterations)
      (.matrix j)) = _ := after_matrix_phase (le_refl (2 * iterations))
  rw [Nat.mul_div_cancel_left iterations Nat.two_pos] at hfinal
  rw [← hfinal]
  funext j
  exact congrFun hmem (.matrix j)

omit [DecidableEq T] in
theorem matrixCompare_of_eq {m m' : SquareMatrix} (hs : m.size = m'.size)
    (hv : m.value = m'.value) : matrixCompare m m' = true := by
  obtain ⟨n, v⟩ := m
  obtain ⟨n', v'⟩ := m'
  obtain rfl : n = n' := hs
  obtain rfl : v = v' := hv
  simp [matrixCompare]

/-- The barrier releases a thread exactly if nobody has arrived less often. -/
structure Barrier (released : List T → T → Bool) : Prop where
  safe : ∀ l t u, released l t = true → l.count t ≤ l.count u
  live : ∀ l t, (∀ u, l.count t ≤ l.count u) → released l t = true

/-- A barrier that counts the arrivals. -/
def counting [Fintype T] (l : List T) (t : T) : Bool := decide (∀ u, l.count t ≤ l.count u)

theorem barrier_counting [Fintype T] : Barrier (counting (T := T)) :=
  ⟨fun _ _ u h => of_decide_eq_true h u, fun _ _ h => decide_eq_true h⟩

/-- **Whatever the interleaving, the parallel relaxation is the sequential one**: no access is out of
bounds and no sum leaves the range, no run gets stuck before all threads are through, and then the
matrix is the iterated relaxation, which a run with a single thread gives too. The indices and the
sums are `int`s, and have to fit. -/
theorem parallel_eq_sequential (N tpr iterations : ℕ) (htpr : 0 < tpr) (hdvd : tpr ∣ N)
    (hN : N * N < 2 ^ 31) {released : List (Thread tpr) → Thread tpr → Bool}
    (hbarrier : Barrier released) (matrix temp_matrix : SquareMatrix) (hm : matrix.size = N)
    (ht : temp_matrix.size = N) {B : ℤ} (hB : Within N B matrix.value) (hint : 9 * B < 2 ^ 31)
    {o : Option (State (Thread tpr))}
    (hr : (sys (blockArgs N) iterations released matrix temp_matrix).Reach o) :
    ∃ s, o = some s ∧
      (∀ t i out rest inner out_total, s.pc t = .relax i out rest inner out_total →
        0 ≤ out_total ∧ out_total ≤ 9 * B) ∧
      ((∃ t, s.pc t ≠ .done) → ∃ t, Ready released s t) ∧
      ∀ t, s.pc t = .done → s.matrix.value = (Sor.relaxation N)^[iterations] matrix.value ∧
        ∀ (released' : List (Thread 1) → Thread 1 → Bool) (temp' : SquareMatrix) (s' : State (Thread 1)),
          Barrier released' → temp'.size = N →
          (sys (blockArgs N) iterations released' matrix temp').Reach (some s') →
          s'.pc (0, 0) = .done → matrixCompare s.matrix s'.matrix = true := by
  have hargs := tiles_blockArgs htpr hdvd hN
  obtain ⟨s, a, k, rfl, h, hk⟩ := reach_shows hargs hm ht hbarrier.safe hB hint hr
  refine ⟨s, rfl, fun t i out rest inner out_total hpc => h.bounded hk hB hpc, ?_, fun t hpc => ?_⟩
  · rintro ⟨t, hpc⟩
    obtain ⟨u, a', hstep⟩ :=
      hk.exists_step (lawful hargs) hbarrier.live (mt (h.pc t).done_iff.mpr hpc)
    exact ⟨u, h.ready hstep⟩
  · have hresult := h.result hargs hk hpc
    refine ⟨hresult, fun released' temp' s' hbarrier' ht' hr' hpc' => ?_⟩
    have hargs' := tiles_blockArgs Nat.one_pos (one_dvd N) hN
    obtain ⟨s₁, a', k', hs₁, h', hk'⟩ := reach_shows hargs' hm ht' hbarrier'.safe hB hint hr'
    cases hs₁
    exact matrixCompare_of_eq (h.size.trans h'.size.symm)
      (hresult.trans (h'.result hargs' hk' hpc').symm)

/-- What `matrix_set_initial_values` makes of a matrix of four cells. -/
def initial : SquareMatrix := ⟨2, fun k => (k / 2 * 1000 + k % 2 * 10 : ℕ)⟩

theorem within_initial : Within 2 1010 initial.value := fun k hk => by
  simp only [initial]
  omega

/-- Four threads with a cell each. -/
def block : Sys (Option (State (Thread 2))) (Thread 2) :=
  sys (blockArgs 2) 1 counting initial ⟨2, fun _ => -1⟩

/-- The threads by turns, up to the barrier and from there on. -/
def byTurns : List (Thread 2) :=
  [(11, (0, 1)), (11, (1, 1)), (11, (0, 0)), (11, (1, 0)), (4, (1, 0)), (4, (0, 1)), (4, (1, 1)),
    (4, (0, 0)), (1, (0, 0)), (1, (0, 1)), (1, (1, 0)), (1, (1, 1))].flatMap
      fun (k, t) => List.replicate k t

/-- A thread waits at the barrier and another one is at its sum; and in the end, all are through. -/
theorem parallel_eq_sequential_four :
    (∃ s out_total, block.Reach (some s) ∧ s.pc (0, 0) = .inFirst 0 ∧
      s.pc (0, 1) = .relax 0 (0, 1) [] [(0, 2), (1, 0), (1, 1), (1, 2)] out_total ∧
      (0 ≤ out_total ∧ out_total ≤ 9 * 1010) ∧ ∃ t, Ready counting s t) ∧
    ∃ s s' : State _, block.Reach (some s) ∧ (∀ t, s.pc t = .done) ∧
      s.matrix.value = Sor.relaxation 2 initial.value ∧
      (sys (blockArgs 2) 1 counting initial ⟨2, fun _ => 0⟩).Reach (some s') ∧
      s'.pc ((0, 0) : Thread 1) = .done ∧ matrixCompare s.matrix s'.matrix = true := by
  constructor
  · obtain ⟨s, hs, hwait, hpc⟩ : ∃ s, block.Reach (some s) ∧ s.pc (0, 0) = .inFirst 0 ∧
        s.pc (0, 1) = .relax 0 (0, 1) [] [(0, 2), (1, 0), (1, 1), (1, 2)] 3020 :=
      Sys.Reach.of_follow rfl (List.replicate 11 (0, 0) ++ List.replicate 5 (0, 1))
        (by decide +kernel)
    obtain ⟨_, ⟨⟩, hsum, hready, -⟩ := parallel_eq_sequential 2 2 1 (by decide) (by decide)
      (by decide) barrier_counting initial ⟨2, fun _ => -1⟩ rfl rfl within_initial (by decide) hs
    exact ⟨s, 3020, hs, hwait, hpc, hsum (0, 1) 0 _ _ _ _ hpc, hready ⟨(0, 1), by simp [hpc]⟩⟩
  · obtain ⟨s, hs, hdone⟩ : ∃ s, block.Reach (some s) ∧ ∀ t, s.pc t = .done :=
      Sys.Reach.of_follow rfl byTurns (by decide +kernel)
    obtain ⟨s', hs', hdone'⟩ : ∃ s' : State (Thread 1),
        (sys (blockArgs 2) 1 counting initial ⟨2, fun _ => 0⟩).Reach (some s') ∧
          s'.pc (0, 0) = .done :=
      Sys.Reach.of_follow rfl (List.replicate 52 (0, 0)) (by decide +kernel)
    obtain ⟨_, ⟨⟩, -, -, hend⟩ := parallel_eq_sequential 2 2 1 (by decide) (by decide)
      (by decide) barrier_counting initial ⟨2, fun _ => -1⟩ rfl rfl within_initial (by decide) hs
    obtain ⟨hvalue, hcompare⟩ := hend (0, 0) (hdone _)
    exact ⟨s, s', hs, hdone, hvalue, hs', hdone',
      hcompare counting ⟨2, fun _ => 0⟩ s' barrier_counting rfl hs' hdone'⟩

end IntroSystems.Sor
