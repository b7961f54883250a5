import IntroSystems.SM213.Grades

/-!
# What becomes of the student grades

The loops of `q3.s`, and the whole program in the simulator.

* `averages_runs`, `inner_runs`, `outer_runs`: the loops. `grades_runs`: all of them.
* `Student`, `students`: the records. `Graded`: what the program is for.
* **`grades_correct`**: for any list of an odd number of students.
-/

set_option autoImplicit false

namespace IntroSystems.SM213.Grades

open ExchangeSort Reg

/-! ## The loops -/

variable {mem : ℕ → BitVec 32} {a : ℕ → ℕ → BitVec 32} {b n i j : ℕ} {x : Registers}

/-- **The loop of the averages**, with `count` records to go. -/
theorem averages_runs (hl : Layout mem b n) (count : ℕ) (hi : i + count = n) (hx : Index b n i x) :
    ∃ x', grades.Runs ⟨L0, x, withRows mem b n a⟩
      ⟨L2, x', withRows mem b n fun k => if i ≤ k then averaged (a k) else a k⟩ := by
  induction count generalizing i a x with
  | zero =>
    have hend : i = n := hi
    obtain ⟨x', -, h⟩ := more_runs (withRows mem b n a) hl.n_le (le_of_eq hend) hx
    rw [if_pos hend] at h
    have hrows : (withRows mem b n fun k => if i ≤ k then averaged (a k) else a k) =
        withRows mem b n a := withRows_congr fun k hk _ _ => by
      rw [if_neg (show ¬i ≤ k by omega)]
    exact ⟨x', hrows ▸ h⟩
  | succ count ih =>
    obtain ⟨x₁, hx₁, h₁⟩ := more_runs (withRows mem b n a) hl.n_le (by omega) hx
    rw [if_neg (show i ≠ n by omega)] at h₁
    obtain ⟨x₂, hx₂, h₂⟩ := average_runs (a := a) hl (by omega) hx₁
    obtain ⟨x₃, h₃⟩ := ih (a := Function.update a i (averaged (a i))) (by omega) hx₂
    have hrows : (fun k => if i + 1 ≤ k then averaged (Function.update a i (averaged (a i)) k)
        else Function.update a i (averaged (a i)) k) =
        fun k => if i ≤ k then averaged (a k) else a k := by
      funext k
      by_cases hk : k = i
      · subst hk
        rw [if_neg (by omega), if_pos (le_refl k), Function.update_self]
      · rw [Function.update_of_ne hk]
        simp only [show i + 1 ≤ k ↔ i ≤ k by omega]
    rw [hrows] at h₃
    exact ⟨x₃, h₁.trans (h₂.trans h₃)⟩

/-- One turn of the inner loop. -/
theorem exchange_runs (hl : Layout mem b n) (hij : i < j) (hj : j < n)
    (hsmall : ∀ k < n, Small (a k 5)) (hx : Index b n i x) (h3 : x.r3 = BitVec.ofNat 32 j) :
    ∃ x', Index b n i x' ∧ x'.r3 = BitVec.ofNat 32 (j + 1) ∧
      grades.Runs ⟨L4, x, withRows mem b n a⟩ ⟨L4, x', withRows mem b n (exchange key a i j)⟩ := by
  obtain ⟨x₁, hx₁, h3₁, h4, h5, h₁⟩ := compare_runs hl hij hj hsmall hx h3
  -- the end of the turn
  have hnext : ∀ {y : Registers} {a'}, Index b n i y → y.r3 = BitVec.ofNat 32 j →
      ∃ x', Index b n i x' ∧ x'.r3 = BitVec.ofNat 32 (j + 1) ∧
        grades.Runs ⟨L5, y, withRows mem b n a'⟩ ⟨L4, x', withRows mem b n a'⟩ := by
    intro y a' hy hy3
    exact ⟨{ y with r3 := y.r3 + 1 }, ⟨hy.r0, hy.r1, hy.r2⟩,
      (congrArg (· + 1) hy3).trans (ofNat_inc j), .steps 2 _ rfl (.refl _)⟩
  unfold exchange
  by_cases hlt : key (a j) < key (a i)
  · rw [if_pos hlt] at h₁ ⊢
    obtain ⟨x₂, hx₂, h3₂, h₂⟩ := swap_runs (a := a) hl hij hj hx₁ h3₁ h4 h5
    obtain ⟨x₃, hx₃, h3₃, h₃⟩ := hnext hx₂ h3₂
    exact ⟨x₃, hx₃, h3₃, h₁.trans (h₂.trans h₃)⟩
  · rw [if_neg hlt] at h₁ ⊢
    obtain ⟨x₃, hx₃, h3₃, h₃⟩ := hnext hx₁ h3₁
    exact ⟨x₃, hx₃, h3₃, h₁.trans h₃⟩

/-- **The inner loop**, with `count` records to go. -/
theorem inner_runs (hl : Layout mem b n) (count : ℕ) (hij : i < j) (hj : j + count = n)
    (hsmall : ∀ k < n, Small (a k 5)) (hx : Index b n i x) (h3 : x.r3 = BitVec.ofNat 32 j) :
    ∃ x', Index b n (i + 1) x' ∧ grades.Runs ⟨L4, x, withRows mem b n a⟩
      ⟨L3, x', withRows mem b n (inner key i count j a)⟩ := by
  induction count generalizing j a x with
  | zero =>
    obtain ⟨r0, r1, r2, r3, r4, r5, r6, r7⟩ := x
    obtain ⟨rfl, rfl, rfl⟩ := hx
    cases h3
    have hend : -BitVec.ofNat 32 n + BitVec.ofNat 32 j = 0 :=
      (neg_add_eq_zero (le_of_eq hj) (lt_trans hl.n_le (by decide))).mpr hj
    refine ⟨⟨addr b, -BitVec.ofNat 32 n, BitVec.ofNat 32 i + 1, BitVec.ofNat 32 j,
      -BitVec.ofNat 32 n + BitVec.ofNat 32 j, r5, r6, r7⟩, ⟨rfl, rfl, ofNat_inc i⟩, ?_⟩
    refine .steps 2 ⟨0x106c, _, _⟩ rfl (.beq_taken rfl hend ?_)
    exact .steps 2 _ rfl (.refl _)
  | succ count ih =>
    obtain ⟨x₁, hx₁, h3₁, h₁⟩ := exchange_runs hl hij (by omega) hsmall hx h3
    have hr : Rearranges i n a (exchange key a i j) := exchange_rearranges hij (by omega)
    have hsmall₁ : ∀ k < n, Small (exchange key a i j k 5) :=
      hr.forall_lt (P := fun r : ℕ → BitVec 32 => Small (r 5)) hsmall
    obtain ⟨x₂, hx₂, h₂⟩ := ih (by omega) (by omega) hsmall₁ hx₁ h3₁
    exact ⟨x₂, hx₂, h₁.trans h₂⟩

/-- **The outer loop**, with `count` places to go. -/
theorem outer_runs (hl : Layout mem b n) (count : ℕ) (hi : i + count = n)
    (hsmall : ∀ k < n, Small (a k 5)) (hx : Index b n i x) :
    ∃ x', grades.Runs ⟨L3, x, withRows mem b n a⟩
      ⟨L7, x', withRows mem b n (outer key count i a)⟩ := by
  induction count generalizing i a x with
  | zero =>
    obtain ⟨r0, r1, r2, r3, r4, r5, r6, r7⟩ := x
    obtain ⟨rfl, rfl, rfl⟩ := hx
    have hend : -BitVec.ofNat 32 n + BitVec.ofNat 32 i = 0 :=
      (neg_add_eq_zero (le_of_eq hi) (lt_trans hl.n_le (by decide))).mpr hi
    exact ⟨_, .steps 2 ⟨0x1062, _, _⟩ rfl (.beq_taken rfl hend (.refl _))⟩
  | succ count ih =>
    obtain ⟨r0, r1, r2, r3, r4, r5, r6, r7⟩ := x
    obtain ⟨rfl, rfl, rfl⟩ := hx
    have hmore : -BitVec.ofNat 32 n + BitVec.ofNat 32 i ≠ 0 := fun h =>
      absurd ((neg_add_eq_zero (by omega) (lt_trans hl.n_le (by decide))).mp h) (by omega)
    obtain ⟨x₁, hx₁, h₁⟩ := inner_runs hl count (Nat.lt_succ_self i) (by omega) hsmall
      (x := ⟨addr b, -BitVec.ofNat 32 n, BitVec.ofNat 32 i, BitVec.ofNat 32 i + 1, r4, r5, r6, r7⟩)
      ⟨rfl, rfl, rfl⟩ (ofNat_inc i)
    have hr : Rearranges i n a (inner key i count (i + 1) a) :=
      inner_rearranges (Nat.lt_succ_self i) (by omega)
    have hsmall₁ : ∀ k < n, Small (inner key i count (i + 1) a k 5) :=
      hr.forall_lt (P := fun r : ℕ → BitVec 32 => Small (r 5)) hsmall
    obtain ⟨x₂, h₂⟩ := ih (by omega) hsmall₁ hx₁
    refine ⟨x₂, .steps 2 ⟨0x1062, _, _⟩ rfl (.beq_next rfl hmore ?_)⟩
    exact .steps 2 _ rfl (h₁.trans h₂)

/-- The records when the program halts. -/
def result (mem : ℕ → BitVec 32) (b n : ℕ) : ℕ → ℕ → BitVec 32 :=
  exchangeSort key n fun k => averaged (rows mem b k)

/-- **The whole program.** -/
theorem grades_runs (hl : Layout mem b n) (hodd : n % 2 = 1) (x : Registers) :
    ∃ x', grades.Runs ⟨0x1000, x, mem⟩
      ⟨0x10f4, x', Function.update (withRows mem b n (result mem b n)) mWord
        (result mem b n (n / 2) 0)⟩ := by
  have hsmall : ∀ k < n, Small (averaged (rows mem b k) 5) := fun k _ => by
    unfold averaged
    rw [Function.update_self]
    exact small_sshiftRight _
  have h₁ := start_runs hl x (.inl rfl)
  obtain ⟨x₂, h₂⟩ := averages_runs (a := rows mem b) (i := 0)
    (x := { x with r0 := addr b, r1 := -BitVec.ofNat 32 n, r2 := 0 }) hl n (Nat.zero_add n)
    ⟨rfl, rfl, rfl⟩
  rw [withRows_rows] at h₂
  simp only [Nat.zero_le, if_true] at h₂
  have h₃ := start_runs (hl.withRows (a := fun k => averaged (rows mem b k))) x₂ (.inr rfl)
  obtain ⟨x₄, h₄⟩ := outer_runs (a := fun k => averaged (rows mem b k)) (i := 0)
    (x := { x₂ with r0 := addr b, r1 := -BitVec.ofNat 32 n, r2 := 0 }) hl n (Nat.zero_add n)
    hsmall ⟨rfl, rfl, rfl⟩
  obtain ⟨x₅, h₅⟩ := median_runs (a := result mem b n) hl hodd x₄
  exact ⟨x₅, h₁.trans (h₂.trans (h₃.trans (h₄.trans h₅)))⟩

/-! ## Students -/

structure Student where
  sid : BitVec 32
  grade0 : BitVec 32
  grade1 : BitVec 32
  grade2 : BitVec 32
  grade3 : BitVec 32
  average : BitVec 32

/-- The sum wraps around, and the shift is arithmetic. -/
def Student.computedAverage (s : Student) : BitVec 32 :=
  (s.grade0 + s.grade1 + s.grade2 + s.grade3).sshiftRight 2

def Student.ofRow (r : ℕ → BitVec 32) : Student := ⟨r 0, r 1, r 2, r 3, r 4, r 5⟩

/-- The `n` records from the word `b` on. -/
def students (mem : Memory memSize) (b n : ℕ) : List Student :=
  (List.range n).map fun i => .ofRow (rows (word mem) b i)

/-- What the program makes of `mem`. -/
structure Graded (mem mem' : Memory memSize) (b n : ℕ) : Prop where
  averages : ∀ s ∈ students mem' b n, s.average = s.computedAverage
  perm : (students mem' b n).Perm
    ((students mem b n).map fun s => { s with average := s.computedAverage })
  sorted : (students mem' b n).Pairwise fun s t => s.average.toInt ≤ t.average.toInt
  median : (students mem' b n)[n / 2]?.map Student.sid = some (word mem' mWord)
  others : ∀ k < memSize / 4, ¬(b ≤ k ∧ k < b + 6 * n) → k ≠ mWord → word mem' k = word mem k

theorem ofRow_averaged (r : ℕ → BitVec 32) :
    Student.ofRow (averaged r) =
      { Student.ofRow r with average := (Student.ofRow r).computedAverage } := by
  have hsum : r 4 + (r 3 + (r 2 + r 1)) = r 1 + r 2 + r 3 + r 4 := by ac_rfl
  unfold averaged
  rw [hsum]
  rfl

theorem students_eq {mem' : Memory memSize} {a : ℕ → ℕ → BitVec 32}
    (h : ∀ i < n, ∀ f < 6, word mem' (b + 6 * i + f) = a i f) :
    students mem' b n = ((List.range n).map a).map Student.ofRow := by
  unfold students
  rw [List.map_map]
  refine List.map_congr_left fun i hi => ?_
  have hw := h i (List.mem_range.mp hi)
  unfold Student.ofRow rows
  rw [hw 0 (by decide), hw 1 (by decide), hw 2 (by decide), hw 3 (by decide), hw 4 (by decide),
    hw 5 (by decide)]
  rfl

theorem graded_of_word {m m' : Memory memSize} (hl : Layout (word m) b n) (hodd : n % 2 = 1)
    (h : word m' = Function.update (withRows (word m) b n (result (word m) b n)) mWord
      (result (word m) b n (n / 2) 0)) : Graded m m' b n := by
  have hglobals := hl.globals
  unfold nWord sWord at hglobals
  have hrow : ∀ i < n, ∀ f < 6, word m' (b + 6 * i + f) = result (word m) b n i f := by
    intro i hi f hf
    rw [h, Function.update_of_ne (by unfold mWord; omega), rows_withRows hi hf]
  have hstudents := students_eq hrow
  have hbefore : (students m b n).map (fun s => { s with average := s.computedAverage }) =
      ((List.range n).map fun k => averaged (rows (word m) b k)).map Student.ofRow := by
    unfold students
    rw [List.map_map, List.map_map]
    exact List.map_congr_left fun k _ => (ofRow_averaged _).symm
  have hr : Rearranges 0 n (fun k => averaged (rows (word m) b k)) (result (word m) b n) :=
    exchangeSort_rearranges _ _ _
  have hperm : (students m' b n).Perm
      ((students m b n).map fun s => { s with average := s.computedAverage }) := by
    rw [hstudents, hbefore]
    exact hr.perm.map _
  refine ⟨fun s hs => ?_, hperm, ?_, ?_, fun k hk hout hm => ?_⟩
  · obtain ⟨t, -, rfl⟩ := List.mem_map.mp (hperm.mem_iff.mp hs)
    rfl
  · rw [hstudents, List.pairwise_map]
    exact exchangeSort_sorted key n _
  · have hhalf : n / 2 < n := by omega
    rw [hstudents, List.getElem?_map, List.getElem?_map, List.getElem?_range hhalf, h,
      Function.update_self]
    rfl
  · rw [h, Function.update_of_ne hm, withRows_of_not hout]

/-! ## The program in the simulator -/

variable {W : Type}

/-- **The program is correct** for any list of an odd number of students. -/
theorem grades_correct (ext : Externals memSize W) {m : Machine memSize W} (hpc : m.pc = 0x1000)
    (hcode : Loaded grades m.mem) (hl : Layout (word m.mem) b n) (hodd : n % 2 = 1) :
    ∃ m', Switch.Compute ext m m' ∧ Graded m.mem m'.mem b n := by
  obtain ⟨x', hruns⟩ := grades_runs hl hodd (Registers.ofRegs m.reg)
  have hcore : m.core = ⟨0x1000, .ofRegs m.reg, word m.mem⟩ := by
    unfold Machine.core
    rw [hpc]
    rfl
  rw [← hcore] at hruns
  obtain ⟨m', hcompute, hm'⟩ := hruns.compute ext hcode rfl
  exact ⟨m', hcompute, graded_of_word hl hodd (congrArg Core.mem hm')⟩

/-- The records of the file. -/
def fiveStudents : List (BitVec 32) :=
  [1110, 90, 96, 88, 90, 0, 1111, 90, 86, 65, 70, 0, 1112, 90, 97, 97, 97, 0,
    1113, 42, 42, 36, 64, 0, 1114, 60, 50, 80, 60, 0]

/-- The machine with the program and the data of the file. -/
def classOfFive : Machine memSize Unit :=
  { Machine.initial () with
    pc := 0x1000
    mem := grades.image fun k =>
      if k = nWord then 5
      else if k = sWord then addr 0xc00
      else if k < 0xc00 then 0
      else fiveStudents.getD (k - 0xc00) 0 }

theorem grades_correct_five : ∃ m', Switch.Compute noCalls classOfFive m' ∧
    Graded classOfFive.mem m'.mem 0xc00 5 :=
  grades_correct noCalls rfl (by decide +kernel)
    ⟨by decide +kernel, by decide +kernel, by decide, by decide, by decide⟩ (by decide)

end IntroSystems.SM213.Grades
