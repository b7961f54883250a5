import IntroSystems.Lib.ExchangeSort
import IntroSystems.SM213.Assembled

/-!
# The program for student grades

`q3.s` of assignment 6: averages, an exchange sort by average, and the median. A record has six
words: the student's number, four grades, and their average.

* `grades`: the code, with the labels resolved.
* `rows`, `withRows`: memory with the records as rows.
* `average_runs`, `compare_runs`, `swap_runs`, `median_runs`: the blocks between the labels.
-/

set_option autoImplicit false

namespace IntroSystems.SM213.Grades

open Reg

/-! ## The code -/

/-- The globals. -/
def nWord : ℕ := 0x2000 / 4
def mWord : ℕ := 0x2004 / 4
def sWord : ℕ := 0x2008 / 4

def L0 : ℕ := 0x101a
def L1 : ℕ := 0x1022
def L2 : ℕ := 0x1044
def L3 : ℕ := 0x105e
def L4 : ℕ := 0x1068
def L5 : ℕ := 0x10c4
def L6 : ℕ := 0x10c8
def L7 : ℕ := 0x10cc

/-- The start of the averages and of the sort. -/
def start : List Ins :=
  [.ldi (addr sWord) r0, .ld 0 r0 r0, .ldi (addr nWord) r1, .ld 0 r1 r1, .not r1, .inc r1,
    .ldi 0 r2]

/-- `x = &s[i]`, with the help of `y`. -/
def element (i x y : Reg) : List Ins :=
  [.mov i x, .mov i y, .shl 4 x, .shl 3 y, .add y x, .add r0 x]

/-- One word of `s[i]` and of `s[j]`. -/
def swapWord (f : Fin 16) : List Ins := [.ld f r4 r6, .ld f r5 r7, .st r6 f r5, .st r7 f r4]

def grades : Program where
  code :=
    [(0x1000, start),
      (L0, [.mov r2 r3, .add r1 r3, .beq r3 L2, .br L1]),
      (L1, element r2 r3 r4 ++
        [.ld 1 r3 r4, .ld 2 r3 r5, .add r5 r4, .ld 3 r3 r5, .add r5 r4, .ld 4 r3 r5, .add r5 r4,
          .shr 2 r4, .st r4 5 r3, .inc r2, .br L0]),
      (L2, start),
      (L3, [.mov r2 r3, .add r1 r3, .beq r3 L7, .mov r2 r3, .inc r3]),
      (L4, [.mov r3 r4, .add r1 r4, .beq r4 L6] ++ element r2 r4 r5 ++ element r3 r5 r6 ++
        [.ld 5 r4 r6, .ld 5 r5 r7, .not r6, .inc r6, .add r7 r6, .bgt r6 L5, .beq r6 L5] ++
        swapWord 0 ++ swapWord 1 ++ swapWord 2 ++ swapWord 3 ++ swapWord 4 ++ swapWord 5),
      (L5, [.inc r3, .br L4]),
      (L6, [.inc r2, .br L3]),
      (L7, [.ldi (addr sWord) r0, .ld 0 r0 r0, .ldi (addr nWord) r1, .ld 0 r1 r1, .shr 1 r1] ++
        element r1 r2 r3 ++ [.ld 0 r2 r3, .ldi (addr mWord) r4, .st r3 0 r4, .halt])]
  lo := 0x1000
  hi := 0x10f6
  hi_le := by decide
  fits := by decide

/-! ## Records -/

/-- The words of the records from the word `b` on. -/
def rows (mem : ℕ → BitVec 32) (b : ℕ) : ℕ → ℕ → BitVec 32 := fun i f => mem (b + 6 * i + f)

/-- Memory with `n` records from the word `b` on. -/
def withRows (mem : ℕ → BitVec 32) (b n : ℕ) (a : ℕ → ℕ → BitVec 32) : ℕ → BitVec 32 := fun k =>
  if b ≤ k ∧ k < b + 6 * n then a ((k - b) / 6) ((k - b) % 6) else mem k

/-- A record with its average. -/
def averaged (r : ℕ → BitVec 32) : ℕ → BitVec 32 :=
  Function.update r 5 ((r 4 + (r 3 + (r 2 + r 1))).sshiftRight 2)

section Rows

variable {mem : ℕ → BitVec 32} {a a' : ℕ → ℕ → BitVec 32} {b n i f k : ℕ}

theorem rows_withRows (hi : i < n) (hf : f < 6) : withRows mem b n a (b + 6 * i + f) = a i f := by
  unfold withRows
  rw [if_pos (by omega), show (b + 6 * i + f - b) / 6 = i by omega,
    show (b + 6 * i + f - b) % 6 = f by omega]

theorem withRows_of_not (hk : ¬(b ≤ k ∧ k < b + 6 * n)) : withRows mem b n a k = mem k := if_neg hk

theorem withRows_congr (h : ∀ i < n, ∀ f < 6, a i f = a' i f) :
    withRows mem b n a = withRows mem b n a' := by
  funext k
  unfold withRows
  split
  case isTrue hk => exact h _ (by omega) _ (Nat.mod_lt _ (by decide))
  case isFalse => rfl

theorem withRows_rows (mem : ℕ → BitVec 32) (b n : ℕ) : withRows mem b n (rows mem b) = mem := by
  funext k
  unfold withRows rows
  split
  case isTrue hk =>
    congr 1
    omega
  case isFalse => rfl

/-- **A store to a record.** -/
theorem withRows_update (hi : i < n) (hf : f < 6) (v : BitVec 32) :
    Function.update (withRows mem b n a) (b + 6 * i + f) v =
      withRows mem b n (Function.update a i (Function.update (a i) f v)) := by
  funext k
  by_cases hk : k = b + 6 * i + f
  · rw [hk, Function.update_self, rows_withRows hi hf, Function.update_self, Function.update_self]
  · rw [Function.update_of_ne hk]
    unfold withRows
    split
    case isTrue hin =>
      by_cases hrow : (k - b) / 6 = i
      · rw [hrow, Function.update_self, Function.update_of_ne (by omega)]
      · rw [Function.update_of_ne hrow]
    case isFalse => rfl

theorem update_row (v : BitVec 32) (k g : ℕ) :
    Function.update a i (Function.update (a i) f v) k g = if k = i ∧ g = f then v else a k g := by
  by_cases hk : k = i
  · subst hk
    rw [Function.update_self, Function.update_apply]
    simp
  · rw [Function.update_of_ne hk, if_neg fun h => hk h.1]

end Rows

/-! ## Arithmetic of the registers -/

theorem element_addr (b i : ℕ) :
    addr b + (BitVec.ofNat 32 i <<< 3 + BitVec.ofNat 32 i <<< 4) = addr (b + 6 * i) := by
  apply BitVec.eq_of_toNat_eq
  unfold addr
  simp only [BitVec.toNat_add, BitVec.toNat_shiftLeft, BitVec.toNat_ofNat, Nat.shiftLeft_eq]
  omega

/-- Small enough for a difference. -/
def Small (x : BitVec 32) : Prop := -2 ^ 29 ≤ x.toInt ∧ x.toInt < 2 ^ 29

theorem small_sshiftRight (x : BitVec 32) : Small (x.sshiftRight 2) := by
  unfold Small
  rw [BitVec.toInt_sshiftRight, Int.shiftRight_eq_div_pow]
  have hlo := BitVec.le_toInt x
  have hhi := BitVec.toInt_lt (x := x)
  constructor <;> omega

theorem toInt_sub {x y : BitVec 32} (hx : Small x) (hy : Small y) :
    (y + -x).toInt = y.toInt - x.toInt := by
  obtain ⟨hx₁, hx₂⟩ := hx
  obtain ⟨hy₁, hy₂⟩ := hy
  rw [← BitVec.sub_eq_add_neg, BitVec.toInt_sub]
  apply Int.bmod_eq_of_le <;> omega

theorem half {n : ℕ} (hn : n < 2 ^ 31) :
    (BitVec.ofNat 32 n).sshiftRight 1 = BitVec.ofNat 32 (n / 2) := by
  apply BitVec.eq_of_toInt_eq
  rw [BitVec.toInt_sshiftRight, Counter.toInt_ofNat hn, Counter.toInt_ofNat (by omega), Int.shiftRight_eq_div_pow]
  omega

/-! ## Blocks -/

variable {mem : ℕ → BitVec 32} {a : ℕ → ℕ → BitVec 32} {b n i j : ℕ}

/-- The globals and the records: they are in memory, apart from each other and from the code. -/
structure Layout (mem : ℕ → BitVec 32) (b n : ℕ) : Prop where
  base : mem sWord = addr b
  count : mem nWord = BitVec.ofNat 32 n
  inside : b + 6 * n ≤ memSize / 4
  code : b + 6 * n ≤ 0x1000 / 4 ∨ 0x10f6 ≤ 4 * b
  globals : b + 6 * n ≤ nWord ∨ sWord < b

namespace Layout

theorem withRows (hl : Layout mem b n) : Layout (withRows mem b n a) b n where
  base := by
    have := hl.globals
    unfold nWord sWord at this
    rw [withRows_of_not (by unfold sWord; omega), hl.base]
  count := by
    have := hl.globals
    unfold nWord sWord at this
    rw [withRows_of_not (by unfold nWord; omega), hl.count]
  inside := hl.inside
  code := hl.code
  globals := hl.globals

theorem lt (hl : Layout mem b n) (hi : i < n) {f : ℕ} (hf : f < 6) :
    b + 6 * i + f < memSize / 4 := by
  have := hl.inside
  omega

theorem writable (hl : Layout mem b n) (hi : i < n) {f : ℕ} (hf : f < 6) :
    grades.Writable (b + 6 * i + f) := by
  have := hl.code
  change 4 * (b + 6 * i + f) + 4 ≤ 0x1000 ∨ 0x10f6 ≤ 4 * (b + 6 * i + f)
  omega

theorem n_le (hl : Layout mem b n) : n < 2 ^ 31 := by
  have := hl.inside
  unfold memSize at this
  omega

end Layout

/-- The start of the averages and of the sort. -/
theorem start_runs (hl : Layout mem b n) (x : Registers) {pc : ℕ} (hpc : pc = 0x1000 ∨ pc = L2) :
    grades.Runs ⟨pc, x, mem⟩
      ⟨pc + 0x1a, { x with r0 := addr b, r1 := -BitVec.ofNat 32 n, r2 := 0 }, mem⟩ := by
  obtain ⟨r0, r1, r2, r3, r4, r5, r6, r7⟩ := x
  rw [← not_inc]
  rcases hpc with rfl | rfl
  all_goals
    refine .steps 1 ⟨_, ⟨addr sWord, r1, r2, r3, r4, r5, r6, r7⟩, mem⟩ rfl ?_
    refine .ld _ rfl rfl (by decide) hl.base rfl ?_
    refine .steps 1 ⟨_, ⟨addr b, addr nWord, r2, r3, r4, r5, r6, r7⟩, mem⟩ rfl ?_
    refine .ld _ rfl rfl (by decide) hl.count rfl ?_
    exact .steps 3 _ rfl (.refl _)

/-- What the loops keep in registers. -/
structure Index (b n i : ℕ) (x : Registers) : Prop where
  r0 : x.r0 = addr b
  r1 : x.r1 = -BitVec.ofNat 32 n
  r2 : x.r2 = BitVec.ofNat 32 i

/-- The test of the first loop. -/
theorem more_runs (mem : ℕ → BitVec 32) (hn : n < 2 ^ 31) (hi : i ≤ n) {x : Registers}
    (hx : Index b n i x) :
    ∃ x', Index b n i x' ∧ grades.Runs ⟨L0, x, mem⟩ ⟨if i = n then L2 else L1, x', mem⟩ := by
  obtain ⟨r0, r1, r2, r3, r4, r5, r6, r7⟩ := x
  obtain ⟨rfl, rfl, rfl⟩ := hx
  refine ⟨⟨addr b, -BitVec.ofNat 32 n, BitVec.ofNat 32 i,
    -BitVec.ofNat 32 n + BitVec.ofNat 32 i, r4, r5, r6, r7⟩, ⟨rfl, rfl, rfl⟩, ?_⟩
  have htest := neg_add_eq_zero hi (lt_trans hn (by decide))
  refine .steps 2 ⟨0x101e, _, _⟩ rfl ?_
  by_cases h : i = n
  · rw [if_pos h]
    exact .beq_taken rfl (htest.mpr h) (.refl _)
  · rw [if_neg h]
    exact .beq_next rfl (fun e => h (htest.mp e)) (.steps 1 _ rfl (.refl _))

/-- The average of one record. -/
theorem average_runs (hl : Layout mem b n) (hi : i < n) {x : Registers} (hx : Index b n i x) :
    ∃ x', Index b n (i + 1) x' ∧ grades.Runs ⟨L1, x, withRows mem b n a⟩
      ⟨L0, x', withRows mem b n (Function.update a i (averaged (a i)))⟩ := by
  obtain ⟨r0, r1, r2, r3, r4, r5, r6, r7⟩ := x
  obtain ⟨rfl, rfl, rfl⟩ := hx
  have hget : ∀ {f}, f < 6 → withRows mem b n a (b + 6 * i + f) = a i f := fun hf =>
    rows_withRows hi hf
  -- what changes from one instruction to the next
  let state (pc : ℕ) (r3 r4 r5 : BitVec 32) : Core :=
    ⟨pc, ⟨addr b, -BitVec.ofNat 32 n, BitVec.ofNat 32 i, r3, r4, r5, r6, r7⟩, withRows mem b n a⟩
  let sum := a i 4 + (a i 3 + (a i 2 + a i 1))
  have hstore : withRows mem b n (Function.update a i (averaged (a i))) =
      Function.update (withRows mem b n a) (b + 6 * i + 5) (sum.sshiftRight 2) :=
    (withRows_update hi (by decide) _).symm
  rw [hstore]
  refine ⟨⟨addr b, -BitVec.ofNat 32 n, BitVec.ofNat 32 i + 1, addr (b + 6 * i),
    sum.sshiftRight 2, a i 4, r6, r7⟩, ⟨rfl, rfl, ofNat_inc i⟩, ?_⟩
  refine .steps 6 (state 0x102e (addr b + (BitVec.ofNat 32 i <<< 3 + BitVec.ofNat 32 i <<< 4))
    (BitVec.ofNat 32 i <<< 3) r5) rfl ?_
  rw [element_addr]
  refine .ld (state 0x1030 (addr (b + 6 * i)) (a i 1) r5) rfl rfl (hl.lt hi (by decide))
    (hget (by decide)) rfl ?_
  refine .ld (state 0x1032 (addr (b + 6 * i)) (a i 1) (a i 2)) rfl rfl (hl.lt hi (by decide))
    (hget (by decide)) rfl ?_
  refine .steps 1 (state 0x1034 (addr (b + 6 * i)) (a i 2 + a i 1) (a i 2)) rfl ?_
  refine .ld (state 0x1036 (addr (b + 6 * i)) (a i 2 + a i 1) (a i 3)) rfl rfl
    (hl.lt hi (by decide)) (hget (by decide)) rfl ?_
  refine .steps 1 (state 0x1038 (addr (b + 6 * i)) (a i 3 + (a i 2 + a i 1)) (a i 3)) rfl ?_
  refine .ld (state 0x103a (addr (b + 6 * i)) (a i 3 + (a i 2 + a i 1)) (a i 4)) rfl rfl
    (hl.lt hi (by decide)) (hget (by decide)) rfl ?_
  refine .steps 2 (state 0x103e (addr (b + 6 * i)) (sum.sshiftRight 2) (a i 4)) rfl ?_
  refine .st _ rfl rfl (hl.lt hi (by decide)) (hl.writable hi (by decide)) rfl ?_
  exact .steps 2 _ rfl (.refl _)

/-- The key of the sort. -/
def key (r : ℕ → BitVec 32) : ℤ := (r 5).toInt

/-- The comparison of `s[i]` and `s[j]`. -/
theorem compare_runs (hl : Layout mem b n) (hij : i < j) (hj : j < n)
    (hsmall : ∀ k < n, Small (a k 5)) {x : Registers} (hx : Index b n i x)
    (h3 : x.r3 = BitVec.ofNat 32 j) :
    ∃ x', Index b n i x' ∧ x'.r3 = BitVec.ofNat 32 j ∧ x'.r4 = addr (b + 6 * i) ∧
      x'.r5 = addr (b + 6 * j) ∧ grades.Runs ⟨L4, x, withRows mem b n a⟩
        ⟨if key (a j) < key (a i) then 0x1094 else L5, x', withRows mem b n a⟩ := by
  obtain ⟨r0, r1, r2, r3, r4, r5, r6, r7⟩ := x
  obtain ⟨rfl, rfl, rfl⟩ := hx
  cases h3
  have hi : i < n := lt_trans hij hj
  have hmore : -BitVec.ofNat 32 n + BitVec.ofNat 32 j ≠ 0 := fun h =>
    absurd ((neg_add_eq_zero (le_of_lt hj) (lt_trans hl.n_le (by decide))).mp h) (ne_of_lt hj)
  let state (pc : ℕ) (r4 r5 r6 r7 : BitVec 32) : Core :=
    ⟨pc, ⟨addr b, -BitVec.ofNat 32 n, BitVec.ofNat 32 i, BitVec.ofNat 32 j, r4, r5, r6, r7⟩,
      withRows mem b n a⟩
  refine ⟨⟨addr b, -BitVec.ofNat 32 n, BitVec.ofNat 32 i, BitVec.ofNat 32 j, addr (b + 6 * i),
    addr (b + 6 * j), a j 5 + -a i 5, a j 5⟩, ⟨rfl, rfl, rfl⟩, rfl, rfl, rfl, ?_⟩
  refine .steps 2 (state 0x106c (-BitVec.ofNat 32 n + BitVec.ofNat 32 j) r5 r6 r7) rfl ?_
  refine .beq_next rfl hmore ?_
  refine .steps 6 (state 0x107a (addr b + (BitVec.ofNat 32 i <<< 3 + BitVec.ofNat 32 i <<< 4))
    (BitVec.ofNat 32 i <<< 3) r6 r7) rfl ?_
  rw [element_addr]
  refine .steps 6 (state 0x1086 (addr (b + 6 * i))
    (addr b + (BitVec.ofNat 32 j <<< 3 + BitVec.ofNat 32 j <<< 4)) (BitVec.ofNat 32 j <<< 3) r7)
    rfl ?_
  rw [element_addr]
  refine .ld (state 0x1088 (addr (b + 6 * i)) (addr (b + 6 * j)) (a i 5) r7) rfl rfl
    (hl.lt hi (by decide)) (rows_withRows hi (by decide)) rfl ?_
  refine .ld (state 0x108a (addr (b + 6 * i)) (addr (b + 6 * j)) (a i 5) (a j 5)) rfl rfl
    (hl.lt hj (by decide)) (rows_withRows hj (by decide)) rfl ?_
  refine .steps 3 (state 0x1090 (addr (b + 6 * i)) (addr (b + 6 * j)) (a j 5 + (~~~a i 5 + 1))
    (a j 5)) rfl ?_
  rw [not_inc]
  have hdiff : (a j 5 + -a i 5).toInt = key (a j) - key (a i) :=
    toInt_sub (hsmall i hi) (hsmall j hj)
  rcases lt_trichotomy (key (a j)) (key (a i)) with h | h | h
  · have hpos : ¬0 < (a j 5 + -a i 5).toInt := by omega
    have hne : a j 5 + -a i 5 ≠ 0 := fun e => by
      rw [e] at hdiff
      exact absurd hdiff (by simp; omega)
    rw [if_pos h]
    exact .bgt_next rfl hpos (.beq_next rfl hne (.refl _))
  · have hpos : ¬0 < (a j 5 + -a i 5).toInt := by omega
    have hzero : a j 5 + -a i 5 = 0 := BitVec.eq_of_toInt_eq (by rw [hdiff, h]; simp)
    rw [if_neg (by omega)]
    exact .bgt_next rfl hpos (.beq_taken rfl hzero (.refl _))
  · have hpos : 0 < (a j 5 + -a i 5).toInt := by omega
    rw [if_neg (by omega)]
    exact .bgt_taken rfl hpos (.refl _)

/-- The rows with the words below `f` of `s[i]` and `s[j]` exchanged. -/
def swapped (a : ℕ → ℕ → BitVec 32) (i j f : ℕ) : ℕ → ℕ → BitVec 32 := fun k g =>
  if g < f then a (Equiv.swap i j k) g else a k g

theorem ins_swap : ∀ f : Fin 6,
    grades.ins (0x1094 + 8 * f) = some (.ld (f.castLE (by decide)) r4 r6) ∧
      grades.ins (0x1094 + 8 * f + 2) = some (.ld (f.castLE (by decide)) r5 r7) ∧
      grades.ins (0x1094 + 8 * f + 2 + 2) = some (.st r6 (f.castLE (by decide)) r5) ∧
      grades.ins (0x1094 + 8 * f + 2 + 2 + 2) = some (.st r7 (f.castLE (by decide)) r4) := by
  decide

theorem withRows_swapped (hi : i < n) (hj : j < n) {f : ℕ} (hf : f < 6) :
    Function.update (Function.update (withRows mem b n (swapped a i j f)) (b + 6 * j + f) (a i f))
        (b + 6 * i + f) (a j f) =
      withRows mem b n (swapped a i j (f + 1)) := by
  rw [withRows_update hj hf, withRows_update hi hf]
  apply withRows_congr
  intro k hk g hg
  rw [update_row, update_row]
  unfold swapped
  by_cases hgf : g = f
  · subst hgf
    rw [if_pos (Nat.lt_succ_self g), if_neg (lt_irrefl g)]
    by_cases hki : k = i
    · rw [if_pos ⟨hki, rfl⟩, hki, Equiv.swap_apply_left]
    · rw [if_neg fun h => hki h.1]
      by_cases hkj : k = j
      · rw [if_pos ⟨hkj, rfl⟩, hkj, Equiv.swap_apply_right]
      · rw [if_neg fun h => hkj h.1, Equiv.swap_apply_of_ne_of_ne hki hkj]
  · have hlt : g < f + 1 ↔ g < f := by omega
    rw [if_neg fun h => hgf h.2, if_neg fun h => hgf h.2]
    simp only [hlt]

theorem swapWord_runs (hl : Layout mem b n) (hij : i < j) (hj : j < n) (f : Fin 6)
    (r0 r1 r2 r3 r6 r7 : BitVec 32) :
    grades.Runs
      ⟨0x1094 + 8 * f, ⟨r0, r1, r2, r3, addr (b + 6 * i), addr (b + 6 * j), r6, r7⟩,
        withRows mem b n (swapped a i j f)⟩
      ⟨0x1094 + 8 * (f + 1),
        ⟨r0, r1, r2, r3, addr (b + 6 * i), addr (b + 6 * j), a i f, a j f⟩,
        withRows mem b n (swapped a i j (f + 1))⟩ := by
  have hi : i < n := lt_trans hij hj
  obtain ⟨h₁, h₂, h₃, h₄⟩ := ins_swap f
  have hvi : withRows mem b n (swapped a i j f) (b + 6 * i + f) = a i f := by
    rw [rows_withRows hi f.isLt]
    exact if_neg (lt_irrefl _)
  have hvj : withRows mem b n (swapped a i j f) (b + 6 * j + f) = a j f := by
    rw [rows_withRows hj f.isLt]
    exact if_neg (lt_irrefl _)
  refine .ld _ h₁ rfl (hl.lt hi f.isLt) hvi rfl ?_
  refine .ld _ h₂ rfl (hl.lt hj f.isLt) hvj rfl ?_
  refine .st _ h₃ rfl (hl.lt hj f.isLt) (hl.writable hj f.isLt) rfl ?_
  refine .st _ h₄ rfl (hl.lt hi f.isLt) (hl.writable hi f.isLt) rfl ?_
  rw [← withRows_swapped hi hj f.isLt]
  exact .refl _

/-- **The exchange of `s[i]` and `s[j]`.** -/
theorem swap_runs (hl : Layout mem b n) (hij : i < j) (hj : j < n) {x : Registers}
    (hx : Index b n i x) (h3 : x.r3 = BitVec.ofNat 32 j) (h4 : x.r4 = addr (b + 6 * i))
    (h5 : x.r5 = addr (b + 6 * j)) :
    ∃ x', Index b n i x' ∧ x'.r3 = BitVec.ofNat 32 j ∧ grades.Runs ⟨0x1094, x, withRows mem b n a⟩
      ⟨L5, x', withRows mem b n (a ∘ Equiv.swap i j)⟩ := by
  obtain ⟨r0, r1, r2, r3, r4, r5, r6, r7⟩ := x
  obtain ⟨rfl, rfl, rfl⟩ := hx
  cases h3
  cases h4
  cases h5
  -- the first `f` words
  have hruns : ∀ f ≤ 6, ∃ x6 x7, grades.Runs
      ⟨0x1094, ⟨addr b, -BitVec.ofNat 32 n, BitVec.ofNat 32 i, BitVec.ofNat 32 j,
        addr (b + 6 * i), addr (b + 6 * j), r6, r7⟩, withRows mem b n a⟩
      ⟨0x1094 + 8 * f, ⟨addr b, -BitVec.ofNat 32 n, BitVec.ofNat 32 i, BitVec.ofNat 32 j,
        addr (b + 6 * i), addr (b + 6 * j), x6, x7⟩, withRows mem b n (swapped a i j f)⟩ := by
    intro f hf
    induction f with
    | zero => exact ⟨r6, r7, .refl _⟩
    | succ f ih =>
      obtain ⟨x6, x7, h⟩ := ih (by omega)
      exact ⟨_, _, h.trans (swapWord_runs hl hij hj ⟨f, hf⟩ _ _ _ _ x6 x7)⟩
  obtain ⟨x6, x7, h⟩ := hruns 6 (le_refl 6)
  have hrows : withRows mem b n (swapped a i j 6) = withRows mem b n (a ∘ Equiv.swap i j) :=
    withRows_congr fun k _ g hg => if_pos hg
  rw [hrows] at h
  exact ⟨_, ⟨rfl, rfl, rfl⟩, rfl, h⟩

/-- The median. -/
theorem median_runs (hl : Layout mem b n) (hodd : n % 2 = 1) (x : Registers) :
    ∃ x', grades.Runs ⟨L7, x, withRows mem b n a⟩
      ⟨0x10f4, x', Function.update (withRows mem b n a) mWord (a (n / 2) 0)⟩ := by
  obtain ⟨r0, r1, r2, r3, r4, r5, r6, r7⟩ := x
  have hhalf : n / 2 < n := by omega
  have hl' : Layout (withRows mem b n a) b n := hl.withRows
  let state (pc : ℕ) (r1 r2 r3 r4 : BitVec 32) : Core :=
    ⟨pc, ⟨addr b, r1, r2, r3, r4, r5, r6, r7⟩, withRows mem b n a⟩
  refine ⟨⟨addr b, BitVec.ofNat 32 (n / 2), addr (b + 6 * (n / 2)), a (n / 2) 0, addr mWord, r5, r6,
    r7⟩, ?_⟩
  refine .steps 1 ⟨0x10d2, ⟨addr sWord, r1, r2, r3, r4, r5, r6, r7⟩, withRows mem b n a⟩ rfl ?_
  refine .ld (state 0x10d4 r1 r2 r3 r4) rfl rfl (by decide) hl'.base rfl ?_
  refine .steps 1 (state 0x10da (addr nWord) r2 r3 r4) rfl ?_
  refine .ld (state 0x10dc (BitVec.ofNat 32 n) r2 r3 r4) rfl rfl (by decide) hl'.count rfl ?_
  refine .steps 1 (state 0x10de ((BitVec.ofNat 32 n).sshiftRight 1) r2 r3 r4) rfl ?_
  rw [half hl.n_le]
  refine .steps 6 (state 0x10ea (BitVec.ofNat 32 (n / 2))
    (addr b + (BitVec.ofNat 32 (n / 2) <<< 3 + BitVec.ofNat 32 (n / 2) <<< 4))
    (BitVec.ofNat 32 (n / 2) <<< 3) r4) rfl ?_
  rw [element_addr]
  refine .ld (state 0x10ec (BitVec.ofNat 32 (n / 2)) (addr (b + 6 * (n / 2))) (a (n / 2) 0) r4) rfl
    rfl (hl.lt hhalf (by decide)) (rows_withRows hhalf (by decide)) rfl ?_
  refine .steps 1 (state 0x10f2 (BitVec.ofNat 32 (n / 2)) (addr (b + 6 * (n / 2))) (a (n / 2) 0)
    (addr mWord)) rfl ?_
  exact .st _ rfl rfl (by decide) (by decide) rfl (.refl _)

end IntroSystems.SM213.Grades
