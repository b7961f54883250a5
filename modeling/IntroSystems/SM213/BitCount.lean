import IntroSystems.Lib.Loop
import IntroSystems.SM213.CMachine

/-!
# Counting bits

`q4b.c` of assignment 6.

* `count_step`: one turn of its inner loop, in which a bit is shifted out.
* `C.f`, `C.main`: the functions. **`C.f_eq`**: the loop of `f` ends, since doubling ends in zero,
  and has counted the bits. **`C.main_eq`**: what becomes of `y`, and what is printed.
-/

set_option autoImplicit false

namespace IntroSystems.SM213.BitCount

/-! ## Bits -/

theorem cpop_shiftLeft_one {w : ℕ} (x : BitVec (w + 1)) :
    x.msb.toNat + (x <<< 1).cpop.toNat = x.cpop.toNat := by
  have hshift : x <<< 1 = (x.setWidth w).concat false := by
    ext i hi
    cases i with
    | zero => simp
    | succ i => simp [BitVec.getLsbD_eq_getElem (show i < w + 1 by omega)]
  have hcons : x.cpop.toNat = x.msb.toNat + (x.setWidth w).cpop.toNat := by
    conv_lhs => rw [← BitVec.cons_msb_setWidth x, BitVec.toNat_cpop_cons]
  rw [hshift, BitVec.toNat_cpop_concat, hcons, Bool.toNat_false, Nat.zero_add]

/-- `n` of the C program. -/
def topBit : BitVec 32 := 0x80000000

theorem topBit_and (z : BitVec 32) : topBit &&& z ≠ 0 ↔ z.msb = true := by
  have htop : topBit = BitVec.twoPow 32 31 := by decide
  rw [htop, BitVec.twoPow_and, BitVec.msb_eq_getLsbD_last]
  cases z.getLsbD (32 - 1) <;> simp

/-- **One turn**: the count and the bits still to come. -/
theorem count_step (z j : BitVec 32) :
    (if topBit &&& z ≠ 0 then j + 1 else j) + (z <<< 1).cpop = j + z.cpop := by
  have hbits := cpop_shiftLeft_one z
  have hcpop : z.cpop = (if topBit &&& z ≠ 0 then 1 else 0) + (z <<< 1).cpop := by
    apply BitVec.eq_of_toNat_eq
    simp only [topBit_and]
    have hle := BitVec.toNat_cpop_le z
    rw [BitVec.toNat_add, ← hbits]
    cases z.msb <;> simp <;> omega
  rw [hcpop]
  split_ifs <;> ac_rfl

theorem shiftLeft_all (z : BitVec 32) : z <<< 32 = 0 := BitVec.shiftLeft_eq_zero (Nat.le_refl 32)

theorem count_zero (j : BitVec 32) : j + (0 : BitVec 32).cpop = j := by
  rw [show (0 : BitVec 32).cpop = 0 from BitVec.cpop_zero]
  exact BitVec.add_zero j

/-! ## The functions in C -/

namespace C

/-- The loop of `f`, for at most `fuel` tests of its condition. -/
def fLoop : ℕ → BitVec 32 → BitVec 32 → Option (BitVec 32)
  | 0, _, _ => none
  | fuel + 1, z, j =>
    if z = 0 then some j else fLoop fuel (z * 2) (if z &&& topBit ≠ 0 then j + 1 else j)

def f (fuel : ℕ) (z : BitVec 32) : Option (BitVec 32) := fLoop fuel z 0

/-- `y` in the end, and the numbers that are printed. -/
def main (fuel : ℕ) (x y : ℤ → BitVec 32) : Option ((ℤ → BitVec 32) × List ℤ) := do
  let y ← Loop.down (fun i y => do some (Function.update y (i - 1) (← f fuel (x (i - 1))))) 8 8 y
  let out ← Loop.up (fun i out => some (out ++ [(x i).toInt])) 0 8 []
  let out ← Loop.up (fun i out => some (out ++ [(y i).toInt])) 0 8 out
  some (y, out)

variable {fuel k : ℕ} {z j : BitVec 32}

theorem fLoop_eq (hz : z <<< k = 0) (hk : k < fuel) : fLoop fuel z j = some (j + z.cpop) := by
  induction k generalizing fuel z j with
  | zero =>
    obtain ⟨fuel, rfl⟩ := Nat.exists_eq_succ_of_ne_zero (Nat.ne_of_gt hk)
    rw [BitVec.shiftLeft_zero] at hz
    rw [fLoop, if_pos hz, hz, count_zero]
  | succ k ih =>
    obtain ⟨fuel, rfl⟩ := Nat.exists_eq_succ_of_ne_zero (Nat.ne_of_gt (Nat.lt_trans k.succ_pos hk))
    by_cases h0 : z = 0
    · rw [fLoop, if_pos h0, h0, count_zero]
    · have hz' : z <<< 1 <<< k = 0 := by rwa [← BitVec.shiftLeft_add, Nat.add_comm]
      rw [fLoop, if_neg h0, ← shiftLeft_one, ih hz' (Nat.lt_of_succ_lt_succ hk),
        BitVec.and_comm, count_step]

/-- **`f` returns the number of one bits.** -/
theorem f_eq (hfuel : 32 < fuel) (z : BitVec 32) : f fuel z = some z.cpop := by
  rw [f, fLoop_eq (shiftLeft_all z) hfuel]
  exact congrArg some (BitVec.zero_add _)

theorem prints_eq (g : ℤ → ℤ) (out : List ℤ) :
    Loop.up (fun i out => some (out ++ [g i])) 0 8 out =
      some (out ++ (List.range 8).map fun k : ℕ => g k) := by
  simp [Loop.up, List.range_succ]

/-- **`main` counts the bits of every word**, and prints the words and the counts. -/
theorem main_eq (hfuel : 32 < fuel) (x y : ℤ → BitVec 32) :
    ∃ ys, main fuel x y = some (ys, (List.range 8).map (fun k : ℕ => (x k).toInt) ++
        (List.range 8).map fun k : ℕ => (ys k).toInt) ∧
      ∀ i, 0 ≤ i → i < 8 → ys i = (x i).cpop := by
  obtain ⟨ys, hys, hcount⟩ := Loop.down_spec
    (fun i y => do some (Function.update y (i - 1) (← f fuel (x (i - 1)))))
    (fun j ys => ∀ i : ℤ, 8 - j ≤ i → i < 8 → ys i = (x i).cpop) (a := 8) (k := 8) (s := y)
    (fun j hj ys hys => by
      refine ⟨_, by rw [f_eq hfuel]; rfl, fun i hle hlt => ?_⟩
      by_cases hi : i = 8 - j - 1
      · rw [hi, Function.update_self]
      · rw [Function.update_of_ne hi]
        exact hys i (by omega) hlt)
    (fun i hle hlt => by omega)
  refine ⟨ys, ?_, fun i hle hlt => hcount i (by omega) hlt⟩
  unfold main
  rw [hys]
  simp only [Option.bind_eq_bind, Option.bind_some, prints_eq fun i => (x i).toInt,
    prints_eq fun i => (ys i).toInt, List.nil_append]

end C

end IntroSystems.SM213.BitCount
