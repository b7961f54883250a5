import IntroSystems.Disk.Model
import Mathlib.Algebra.Order.Group.Unbundled.Int

/-!
# Completion times

What `tm_add` and `tm_compare` of `disk.c` make of a clock reading.

* `Timeval.Normal`, `Timeval.micros`: a normalised time, and the time that is denoted.
* `Representable`, `representable_iff`: the times that a normalised `struct timeval` can denote.
* `tmAdd_cases`: what the two branches do, with 64 bits. `addsTo_iff`: when the sum is right.
* **`times_iff`**: sums are normalised and compare as times exactly if none of them has a million
  microseconds and all are representable.
* **`tmCompare_complete`**: what the interrupt handler asks is answered correctly all the same.
-/

set_option autoImplicit false

namespace IntroSystems.Disk

/-- Less than a second in `tv_usec`. -/
def Timeval.Normal (tm : Timeval) : Prop := 0 ≤ tm.tv_usec.toInt ∧ tm.tv_usec.toInt < 1000000

/-- The time in microseconds. -/
def Timeval.micros (tm : Timeval) : ℤ := tm.tv_sec.toInt * 1000000 + tm.tv_usec.toInt

instance (tm : Timeval) : Decidable tm.Normal := inferInstanceAs (Decidable (_ ∧ _))

/-- The seconds fit in 64 bits. -/
def Representable (t : ℤ) : Prop := -2 ^ 63 * 1000000 ≤ t ∧ t < 2 ^ 63 * 1000000

instance (t : ℤ) : Decidable (Representable t) := inferInstanceAs (Decidable (_ ∧ _))

/-- `tm_add` gives a normalised time, which is `usec` later. -/
def AddsTo (tm : Timeval) (usec : BitVec 32) : Prop :=
  (tmAdd tm usec).Normal ∧ (tmAdd tm usec).micros = tm.micros + usec.toInt

/-- `tm_compare` compares the times. -/
def ComparesTimes (a b : Timeval) : Prop :=
  (tmCompare a b < 0 ↔ a.micros < b.micros) ∧ (tmCompare a b = 0 ↔ a.micros = b.micros) ∧
    (0 < tmCompare a b ↔ b.micros < a.micros)

/-- The sum is not exactly a full second, and can be denoted. -/
def Carries (tm : Timeval) (usec : BitVec 32) : Prop :=
  tm.tv_usec.toInt + usec.toInt ≠ 1000000 ∧ Representable (tm.micros + usec.toInt)

instance (tm : Timeval) (usec : BitVec 32) : Decidable (Carries tm usec) :=
  inferInstanceAs (Decidable (_ ∧ _))

variable {a b tm : Timeval} {u v usec : BitVec 32}

/-! ## Words of 64 bits -/

theorem toInt_bounds (x : BitVec 64) : -2 ^ 63 ≤ x.toInt ∧ x.toInt < 2 ^ 63 :=
  ⟨x.le_toInt, x.toInt_lt⟩

theorem toInt_add_of_fits {x y : BitVec 64}
    (h : -2 ^ 63 ≤ x.toInt + y.toInt ∧ x.toInt + y.toInt < 2 ^ 63) :
    (x + y).toInt = x.toInt + y.toInt := by
  rw [BitVec.toInt_add]
  apply Int.bmod_eq_of_le <;> omega

theorem toInt_sub_of_fits {x y : BitVec 64}
    (h : -2 ^ 63 ≤ x.toInt - y.toInt ∧ x.toInt - y.toInt < 2 ^ 63) :
    (x - y).toInt = x.toInt - y.toInt := by
  rw [BitVec.toInt_sub]
  apply Int.bmod_eq_of_le <;> omega

theorem toInt_million : (1000 * 1000 : BitVec 64).toInt = 1000000 := by decide

/-- The seconds wrap around after the last. -/
theorem toInt_inc (x : BitVec 64) : (x + 1).toInt = x.toInt + 1 ∧ x.toInt + 1 < 2 ^ 63 ∨
    (x + 1).toInt = -2 ^ 63 ∧ x.toInt + 1 = 2 ^ 63 := by
  have hx := toInt_bounds x
  have hone : (1 : BitVec 64).toInt = 1 := by decide
  by_cases h : x.toInt + 1 < 2 ^ 63
  · refine .inl ⟨?_, h⟩
    rw [toInt_add_of_fits (by omega), hone]
  · refine .inr ⟨?_, by omega⟩
    rw [BitVec.toInt_add, hone, Int.bmod_def]
    omega

theorem toInt_dec (x : BitVec 64) : (x - 1).toInt = x.toInt - 1 ∧ -2 ^ 63 ≤ x.toInt - 1 ∨
    (x - 1).toInt = 2 ^ 63 - 1 ∧ x.toInt = -2 ^ 63 := by
  have hx := toInt_bounds x
  have hone : (1 : BitVec 64).toInt = 1 := by decide
  by_cases h : -2 ^ 63 ≤ x.toInt - 1
  · refine .inl ⟨?_, h⟩
    rw [toInt_sub_of_fits (by omega), hone]
  · refine .inr ⟨?_, by omega⟩
    rw [BitVec.toInt_sub, hone, Int.bmod_def]
    omega

/-- **The representable times** are those that a normalised `struct timeval` denotes. -/
theorem representable_iff (t : ℤ) : Representable t ↔ ∃ tm : Timeval, tm.Normal ∧ tm.micros = t := by
  constructor
  · rintro ⟨hlo, hhi⟩
    have hsec : (BitVec.ofInt 64 (t / 1000000)).toInt = t / 1000000 := by
      rw [BitVec.toInt_ofInt]
      apply Int.bmod_eq_of_le <;> omega
    have husec : (BitVec.ofInt 64 (t % 1000000)).toInt = t % 1000000 := by
      rw [BitVec.toInt_ofInt]
      apply Int.bmod_eq_of_le <;> omega
    refine ⟨⟨BitVec.ofInt 64 (t / 1000000), BitVec.ofInt 64 (t % 1000000)⟩, ?_, ?_⟩
    · unfold Timeval.Normal
      rw [husec]
      omega
    · unfold Timeval.micros
      rw [hsec, husec]
      omega
  · rintro ⟨tm, ⟨h0, h1⟩, rfl⟩
    have hsec := toInt_bounds tm.tv_sec
    unfold Representable Timeval.micros
    omega

/-! ## Sums -/

/-- **What `tm_add` does** to a normalised time. -/
theorem tmAdd_cases (htm : tm.Normal) (husec : |usec.toInt| < 1000000) :
    (1000000 < tm.tv_usec.toInt + usec.toInt ∧ (tmAdd tm usec).tv_sec = tm.tv_sec + 1 ∧
      (tmAdd tm usec).tv_usec.toInt = tm.tv_usec.toInt + usec.toInt - 1000000) ∨
    (tm.tv_usec.toInt + usec.toInt < 0 ∧ (tmAdd tm usec).tv_sec = tm.tv_sec - 1 ∧
      (tmAdd tm usec).tv_usec.toInt = tm.tv_usec.toInt + usec.toInt + 1000000) ∨
    (0 ≤ tm.tv_usec.toInt + usec.toInt ∧ tm.tv_usec.toInt + usec.toInt ≤ 1000000 ∧
      (tmAdd tm usec).tv_sec = tm.tv_sec ∧
      (tmAdd tm usec).tv_usec.toInt = tm.tv_usec.toInt + usec.toInt) := by
  obtain ⟨h0, h1⟩ := htm
  obtain ⟨hlo, hhi⟩ := abs_lt.mp husec
  have hext : (usec.signExtend 64).toInt = usec.toInt :=
    BitVec.toInt_signExtend_of_le (by decide)
  have hsum : (tm.tv_usec + usec.signExtend 64).toInt = tm.tv_usec.toInt + usec.toInt := by
    rw [toInt_add_of_fits (by omega), hext]
  unfold tmAdd
  dsimp only
  split_ifs with hcarry hborrow
  · refine .inl ⟨by omega, rfl, ?_⟩
    rw [toInt_sub_of_fits (by rw [toInt_million]; omega), toInt_million, hsum]
  · refine .inr (.inl ⟨by omega, rfl, ?_⟩)
    rw [toInt_add_of_fits (by rw [toInt_million]; omega), toInt_million, hsum]
  · exact .inr (.inr ⟨by omega, by omega, rfl, hsum⟩)

/-- The time is right even where it is not normalised, if the seconds do not wrap around. -/
theorem micros_tmAdd_iff (htm : tm.Normal) (husec : |usec.toInt| < 1000000) :
    (tmAdd tm usec).micros = tm.micros + usec.toInt ↔ Representable (tm.micros + usec.toInt) ∨
      tm.tv_usec.toInt + usec.toInt = 1000000 := by
  have hsec := toInt_bounds tm.tv_sec
  obtain ⟨h0, h1⟩ := htm
  obtain ⟨hlo, hhi⟩ := abs_lt.mp husec
  unfold Representable Timeval.micros
  rcases tmAdd_cases ⟨h0, h1⟩ husec with ⟨hx, hs, hu⟩ | ⟨hx, hs, hu⟩ | ⟨hx, hx', hs, hu⟩
  · rw [hs, hu]
    rcases toInt_inc tm.tv_sec with ⟨h, hfit⟩ | ⟨h, hlast⟩ <;> rw [h] <;> omega
  · rw [hs, hu]
    rcases toInt_dec tm.tv_sec with ⟨h, hfit⟩ | ⟨h, hfirst⟩ <;> rw [h] <;> omega
  · rw [hs, hu]
    omega

/-- A sum of exactly a second is not carried. -/
theorem normal_tmAdd_iff (htm : tm.Normal) (husec : |usec.toInt| < 1000000) :
    (tmAdd tm usec).Normal ↔ tm.tv_usec.toInt + usec.toInt ≠ 1000000 := by
  obtain ⟨h0, h1⟩ := htm
  obtain ⟨hlo, hhi⟩ := abs_lt.mp husec
  unfold Timeval.Normal
  rcases tmAdd_cases ⟨h0, h1⟩ husec with ⟨hx, -, hu⟩ | ⟨hx, -, hu⟩ | ⟨hx, hx', -, hu⟩ <;> rw [hu] <;>
    omega

theorem addsTo_iff (htm : tm.Normal) (husec : |usec.toInt| < 1000000) :
    AddsTo tm usec ↔ Carries tm usec := by
  rw [AddsTo, normal_tmAdd_iff htm husec, micros_tmAdd_iff htm husec]
  unfold Carries
  tauto

/-! ## Comparisons -/

theorem tmCompare_cases (a b : Timeval) :
    tmCompare a b = -1 ∧ (a.tv_sec.toInt < b.tv_sec.toInt ∨
        a.tv_sec.toInt = b.tv_sec.toInt ∧ a.tv_usec.toInt < b.tv_usec.toInt) ∨
      tmCompare a b = 0 ∧ a.tv_sec.toInt = b.tv_sec.toInt ∧ a.tv_usec.toInt = b.tv_usec.toInt ∨
      tmCompare a b = 1 ∧ (b.tv_sec.toInt < a.tv_sec.toInt ∨
        a.tv_sec.toInt = b.tv_sec.toInt ∧ b.tv_usec.toInt < a.tv_usec.toInt) := by
  generalize hc : tmCompare a b = c
  unfold tmCompare at hc
  split_ifs at hc <;> omega

/-- **Normalised times compare as times.** -/
theorem tmCompare_normal (ha : a.Normal) (hb : b.Normal) : ComparesTimes a b := by
  obtain ⟨ha0, ha1⟩ := ha
  obtain ⟨hb0, hb1⟩ := hb
  have hcases := tmCompare_cases a b
  unfold ComparesTimes Timeval.micros
  omega

/-- **`tm_add` and `tm_compare` are right** for sums of clock readings, exactly if no sum comes to a
full second, and all can be denoted. -/
theorem times_iff (ha : a.Normal) (hb : b.Normal) (hu : |u.toInt| < 1000000)
    (hv : |v.toInt| < 1000000) :
    (AddsTo a u ∧ AddsTo b v ∧ ComparesTimes (tmAdd a u) (tmAdd b v)) ↔
      Carries a u ∧ Carries b v := by
  rw [addsTo_iff ha hu, addsTo_iff hb hv, ← and_assoc]
  refine and_iff_left_of_imp fun h => ?_
  exact tmCompare_normal ((normal_tmAdd_iff ha hu).mpr h.1.1) ((normal_tmAdd_iff hb hv).mpr h.2.1)

/-- Two reads, 20 ms before and 5 ms after a full second. -/
theorem times_iff_around :
    AddsTo ⟨3, 980001⟩ READ_LATENCY_USEC ∧ AddsTo ⟨4, 5000⟩ READ_LATENCY_USEC ∧
      ComparesTimes (tmAdd ⟨3, 980001⟩ READ_LATENCY_USEC) (tmAdd ⟨4, 5000⟩ READ_LATENCY_USEC) :=
  (times_iff (by decide) (by decide) (by decide) (by decide)).mpr (by decide)

/-- A read that is scheduled 20 ms before a full second completes at a time that is not normalised,
and that counts as before this second. -/
theorem times_full_second :
    ¬∀ (a b : Timeval) (u v : BitVec 32), a.Normal → b.Normal → |u.toInt| < 1000000 →
      |v.toInt| < 1000000 → AddsTo a u ∧ AddsTo b v ∧ ComparesTimes (tmAdd a u) (tmAdd b v) := by
  intro h
  obtain ⟨⟨⟨-, hlt⟩, -⟩, -⟩ := h ⟨3, 980000⟩ ⟨4, 0⟩ READ_LATENCY_USEC 0 (by decide) (by decide)
    (by decide) (by decide)
  exact absurd hlt (by decide)

/-- It is no more than a tie that comes out wrong: a sum against a normalised time. -/
theorem tmCompare_tmAdd_iff (ha : a.Normal) (hu : |u.toInt| < 1000000) (hb : b.Normal) :
    ComparesTimes (tmAdd a u) b ↔
      (a.tv_usec.toInt + u.toInt = 1000000 → (tmAdd a u).micros ≠ b.micros) := by
  by_cases hne : a.tv_usec.toInt + u.toInt = 1000000
  · rw [imp_iff_right hne]
    have husec : (tmAdd a u).tv_usec.toInt = 1000000 := by
      rcases tmAdd_cases ha hu with ⟨hx, -⟩ | ⟨hx, -⟩ | ⟨-, -, -, h⟩ <;> omega
    obtain ⟨hb0, hb1⟩ := hb
    have hcases := tmCompare_cases (tmAdd a u) b
    unfold ComparesTimes Timeval.micros
    omega
  · exact iff_of_true (tmCompare_normal ((normal_tmAdd_iff ha hu).mpr hne) hb)
      fun h => absurd h hne

/-- **The handler completes a read exactly from its time on**: whether `completeTime` has come is
answered correctly, also where it is not normalised. -/
theorem tmCompare_complete (ha : a.Normal) (hu : |u.toInt| < 1000000) (hb : b.Normal)
    (hfit : Representable (a.micros + u.toInt)) :
    tmCompare (tmAdd a u) b ≤ 0 ↔ a.micros + u.toInt ≤ b.micros := by
  rw [← (micros_tmAdd_iff ha hu).mpr (.inl hfit)]
  have hbound : 0 ≤ (tmAdd a u).tv_usec.toInt ∧ (tmAdd a u).tv_usec.toInt ≤ 1000000 := by
    obtain ⟨h0, h1⟩ := ha
    obtain ⟨hlo, hhi⟩ := abs_lt.mp hu
    rcases tmAdd_cases ⟨h0, h1⟩ hu with ⟨hx, -, h⟩ | ⟨hx, -, h⟩ | ⟨hx, hx', -, h⟩ <;> omega
  obtain ⟨hb0, hb1⟩ := hb
  have hcases := tmCompare_cases (tmAdd a u) b
  unfold Timeval.micros
  omega

end IntroSystems.Disk
