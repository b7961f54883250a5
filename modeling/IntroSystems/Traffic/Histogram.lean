import Mathlib.Algebra.BigOperators.Group.Finset.Basic
import Mathlib.Algebra.BigOperators.Fin
import Mathlib.Data.Fintype.BigOperators
import Mathlib.Tactic.Abel

/-!
# What the two traffic programs share

* `Direction`, `oppositeEnd`, `MAX_OCCUPANCY`.
* `Histograms`: the ticker and the histograms. `increment`: `a[i]++`, undefined when `i` is out of
  range. `recordWaitingTime`, `recordEntry`: what an entering car records.
* **`recordEntry_eq_some`**: recording is defined for a waiting time that is not negative and a
  count within the histogram; **`Histograms.Balanced.recordEntry`**: it keeps the totals equal.
-/

set_option autoImplicit false

namespace IntroSystems.Traffic

inductive Direction
  | EAST
  | WEST
  deriving DecidableEq

instance : Fintype Direction := ⟨{.EAST, .WEST}, fun d => by cases d <;> decide⟩

/-- `oppositeEnd []`. -/
def oppositeEnd : Direction → Direction
  | .EAST => .WEST
  | .WEST => .EAST

theorem oppositeEnd_ne (g : Direction) : oppositeEnd g ≠ g := by cases g <;> decide

theorem eq_oppositeEnd {g d : Direction} (h : g ≠ d) : g = oppositeEnd d := by
  cases g <;> cases d <;> first | rfl | exact absurd rfl h

def MAX_OCCUPANCY : ℕ := 3

/-- Two eastbound cars and a westbound one. -/
def threeCars (c : Fin 3) : Direction := if c = 2 then .WEST else .EAST

/-- The globals that only record: `size` is `WAITING_HISTOGRAM_SIZE`. -/
structure Histograms (size : ℕ) where
  entryTicker : ℤ
  waitingHistogram : Fin size → ℤ
  waitingHistogramOverflow : ℤ
  occupancyHistogram : Direction → Fin (MAX_OCCUPANCY + 1) → ℤ

/-- `a[i]++` on an array of `n` cells. -/
def increment {n : ℕ} (a : Fin n → ℤ) (i : ℤ) : Option (Fin n → ℤ) :=
  if h : 0 ≤ i ∧ i < n then
    let j : Fin n := ⟨i.toNat, by omega⟩
    some (Function.update a j (a j + 1))
  else none

variable {size : ℕ}

def Histograms.zero (size : ℕ) : Histograms size := ⟨0, fun _ => 0, 0, fun _ _ => 0⟩

def recordWaitingTime (h : Histograms size) (waitingTime : ℤ) : Option (Histograms size) :=
  if waitingTime < size then
    (increment h.waitingHistogram waitingTime).map fun w => { h with waitingHistogram := w }
  else some { h with waitingHistogramOverflow := h.waitingHistogramOverflow + 1 }

/-- What a car of direction `g` records as it becomes one of `count` cars in the street. -/
def recordEntry (h : Histograms size) (wait_time : ℤ) (g : Direction) (count : ℤ) :
    Option (Histograms size) := do
  let h ← recordWaitingTime h wait_time
  let h := { h with entryTicker := h.entryTicker + 1 }
  let row ← increment (h.occupancyHistogram g) count
  return { h with occupancyHistogram := Function.update h.occupancyHistogram g row }

/-! ## Increments -/

theorem increment_eq_some_iff {n : ℕ} (a : Fin n → ℤ) (i : ℤ) :
    (∃ b, increment a i = some b) ↔ 0 ≤ i ∧ i < n := by
  unfold increment
  split_ifs with h
  · exact iff_of_true ⟨_, rfl⟩ h
  · exact iff_of_false (fun ⟨_, hb⟩ => absurd hb (by simp)) h

theorem sum_increment {n : ℕ} {a b : Fin n → ℤ} {i : ℤ} (h : increment a i = some b) :
    ∑ j, b j = ∑ j, a j + 1 := by
  unfold increment at h
  split_ifs at h with hi
  obtain rfl := Option.some.inj h
  rw [Finset.sum_update_of_mem (Finset.mem_univ _), add_right_comm, add_left_inj,
    add_comm, Finset.sdiff_singleton_eq_erase, Finset.sum_erase_add _ _ (Finset.mem_univ _)]

/-! ## The totals -/

/-- The sum of all cells of the occupancy histogram. -/
def Histograms.occupancyTotal (h : Histograms size) : ℤ := ∑ g, ∑ i, h.occupancyHistogram g i

/-- The sum of the waiting histogram and its overflow. -/
def Histograms.waitingTotal (h : Histograms size) : ℤ :=
  ∑ i, h.waitingHistogram i + h.waitingHistogramOverflow

/-- The ticker is both totals. -/
structure Histograms.Balanced (h : Histograms size) : Prop where
  occupancy : h.entryTicker = h.occupancyTotal
  waiting : h.entryTicker = h.waitingTotal

theorem Histograms.balanced_zero : (Histograms.zero size).Balanced :=
  ⟨by simp [zero, occupancyTotal], by simp [zero, waitingTotal]⟩

variable {h h' : Histograms size} {w count : ℤ} {g : Direction}

theorem recordWaitingTime_eq_some (h : Histograms size) (hw : 0 ≤ w) :
    ∃ h', recordWaitingTime h w = some h' := by
  unfold recordWaitingTime
  split_ifs with hlt
  · obtain ⟨b, hb⟩ := (increment_eq_some_iff h.waitingHistogram w).mpr ⟨hw, hlt⟩
    exact ⟨_, by rw [hb]; rfl⟩
  · exact ⟨_, rfl⟩

theorem recordWaitingTime_spec (hr : recordWaitingTime h w = some h') :
    h'.entryTicker = h.entryTicker ∧ h'.occupancyHistogram = h.occupancyHistogram ∧
      h'.waitingTotal = h.waitingTotal + 1 := by
  unfold recordWaitingTime at hr
  split_ifs at hr with hlt
  · obtain ⟨b, hb, rfl⟩ := Option.map_eq_some_iff.mp hr
    refine ⟨rfl, rfl, ?_⟩
    change ∑ i, b i + _ = ∑ i, h.waitingHistogram i + _ + 1
    rw [sum_increment hb]
    abel
  · obtain rfl := Option.some.inj hr
    exact ⟨rfl, rfl, (add_assoc _ _ _).symm⟩

/-- **When recording an entry is defined.** -/
theorem recordEntry_eq_some (h : Histograms size) (g : Direction) (hw : 0 ≤ w) (h0 : 0 ≤ count)
    (hc : count ≤ MAX_OCCUPANCY) : ∃ h', recordEntry h w g count = some h' := by
  obtain ⟨h₁, h1⟩ := recordWaitingTime_eq_some h hw
  obtain ⟨row, hrow⟩ := (increment_eq_some_iff (h₁.occupancyHistogram g) count).mpr
    ⟨h0, by omega⟩
  exact ⟨_, by simp only [recordEntry, h1, Option.bind_eq_bind, Option.bind_some, hrow]; rfl⟩

theorem recordEntry_spec (hr : recordEntry h w g count = some h') :
    ∃ h₁ row, recordWaitingTime h w = some h₁ ∧
      increment (h₁.occupancyHistogram g) count = some row ∧
      h' = { h₁ with
        entryTicker := h₁.entryTicker + 1
        occupancyHistogram := Function.update h₁.occupancyHistogram g row } := by
  unfold recordEntry at hr
  obtain ⟨h₁, h1, hr⟩ := Option.bind_eq_some_iff.mp hr
  obtain ⟨row, hrow, hr⟩ := Option.bind_eq_some_iff.mp hr
  exact ⟨h₁, row, h1, hrow, (Option.some.inj hr).symm⟩

theorem recordEntry_entryTicker (hr : recordEntry h w g count = some h') :
    h'.entryTicker = h.entryTicker + 1 := by
  obtain ⟨h₁, row, h1, -, rfl⟩ := recordEntry_spec hr
  rw [← (recordWaitingTime_spec h1).1]

theorem recordEntry_count (hr : recordEntry h w g count = some h') :
    0 ≤ count ∧ count ≤ MAX_OCCUPANCY := by
  obtain ⟨h₁, row, -, hrow, -⟩ := recordEntry_spec hr
  have := (increment_eq_some_iff (h₁.occupancyHistogram g) count).mp ⟨row, hrow⟩
  omega

/-- **Recording an entry keeps the totals equal to the ticker.** -/
theorem Histograms.Balanced.recordEntry (hb : h.Balanced)
    (hr : recordEntry h w g count = some h') : h'.Balanced := by
  obtain ⟨h₁, row, h1, hrow, rfl⟩ := recordEntry_spec hr
  obtain ⟨ht, ho, hw⟩ := recordWaitingTime_spec h1
  constructor
  · change h₁.entryTicker + 1 = ∑ d, ∑ i, Function.update h₁.occupancyHistogram g row d i
    rw [← Finset.add_sum_erase _ _ (Finset.mem_univ g), Function.update_self, sum_increment hrow,
      ht, ho, hb.occupancy, occupancyTotal, ← Finset.add_sum_erase _ _ (Finset.mem_univ g)]
    have hrest : ∀ d ∈ Finset.univ.erase g,
        ∑ i, Function.update h.occupancyHistogram g row d i = ∑ i, h.occupancyHistogram d i := by
      intro d hd
      rw [Function.update_of_ne (Finset.ne_of_mem_erase hd)]
    rw [Finset.sum_congr rfl hrest]
    abel
  · change h₁.entryTicker + 1 = h₁.waitingTotal
    rw [ht, hw, hb.waiting]

end IntroSystems.Traffic
