import IntroSystems.Lib.Monitor
import IntroSystems.Traffic.Histogram

/-!
# The street with a mutex and condition variables

`traffic.c` of assignment 11. A car is a thread; what it does under `Street.lock` is a critical
section, from `uthread_mutex_lock` or a return from `uthread_cond_wait` to the next
`uthread_mutex_unlock` or `uthread_cond_wait`.

* `Street`: what the lock protects. The two conditions are named by their directions.
* `enterStreet`, `waitLoop`, `leaveStreet`, `register`, `unregister`: the sections of a car.
* `Phase`: where a car is; `traffic`: the program of all cars, for any number of them, any
  directions and any number of iterations.
-/

set_option autoImplicit false

namespace IntroSystems.Traffic.Cond

open Monitor

/-- `struct Street` without its lock and conditions, and the globals that record. -/
structure Street (size : ℕ) where
  direction : Direction
  count : ℤ
  num_each_dir : Direction → ℤ
  hist : Histograms size

/-- Where a car is: before its registration, about to enter in iteration `i`, woken in the loop of
`enterStreet` with its local `t`, in the street, before its last section, or finished. -/
inductive Phase
  | register
  | enter (i : ℕ)
  | woken (i : ℕ) (t : ℤ)
  | leave (i : ℕ)
  | unregister
  | done
  deriving DecidableEq

variable {size : ℕ}

def initializeStreet (size : ℕ) : Street size := ⟨.EAST, 0, fun _ => 0, .zero size⟩

/-- The head of the loop `for (i; i < NUM_ITERATIONS; ...)` of `car`. -/
def iterate (numIterations i : ℕ) : Phase := if i < numIterations then .enter i else .unregister

/-- `num_each_dir[dir] += k`. -/
def addToDir (s : Street size) (dir : Direction) (k : ℤ) : Street size :=
  { s with num_each_dir := Function.update s.num_each_dir dir (s.num_each_dir dir + k) }

/-- What a section gives: the data, the conditions signalled, and how it ends. -/
abbrev Result (size : ℕ) := Street size × List Direction × Exit Direction Phase

/-- The loop of `enterStreet` and what follows it. -/
def waitLoop (g : Direction) (i : ℕ) (t : ℤ) (s : Street size) : Option (Result size) :=
  if g ≠ s.direction ∨ s.count ≥ MAX_OCCUPANCY then
    some (s, [], .wait g (.woken i t))
  else
    let wait_time := s.hist.entryTicker - t
    (recordEntry s.hist wait_time g (s.count + 1)).map fun h =>
      ({ s with count := s.count + 1, hist := h }, [], .leave (.leave i))

/-- The first lines of `enterStreet`: an empty street takes the car's direction. -/
def claimStreet (g : Direction) (s : Street size) : Street size :=
  if s.count = 0 then
    if s.num_each_dir g ≠ 0 then { s with direction := g } else s
  else s

def enterStreet (g : Direction) (i : ℕ) (s : Street size) : Option (Result size) :=
  let s := claimStreet g s
  let t := s.hist.entryTicker
  waitLoop g i t s

/-- The signal for the current direction, if it still has cars. -/
def signalDirection (s : Street size) : List Direction :=
  if s.direction = .EAST ∧ s.num_each_dir .EAST ≠ 0 then [.EAST]
  else if s.direction = .WEST ∧ s.num_each_dir .WEST ≠ 0 then [.WEST]
  else []

def leaveStreet (s : Street size) : Street size × List Direction :=
  let s : Street size := { s with count := s.count - 1 }
  if s.count = 0 ∧ s.num_each_dir (oppositeEnd s.direction) ≠ 0 then
    let s : Street size := { s with direction := oppositeEnd s.direction }
    (s, (List.replicate MAX_OCCUPANCY (signalDirection s)).flatten)
  else if s.count < MAX_OCCUPANCY then (s, signalDirection s)
  else (s, [])

variable {Car : Type}

/-- The sections of `car`. -/
def car (dir : Car → Direction) (numIterations : ℕ) (c : Car) (p : Phase) (s : Street size) :
    Option (Result size) :=
  match p with
  | .register => some (addToDir s (dir c) 1, [], .leave (iterate numIterations 0))
  | .enter i => enterStreet (dir c) i s
  | .woken i t => waitLoop (dir c) i t s
  | .leave i =>
    let (s, signalled) := leaveStreet s
    some (s, signalled, .leave (iterate numIterations (i + 1)))
  | .unregister => some (addToDir s (dir c) (-1), [], .leave .done)
  | .done => none

/-- `NUM_ITERATIONS * NUM_CARS`. -/
def WAITING_HISTOGRAM_SIZE (Car : Type) [Fintype Car] (numIterations : ℕ) : ℕ :=
  numIterations * Fintype.card Car

/-- All cars, from the end of `initializeStreet`. -/
def traffic [Fintype Car] (dir : Car → Direction) (numIterations : ℕ) :
    Program Car Phase (Street (WAITING_HISTOGRAM_SIZE Car numIterations)) Direction where
  start := .register
  data := initializeStreet _
  finished := fun p => p = .done
  body := car dir numIterations

/-- A car between `enterStreet` and `leaveStreet`. -/
def Phase.inStreet : Phase → Bool
  | .leave _ => true
  | _ => false

/-- A car that is counted in `num_each_dir`. -/
def Phase.registered : Phase → Bool
  | .register => false
  | .done => false
  | _ => true

@[simp] theorem iterate_inStreet (n i : ℕ) : (iterate n i).inStreet = false := by
  unfold iterate
  split_ifs <;> rfl

@[simp] theorem iterate_registered (n i : ℕ) : (iterate n i).registered = true := by
  unfold iterate
  split_ifs <;> rfl

theorem iterate_ne_woken {n i j : ℕ} {t : ℤ} : iterate n i ≠ .woken j t := by
  unfold iterate
  split_ifs <;> simp

/-! ## What each section does -/

@[simp] theorem claimStreet_count (g : Direction) (s : Street size) :
    (claimStreet g s).count = s.count := by
  unfold claimStreet
  split_ifs <;> rfl

@[simp] theorem claimStreet_hist (g : Direction) (s : Street size) :
    (claimStreet g s).hist = s.hist := by
  unfold claimStreet
  split_ifs <;> rfl

@[simp] theorem claimStreet_num (g : Direction) (s : Street size) :
    (claimStreet g s).num_each_dir = s.num_each_dir := by
  unfold claimStreet
  split_ifs <;> rfl

theorem claimStreet_of_ne (g : Direction) {s : Street size} (h : s.count ≠ 0) :
    claimStreet g s = s := by
  rw [claimStreet, if_neg h]

theorem claimStreet_direction {g : Direction} {s : Street size} (h : s.count = 0)
    (hn : s.num_each_dir g ≠ 0) : (claimStreet g s).direction = g := by
  rw [claimStreet, if_pos h, if_pos hn]

/-- The two ways out of the loop of `enterStreet`. -/
theorem waitLoop_cases {g : Direction} {i : ℕ} {t : ℤ} {s : Street size} {r : Result size}
    (h : waitLoop g i t s = some r) :
    (g ≠ s.direction ∨ s.count ≥ MAX_OCCUPANCY) ∧ r = (s, [], .wait g (.woken i t)) ∨
      s.direction = g ∧ s.count < MAX_OCCUPANCY ∧
        ∃ h, recordEntry s.hist (s.hist.entryTicker - t) g (s.count + 1) = some h ∧
          r = ({ s with count := s.count + 1, hist := h }, [], .leave (.leave i)) := by
  unfold waitLoop at h
  split_ifs at h with hw
  · exact .inl ⟨hw, (Option.some.inj h).symm⟩
  · rw [not_or, not_not, ge_iff_le, not_le] at hw
    obtain ⟨k, hk, rfl⟩ := Option.map_eq_some_iff.mp h
    exact .inr ⟨hw.1.symm, hw.2, k, hk, rfl⟩

/-- The car that leaves is the last one and registered cars go the other way. -/
def TurnsAround (s : Street size) : Prop :=
  s.count - 1 = 0 ∧ s.num_each_dir (oppositeEnd s.direction) ≠ 0

instance (s : Street size) : Decidable (TurnsAround s) :=
  inferInstanceAs (Decidable (_ ∧ _))

/-- The street after a car has left. -/
def afterLeave (s : Street size) : Street size :=
  if TurnsAround s then { s with direction := oppositeEnd s.direction, count := s.count - 1 }
  else { s with count := s.count - 1 }

theorem leaveStreet_eq (s : Street size) : leaveStreet s =
    if TurnsAround s then
      let s' := { s with direction := oppositeEnd s.direction, count := s.count - 1 }
      (s', (List.replicate MAX_OCCUPANCY (signalDirection s')).flatten)
    else
      let s' := { s with count := s.count - 1 }
      if s.count - 1 < MAX_OCCUPANCY then (s', signalDirection s') else (s', []) := rfl

theorem leaveStreet_fst (s : Street size) : (leaveStreet s).1 = afterLeave s := by
  rw [leaveStreet_eq, afterLeave]
  by_cases h : TurnsAround s
  · rw [if_pos h, if_pos h]
  · rw [if_neg h, if_neg h]
    dsimp only
    split_ifs <;> rfl

@[simp] theorem afterLeave_count (s : Street size) : (afterLeave s).count = s.count - 1 := by
  unfold afterLeave
  split_ifs <;> rfl

@[simp] theorem afterLeave_hist (s : Street size) : (afterLeave s).hist = s.hist := by
  unfold afterLeave
  split_ifs <;> rfl

@[simp] theorem afterLeave_num (s : Street size) :
    (afterLeave s).num_each_dir = s.num_each_dir := by
  unfold afterLeave
  split_ifs <;> rfl

/-- Only the last car to leave turns the street around. -/
theorem afterLeave_direction {s : Street size} (h : ¬TurnsAround s) :
    (afterLeave s).direction = s.direction := by
  rw [afterLeave, if_neg h]

theorem afterLeave_direction_of_turns {s : Street size} (h : TurnsAround s) :
    (afterLeave s).direction = oppositeEnd s.direction := by
  rw [afterLeave, if_pos h]

/-- **A car that leaves signals the direction the street now has**, if that has registered cars. -/
theorem mem_leaveStreet_signals {s : Street size} (hc : s.count ≤ MAX_OCCUPANCY)
    (hn : s.num_each_dir (afterLeave s).direction ≠ 0) :
    (afterLeave s).direction ∈ (leaveStreet s).2 := by
  have hsig : ∀ s' : Street size, s'.num_each_dir s'.direction ≠ 0 →
      s'.direction ∈ signalDirection s' := by
    intro s' h'
    unfold signalDirection
    cases hd : s'.direction <;> rw [hd] at h' <;> simp [h']
  by_cases h : TurnsAround s
  · rw [afterLeave, if_pos h] at hn ⊢
    rw [leaveStreet_eq, if_pos h]
    refine List.mem_flatten.mpr ⟨_, List.mem_replicate.mpr ⟨by decide, rfl⟩, ?_⟩
    exact hsig _ hn
  · rw [afterLeave, if_neg h] at hn ⊢
    rw [leaveStreet_eq, if_neg h, if_pos (by omega)]
    exact hsig _ hn

/-- The ways a section can end, from a phase and the data. -/
inductive Outcome (dir : Car → Direction) (n : ℕ) (c : Car) (s : Street size) :
    Phase → Result size → Prop
  | register : Outcome dir n c s .register (addToDir s (dir c) 1, [], .leave (iterate n 0))
  | enterNow {i : ℕ} {h : Histograms size} : (claimStreet (dir c) s).direction = dir c →
      (claimStreet (dir c) s).count < MAX_OCCUPANCY →
      recordEntry s.hist 0 (dir c) (s.count + 1) = some h →
      Outcome dir n c s (.enter i) ({ claimStreet (dir c) s with count := s.count + 1, hist := h },
        [], .leave (.leave i))
  | enterWait {i : ℕ} : dir c ≠ (claimStreet (dir c) s).direction ∨ s.count ≥ MAX_OCCUPANCY →
      Outcome dir n c s (.enter i)
        (claimStreet (dir c) s, [], .wait (dir c) (.woken i s.hist.entryTicker))
  | wokenEnter {i : ℕ} {t : ℤ} {h : Histograms size} : s.direction = dir c →
      s.count < MAX_OCCUPANCY →
      recordEntry s.hist (s.hist.entryTicker - t) (dir c) (s.count + 1) = some h →
      Outcome dir n c s (.woken i t) ({ s with count := s.count + 1, hist := h },
        [], .leave (.leave i))
  | wokenWait {i : ℕ} {t : ℤ} : dir c ≠ s.direction ∨ s.count ≥ MAX_OCCUPANCY →
      Outcome dir n c s (.woken i t) (s, [], .wait (dir c) (.woken i t))
  | leave {i : ℕ} : Outcome dir n c s (.leave i)
      (afterLeave s, (leaveStreet s).2, .leave (iterate n (i + 1)))
  | unregister : Outcome dir n c s .unregister (addToDir s (dir c) (-1), [], .leave .done)

/-- **What a section can do**, by the phase of the car. -/
theorem car_cases {dir : Car → Direction} {n : ℕ} {c : Car} {p : Phase} {s : Street size}
    {r : Result size} (h : car dir n c p s = some r) : Outcome dir n c s p r := by
  cases p with
  | register =>
    obtain rfl := Option.some.inj h
    exact .register
  | enter i =>
    rcases waitLoop_cases h with ⟨hw, rfl⟩ | ⟨hd, hc, k, hk, rfl⟩
    · simp only [claimStreet_hist]
      exact .enterWait (by simpa using hw)
    · simp only [claimStreet_hist, sub_self, claimStreet_count] at hk
      simp only [claimStreet_count]
      exact .enterNow hd hc hk
  | woken i t =>
    rcases waitLoop_cases h with ⟨hw, rfl⟩ | ⟨hd, hc, k, hk, rfl⟩
    · exact .wokenWait hw
    · exact .wokenEnter hd hc hk
  | leave i =>
    have hr : ((leaveStreet s).1, (leaveStreet s).2, Exit.leave (iterate n (i + 1))) = r :=
      Option.some.inj h
    rw [← hr, leaveStreet_fst]
    exact .leave
  | unregister =>
    obtain rfl := Option.some.inj h
    exact .unregister
  | done => exact absurd h (by simp [car])

end IntroSystems.Traffic.Cond
