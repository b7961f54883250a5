import IntroSystems.Lib.Semaphore
import IntroSystems.Traffic.Histogram

/-!
# The street with semaphores

`traffic_sem.c` of assignment 11. What a car does between `uthread_sem_wait(Street.lock)` and
`uthread_sem_signal(Street.lock)` is a critical section; in between it may wait on the semaphore of
its direction, and then it enters without looking at the street again.

* `Street`: what the lock protects. The two semaphores `dir_sems` are named by their directions.
* `enterStreet`, `enterAfterWait`, `leaveStreet`, `activate`: the sections of a car.
* `Phase`, `traffic`: the program of all cars.
* `enterStreet_eq`, `leaveStreet_cases`: what the two large sections can do.
-/

set_option autoImplicit false

namespace IntroSystems.Traffic.Sem

open Semaphore

/-- `struct Street` without its semaphores, and the globals that record. -/
structure Street (size : ℕ) where
  direction : Direction
  count : ℤ
  num_each_dir_in_street : Direction → ℤ
  num_each_dir_waiting : Direction → ℤ
  num_active_each_dir : Direction → ℤ
  hist : Histograms size

/-- Where a car is: before its registration, about to enter in iteration `i`, about to wait on its
semaphore with its local `t`, past that wait, in the street, before its last section, or
finished. -/
inductive Phase
  | register
  | enter (i : ℕ)
  | waitSem (i : ℕ) (t : ℤ)
  | admitted (i : ℕ) (t : ℤ)
  | leave (i : ℕ)
  | unregister
  | done
  deriving DecidableEq

variable {size : ℕ}

def initializeStreet (size : ℕ) : Street size :=
  ⟨.EAST, 0, fun _ => 0, fun _ => 0, fun _ => 0, .zero size⟩

/-- `a[g] += k`. -/
def addTo (a : Direction → ℤ) (g : Direction) (k : ℤ) : Direction → ℤ :=
  Function.update a g (a g + k)

/-- The head of the loop `for (i; i < NUM_ITERATIONS; ...)` of `car`. -/
def iterate (numIterations i : ℕ) : Phase := if i < numIterations then .enter i else .unregister

/-- What a section gives: the data, the semaphores signalled, and where the car goes on. -/
abbrev Result (size : ℕ) := Street size × List Direction × Phase

/-- The street with one more car of direction `g`. -/
def enter (g : Direction) (s : Street size) (h : Histograms size) : Street size :=
  { s with
    count := s.count + 1
    num_each_dir_in_street := addTo s.num_each_dir_in_street g 1
    hist := h }

/-- The first loop of `enterStreet`. -/
def signalPlaces (g : Direction) (s : Street size) : List Direction :=
  if g = s.direction then List.replicate (MAX_OCCUPANCY - s.count).toNat g else []

/-- An empty street takes the direction of the car. -/
def claims (g : Direction) (s : Street size) : Bool :=
  s.count == 0 && g != s.direction && s.num_active_each_dir g != 0

def enterStreet (g : Direction) (i : ℕ) (s : Street size) : Option (Result size) :=
  let sig := signalPlaces g s
  let (s, sig) :=
    if claims g s then ({ s with direction := g }, sig ++ List.replicate MAX_OCCUPANCY g)
    else (s, sig)
  if g = s.direction ∧ s.num_each_dir_in_street g < MAX_OCCUPANCY then
    (recordEntry s.hist 0 g (s.count + 1)).map fun h => (enter g s h, sig, .leave i)
  else
    let t := s.hist.entryTicker
    some ({ s with num_each_dir_waiting := addTo s.num_each_dir_waiting g 1 }, sig, .waitSem i t)

/-- The rest of `enterStreet`, after the wait on the semaphore. -/
def enterAfterWait (g : Direction) (i : ℕ) (t : ℤ) (s : Street size) : Option (Result size) :=
  let wait_time := s.hist.entryTicker - t
  (recordEntry s.hist wait_time g (s.count + 1)).map fun h =>
    (enter g { s with num_each_dir_waiting := addTo s.num_each_dir_waiting g (-1) } h, [], .leave i)

/-- The signal for the current direction, if it still has cars. -/
def signalDirection (s : Street size) : List Direction :=
  if s.direction = .EAST ∧ s.num_active_each_dir .EAST ≠ 0 then [.EAST]
  else if s.direction = .WEST ∧ s.num_active_each_dir .WEST ≠ 0 then [.WEST]
  else []

def leaveStreet (g : Direction) (s : Street size) : Street size × List Direction :=
  let s : Street size := { s with
    count := s.count - 1
    num_each_dir_in_street := addTo s.num_each_dir_in_street g (-1) }
  if s.count = 0 ∧ s.num_active_each_dir (oppositeEnd s.direction) ≠ 0 then
    let s : Street size := { s with direction := oppositeEnd s.direction }
    (s, (List.replicate MAX_OCCUPANCY (signalDirection s)).flatten)
  else if s.count < MAX_OCCUPANCY then (s, signalDirection s)
  else (s, [])

/-- `num_active_each_dir[dir] += k`. -/
def activate (g : Direction) (k : ℤ) (s : Street size) : Street size :=
  { s with num_active_each_dir := addTo s.num_active_each_dir g k }

variable {Car : Type}

/-- What `car` does at each phase. -/
def car (dir : Car → Direction) (numIterations : ℕ) (c : Car) (p : Phase) :
    Action Phase (Street size) Direction :=
  match p with
  | .register => .locked fun s => some (activate (dir c) 1 s, [], iterate numIterations 0)
  | .enter i => .locked (enterStreet (dir c) i)
  | .waitSem i t => .wait (dir c) (.admitted i t)
  | .admitted i t => .locked (enterAfterWait (dir c) i t)
  | .leave i => .locked fun s =>
    let (s, signalled) := leaveStreet (dir c) s
    some (s, signalled, iterate numIterations (i + 1))
  | .unregister => .locked fun s => some (activate (dir c) (-1) s, [], .done)
  | .done => .finished

/-- `NUM_ITERATIONS * NUM_CARS`. -/
def WAITING_HISTOGRAM_SIZE (Car : Type) [Fintype Car] (numIterations : ℕ) : ℕ :=
  numIterations * Fintype.card Car

/-- All cars, from the end of `initializeStreet`. -/
def traffic [Fintype Car] (dir : Car → Direction) (numIterations : ℕ) :
    Program Car Phase (Street (WAITING_HISTOGRAM_SIZE Car numIterations)) Direction where
  start := .register
  data := initializeStreet _
  value := fun _ => 0
  action := car dir numIterations

/-- A car between `enterStreet` and `leaveStreet`. -/
def Phase.inStreet : Phase → Bool
  | .leave _ => true
  | _ => false

@[simp] theorem iterate_inStreet (n i : ℕ) : (iterate n i).inStreet = false := by
  unfold iterate
  split_ifs <;> rfl

/-! ## What the sections do -/

/-- The direction the street has after the first lines of `enterStreet`. -/
def claimStreet (g : Direction) (s : Street size) : Street size :=
  if claims g s then { s with direction := g } else s

theorem claimStreet_of_claims {g : Direction} {s : Street size} (h : claims g s = true) :
    s.count = 0 ∧ claimStreet g s = { s with direction := g } := by
  refine ⟨?_, by rw [claimStreet, if_pos h]⟩
  simp only [claims, Bool.and_eq_true, beq_iff_eq] at h
  exact h.1.1

/-- The signals of `enterStreet`. -/
def enterSignals (g : Direction) (s : Street size) : List Direction :=
  if claims g s then signalPlaces g s ++ List.replicate MAX_OCCUPANCY g else signalPlaces g s

theorem enterStreet_eq (g : Direction) (i : ℕ) (s : Street size) : enterStreet g i s =
    let s' := claimStreet g s
    if g = s'.direction ∧ s'.num_each_dir_in_street g < MAX_OCCUPANCY then
      (recordEntry s'.hist 0 g (s'.count + 1)).map fun h => (enter g s' h, enterSignals g s, .leave i)
    else
      some ({ s' with num_each_dir_waiting := addTo s'.num_each_dir_waiting g 1 },
        enterSignals g s, .waitSem i s'.hist.entryTicker) := by
  unfold enterStreet claimStreet enterSignals
  cases claims g s <;> rfl

theorem leaveStreet_cases (g : Direction) (s : Street size) :
    let s₁ : Street size := { s with
      count := s.count - 1
      num_each_dir_in_street := addTo s.num_each_dir_in_street g (-1) }
    (leaveStreet g s).1 = s₁ ∨
      s₁.count = 0 ∧ (leaveStreet g s).1 = { s₁ with direction := oppositeEnd s.direction } := by
  intro s₁
  by_cases h : s₁.count = 0 ∧ s₁.num_active_each_dir (oppositeEnd s₁.direction) ≠ 0
  · refine .inr ⟨h.1, ?_⟩
    rw [leaveStreet, if_pos h]
  · refine .inl ?_
    rw [leaveStreet, if_neg h]
    by_cases hm : s₁.count < MAX_OCCUPANCY
    · rw [if_pos hm]
    · rw [if_neg hm]

end IntroSystems.Traffic.Sem
