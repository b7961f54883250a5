import IntroSystems.Lib.Monitor
import Mathlib.Data.Int.Notation
import Mathlib.Data.Fintype.Sum
import Mathlib.Tactic.DeriveFintype
import Mathlib.Tactic.FinCases

/-!
# The cigarette smokers

`smoke.c` of assignment 10: an agent, three helpers and three smokers under one mutex. What a thread
does from `uthread_mutex_lock` or a return from `uthread_cond_wait` to its next `uthread_cond_wait`
is a critical section.

* `Resource`, `Thread`, `Cond`, and `Shared`, the variables.
* `agent`, `helperMatch`, `helperPaper`, `helpertobacco`, `smoke`: the sections.
* `smokers`: the program, for any number of iterations and any outcomes of `random()`.
-/

set_option autoImplicit false

namespace IntroSystems.Smokers

open Monitor

inductive Resource
  | MATCH
  | PAPER
  | TOBACCO
  deriving DecidableEq

open Resource

instance : Fintype Resource := ⟨{MATCH, PAPER, TOBACCO}, fun r => by cases r <;> decide⟩

/-- The agent, the helper for a resource, and the smoker that has a resource. -/
inductive Thread
  | agent
  | helper (r : Resource)
  | smoker (r : Resource)
  deriving DecidableEq, Fintype

/-- The conditions: `match`, `paper` and `tobacco` of the agent, its `smoke`, the `resourcePair` of
each smoker, and `helperSmoke`. -/
inductive Cond
  | available (r : Resource)
  | smoke
  | resourcePair (r : Resource)
  | helperSmoke
  deriving DecidableEq, Fintype

/-- The pairs of `createSmoker`. -/
abbrev tobaccoPaper : Cond := .resourcePair MATCH

abbrev tobaccoMatch : Cond := .resourcePair PAPER

abbrev paperMatch : Cond := .resourcePair TOBACCO

/-- `match`, `paper` and `tobacco` of the helper, and the global variables. -/
structure Shared where
  flag : Resource → ℤ
  num_active_threads : ℤ
  signal_count : Resource → ℤ
  smoke_count : Resource → ℤ

/-- Where a thread goes on: before its first section, or in one of its calls of
`uthread_cond_wait`. -/
inductive Point
  | start
  | waitStart
  | waitSmoke (i : ℕ)
  | waitAvailable
  | waitHelperSmoke
  | waitPair
  | done
  deriving DecidableEq

/-- What a section gives: the variables, the conditions signalled, and how it ends. -/
abbrev Result := Shared × List Cond × Exit Cond Point

/-- `c[r]++`. -/
def increment (c : Resource → ℤ) (r : Resource) : Resource → ℤ := Function.update c r (c r + 1)

/-! ## The agent -/

/-- The cases of the agent's `switch`: the smoker to smoke, and the resources made available. -/
def choice : Fin 6 → Resource × Resource × Resource
  | 0 => (TOBACCO, MATCH, PAPER)
  | 1 => (PAPER, MATCH, TOBACCO)
  | 2 => (MATCH, PAPER, TOBACCO)
  | 3 => (TOBACCO, PAPER, MATCH)
  | 4 => (PAPER, TOBACCO, MATCH)
  | 5 => (MATCH, TOBACCO, PAPER)

/-- The head of `for (i; i < NUM_ITERATIONS; i++)` and its body up to the wait. -/
def iterate (numIterations : ℕ) (random : ℕ → Fin 6) (i : ℕ) (s : Shared) : Result :=
  if i < numIterations then
    let (smoker, r, r') := choice (random i)
    ({ s with signal_count := increment s.signal_count smoker },
      [.available r, .available r'], .wait .smoke (.waitSmoke i))
  else (s, [], .leave .done)

/-- `while (num_active_threads < 3)`. -/
def waitForThreads (numIterations : ℕ) (random : ℕ → Fin 6) (s : Shared) : Result :=
  if s.num_active_threads < 3 then (s, [], .wait .smoke .waitStart)
  else iterate numIterations random 0 s

def agent (numIterations : ℕ) (random : ℕ → Fin 6) (s : Shared) : Point → Option Result
  | .start => some (waitForThreads numIterations random s)
  | .waitStart => some (waitForThreads numIterations random s)
  | .waitSmoke i => some (iterate numIterations random (i + 1) s)
  | _ => none

/-! ## The helpers -/

/-- The body of a helper's loop from the wait for its own resource on, with the other two resources
in the order of its tests, and the condition of each pair. -/
def matchUp (own first : Resource) (pair : Cond) (second : Resource) (pair' : Cond) (s : Shared) :
    Result :=
  let s := { s with flag := Function.update s.flag own 1 }
  if s.flag own ≠ 0 ∧ s.flag first ≠ 0 then (s, [pair], .wait .helperSmoke .waitHelperSmoke)
  else if s.flag own ≠ 0 ∧ s.flag second ≠ 0 then
    (s, [pair'], .wait .helperSmoke .waitHelperSmoke)
  else (s, [], .wait (.available own) .waitAvailable)

/-- What is left of the loop's body after the wait for a smoker. -/
def clear (own : Resource) (s : Shared) : Result :=
  ({ s with flag := fun _ => 0 }, [.smoke], .wait (.available own) .waitAvailable)

def helper (own first : Resource) (pair : Cond) (second : Resource) (pair' : Cond) (s : Shared) :
    Point → Option Result
  | .start => some (s, [], .wait (.available own) .waitAvailable)
  | .waitAvailable => some (matchUp own first pair second pair' s)
  | .waitHelperSmoke => some (clear own s)
  | _ => none

def helperMatch : Shared → Point → Option Result := helper MATCH PAPER paperMatch TOBACCO tobaccoMatch

def helperPaper : Shared → Point → Option Result := helper PAPER MATCH paperMatch TOBACCO tobaccoPaper

def helpertobacco : Shared → Point → Option Result :=
  helper TOBACCO PAPER tobaccoPaper MATCH tobaccoMatch

/-! ## The smokers -/

/-- `tobaccoSmoke`, `paperSmoke` and `matchSmoke`. -/
def smoke (r : Resource) (s : Shared) : Point → Option Result
  | .start => some ({ s with num_active_threads := s.num_active_threads + 1 }, [.smoke],
      .wait (.resourcePair r) .waitPair)
  | .waitPair => some ({ s with smoke_count := increment s.smoke_count r }, [.helperSmoke],
      .wait (.resourcePair r) .waitPair)
  | _ => none

def tobaccoSmoke : Shared → Point → Option Result := smoke TOBACCO

def paperSmoke : Shared → Point → Option Result := smoke PAPER

def matchSmoke : Shared → Point → Option Result := smoke MATCH

/-! ## The program -/

def body (numIterations : ℕ) (random : ℕ → Fin 6) (t : Thread) (p : Point) (s : Shared) :
    Option Result :=
  match t with
  | .agent => agent numIterations random s p
  | .helper MATCH => helperMatch s p
  | .helper PAPER => helperPaper s p
  | .helper TOBACCO => helpertobacco s p
  | .smoker MATCH => matchSmoke s p
  | .smoker PAPER => paperSmoke s p
  | .smoker TOBACCO => tobaccoSmoke s p

/-- The threads that `main` creates. -/
def smokers (numIterations : ℕ) (random : ℕ → Fin 6) : Program Thread Point Shared Cond where
  start := .start
  data := ⟨fun _ => 0, 0, fun _ => 0, fun _ => 0⟩
  finished := fun p => p = .done
  body := body numIterations random

/-- The assertions at the end of `main`. -/
def Asserts (numIterations : ℕ) (s : Shared) : Prop :=
  s.signal_count MATCH = s.smoke_count MATCH ∧ s.signal_count PAPER = s.smoke_count PAPER ∧
    s.signal_count TOBACCO = s.smoke_count TOBACCO ∧
    s.smoke_count MATCH + s.smoke_count PAPER + s.smoke_count TOBACCO = numIterations

/-! ## What the sections do -/

/-- The three resources. -/
structure Distinct (x y z : Resource) : Prop where
  xy : x ≠ y
  xz : x ≠ z
  yz : y ≠ z

theorem Distinct.swap {x y z : Resource} (h : Distinct x y z) : Distinct y x z :=
  ⟨h.xy.symm, h.yz, h.xz⟩

theorem Distinct.cases {x y z : Resource} (h : Distinct x y z) (r : Resource) :
    r = x ∨ r = y ∨ r = z := by
  obtain ⟨h1, h2, h3⟩ := h
  cases x <;> cases y <;> cases z <;> cases r <;> simp_all

theorem choice_distinct (c : Fin 6) : Distinct (choice c).2.1 (choice c).2.2 (choice c).1 := by
  fin_cases c <;> exact ⟨by decide, by decide, by decide⟩

variable {numIterations : ℕ} {random : ℕ → Fin 6} {s : Shared}

theorem iterate_of_lt {i : ℕ} (h : i < numIterations) : iterate numIterations random i s =
    ({ s with signal_count := increment s.signal_count (choice (random i)).1 },
      [.available (choice (random i)).2.1, .available (choice (random i)).2.2],
      .wait .smoke (.waitSmoke i)) := if_pos h

theorem iterate_of_le {i : ℕ} (h : numIterations ≤ i) :
    iterate numIterations random i s = (s, [], .leave .done) := if_neg (by omega)

theorem body_smoker (r : Resource) (p : Point) :
    body numIterations random (.smoker r) p s = smoke r s p := by
  cases r <;> rfl

theorem body_helper_start (r : Resource) : body numIterations random (.helper r) .start s =
    some (s, [], .wait (.available r) .waitAvailable) := by
  cases r <;> rfl

theorem body_helper_clear (r : Resource) :
    body numIterations random (.helper r) .waitHelperSmoke s = some (clear r s) := by
  cases r <;> rfl

/-- **A helper finds its match** when the flag of another resource is set. -/
theorem body_helper_match {x y z : Resource} (h : Distinct x y z) (hz : s.flag z = 0) :
    body numIterations random (.helper x) .waitAvailable s =
      some (if s.flag y ≠ 0 then
        ({ s with flag := Function.update s.flag x 1 }, [.resourcePair z],
          .wait .helperSmoke .waitHelperSmoke)
        else ({ s with flag := Function.update s.flag x 1 }, [],
          .wait (.available x) .waitAvailable)) := by
  obtain ⟨h1, h2, h3⟩ := h
  cases x <;> cases y <;> cases z <;>
    simp_all [body, helperMatch, helperPaper, helpertobacco, helper, matchUp]

end IntroSystems.Smokers
