import IntroSystems.Lib.Transition
import IntroSystems.Uthread.Queue
import Mathlib.Data.Fin.Basic

/-!
# The barrier

`q3.c` of assignment 10, for `n` threads. What a thread does between two calls of the thread library,
and each such call up to the point where it may block, is one step. A thread in front of
`uthread_mutex_lock` goes on when the mutex is free. A wake-up that comes before `uthread_block` is
not lost.

* `Pc`, `State`, `exec`: the steps of `p`, `waitForAllOtherThreads`, `uthread_cond_wait` and
  `uthread_cond_broadcast`.
* `barrierRun`: the threads in any order.
-/

set_option autoImplicit false

namespace IntroSystems.Barrier

open Uthread

/-- Where a thread is in `p`. -/
inductive Pc
  | start
  /-- Before `uthread_mutex_lock (mx)`. -/
  | toLock
  | increment
  /-- At the test of `waitForAllOtherThreads`. -/
  | test
  /-- Before `uthread_cond_wait (cond)`, and in it before `uthread_mutex_unlock`. -/
  | wait
  | waitUnlock
  /-- Up to the end of `uthread_block`. -/
  | asleep
  /-- Unblocked, and before `uthread_mutex_lock`. -/
  | woken
  /-- At the test of the loop of `uthread_cond_broadcast`. -/
  | broadcast
  | unlock
  | print
  | done
  deriving DecidableEq

/-- What is printed. -/
inductive Print
  | a
  | b
  deriving DecidableEq

structure State (n : ℕ) where
  count : ℤ
  /-- The holder of `mx`. -/
  holder : Option (Fin n)
  next : Fin n → Option (Fin n)
  /-- The waiters of `cond`. -/
  waiter_queue : ThreadQueue (Fin n)
  pc : Fin n → Pc
  printed : List (Fin n × Print)

variable {n : ℕ}

def start : State n := ⟨0, none, fun _ => none, initqueue, fun _ => .start, []⟩

def State.goto (s : State n) (t : Fin n) (pc : Pc) : State n :=
  { s with pc := Function.update s.pc t pc }

/-- `uthread_unblock`. -/
def uthreadUnblock (s : State n) (t : Fin n) : State n :=
  match s.pc t with
  | .asleep => s.goto t .woken
  | _ => s

/-- The next step of a thread. A failed assertion is `none`. -/
def exec (s : State n) (t : Fin n) : Option (State n) :=
  match s.pc t with
  | .start => some ({ s with printed := s.printed ++ [(t, Print.a)] }.goto t .toLock)
  | .toLock => some ({ s with holder := some t }.goto t .increment)
  | .increment => some ({ s with count := s.count + 1 }.goto t .test)
  | .test => if s.count < n then some (s.goto t .wait) else some (s.goto t .broadcast)
  | .wait =>
    if s.holder = some t then
      let (next, waiter_queue) := uthreadEnqueue s.next s.waiter_queue t
      some ({ s with next, waiter_queue }.goto t .waitUnlock)
    else none
  | .waitUnlock =>
    if s.holder = some t then some ({ s with holder := none }.goto t .asleep) else none
  | .woken => some ({ s with holder := some t }.goto t .test)
  | .broadcast =>
    if s.holder = some t then
      match uthreadDequeue s.next s.waiter_queue with
      | (next, waiter_queue, some waiter_thread) =>
        some (uthreadUnblock { s with next, waiter_queue } waiter_thread)
      | (next, waiter_queue, none) => some ({ s with next, waiter_queue }.goto t .unlock)
    else none
  | .unlock => if s.holder = some t then some ({ s with holder := none }.goto t .print) else none
  | .print => some ({ s with printed := s.printed ++ [(t, Print.b)] }.goto t .done)
  | .asleep => some s
  | .done => some s

/-- Who can go on. -/
def Ready (s : State n) (t : Fin n) : Prop :=
  match s.pc t with
  | .toLock => s.holder = none
  | .woken => s.holder = none
  | .asleep => False
  | .done => False
  | _ => True

instance (s : State n) (t : Fin n) : Decidable (Ready s t) := by
  unfold Ready
  cases s.pc t <;> infer_instance

/-- The runs. -/
def barrierRun (n : ℕ) : Sys (Option (State n)) (Fin n) :=
  Sys.ofNext (fun s => s = start) Ready exec

/-- Nobody prints `b` before everybody has printed `a`. -/
def InOrder (s : State n) : Prop :=
  ∀ pre t post, s.printed = pre ++ (t, .b) :: post → ∀ u, (u, .a) ∈ pre

/-- Some thread has not finished, and all those wait for a wake-up. -/
def Lost (s : State n) : Prop :=
  (∃ t, s.pc t ≠ .done) ∧ ∀ t, s.pc t ≠ .done → s.pc t = .asleep

end IntroSystems.Barrier
