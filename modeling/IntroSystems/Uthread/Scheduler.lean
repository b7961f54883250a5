import IntroSystems.Lib.Transition
import Mathlib.Data.Fintype.Sum
import Mathlib.Data.List.Nodup
import Mathlib.Logic.Function.Basic
import Mathlib.Tactic.Common
import Mathlib.Tactic.DeriveFintype

/-!
# The scheduler

`uthread.c` of assignment 10 on any number of processors: the ready queue, `uthread_switch`,
`uthread_stop`, `uthread_start`, and what calls them. Each access to a `state`, and each section
under a lock, is one step. The queues in which the callers keep threads that wait are left out;
`wanted` says whether a thread is in one of them, or has been unblocked.

* `Thread`, `TS`, `Pc`, `State`, `start`; `readyQueueEnqueue`, `readyQueueDequeue`, `exec`.
* `Allowed`: what the callers keep to. `Prompt`: no thread yields or ends as long as a processor that
  has switched from it has still to look at its `state`.
* `sys`; `prompt_of_single`: on one processor all runs are prompt.
-/

set_option autoImplicit false

namespace IntroSystems.Uthread.Scheduler

/-- The threads of the program, and the base thread of each processor. -/
inductive Thread (T P : Type)
  | user (t : T)
  | base (p : P)
  deriving DecidableEq, Fintype

/-- The values of `state`. -/
inductive TS
  | nascent
  | running
  | runable
  | blocked
  | dying
  | dead
  deriving DecidableEq

/-- Where a processor is, on its way from `t` to `u`. `fs` is `from_thread_state`. -/
inductive Pc (T P : Type)
  /-- In the code of `t`. -/
  | run (t : Thread T P)
  /-- After `start_proc`, with `state` set to `TS_DYING`. -/
  | ending (t : Thread T P)
  /-- In `uthread_stop`, before `ready_queue_dequeue`. -/
  | stop (t : Thread T P) (fs : TS)
  /-- In `pthread_cond_wait`, perhaps signalled. -/
  | sleep (t : Thread T P) (fs : TS) (signalled : Bool)
  /-- In `uthread_switch`, before it sets the `state` of `t`. -/
  | switch (t u : Thread T P) (fs : TS)
  /-- In the loop, as long as `u` is running. -/
  | wait (t u : Thread T P)
  /-- On the stack of `u`, before the first test of the `state` of `t`. -/
  | after (t u : Thread T P)
  /-- Before the second test. -/
  | test (t u : Thread T P)
  /-- With `t` dying. -/
  | reap (t u : Thread T P)
  /-- With `t` runable. -/
  | requeue (t u : Thread T P)
  /-- Before the test of the `state` of `u`. -/
  | resume (u : Thread T P)
  deriving DecidableEq

/-- What a thread waits for in the queues of the callers. -/
inductive Want
  | nothing
  | waiting
  | granted
  deriving DecidableEq

/-- A thread without a descriptor has no `state`. `detached` is `joiner == -1`. -/
structure State (T P : Type) where
  state : Thread T P → Option TS
  detached : Thread T P → Bool
  ready_queue : List (Thread T P)
  pthread_num_sleeping : ℕ
  pc : P → Pc T P
  wanted : Thread T P → Want

inductive Act (T P : Type)
  /-- Into a queue of the callers. -/
  | register
  | yield
  | block
  | exit
  | unblock (u : Thread T P) (w : Option P)
  | create (u : Thread T P) (w : Option P)
  /-- The end of `uthread_join`, and `uthread_detach`. -/
  | detach (u : Thread T P)
  | go (w : Option P)

variable {T P : Type} [DecidableEq P]

section Code

variable [DecidableEq T]

/-- After `uthread_init`, which runs on the processor `boot` in the thread `main`. -/
def start (main : T) (boot : P) : State T P where
  state
    | .user t => if t = main then some .running else none
    | .base p => some (if p = boot then .nascent else .running)
  detached _ := false
  ready_queue := []
  pthread_num_sleeping := 0
  pc p := .run (if p = boot then .user main else .base p)
  wanted _ := .nothing

def State.goto (s : State T P) (p : P) (pc : Pc T P) : State T P :=
  { s with pc := Function.update s.pc p pc }

def State.set (s : State T P) (t : Thread T P) (ts : Option TS) : State T P :=
  { s with state := Function.update s.state t ts }

def State.want (s : State T P) (t : Thread T P) (w : Want) : State T P :=
  { s with wanted := Function.update s.wanted t w }

/-- `pthread_cond_signal`, which wakes `w`. -/
def signal (s : State T P) (w : Option P) : State T P :=
  match w with
  | none => s
  | some q =>
    match s.pc q with
    | .sleep t fs _ => s.goto q (.sleep t fs true)
    | _ => s

def readyQueueEnqueue (s : State T P) (t : Thread T P) (w : Option P) : State T P :=
  let s := { s with ready_queue := if t ∈ s.ready_queue then s.ready_queue else s.ready_queue ++ [t] }
  if s.pthread_num_sleeping ≠ 0 then signal s w else s

/-- One turn of the loop of `ready_queue_dequeue`, and on to `uthread_switch`. -/
def readyQueueDequeue (s : State T P) (p : P) (t : Thread T P) (fs : TS) : State T P :=
  match s.ready_queue with
  | u :: q => { s with ready_queue := q }.goto p (.switch t u fs)
  | [] =>
    if .base p = t then
      { s with pthread_num_sleeping := s.pthread_num_sleeping + 1 }.goto p (.sleep t fs false)
    else s.goto p (.switch t (.base p) fs)

/-- The next step in the scheduler. An access to a descriptor that has been freed is `none`. -/
def go (s : State T P) (p : P) (w : Option P) : Option (State T P) :=
  match s.pc p with
  | .run _ => none
  | .ending t => some (s.goto p (.stop t .dying))
  | .stop t fs => some (readyQueueDequeue s p t fs)
  -- a wait on a condition may end without a signal
  | .sleep t fs false => some (s.goto p (.sleep t fs true))
  | .sleep t fs true =>
    some ({ s with pthread_num_sleeping := s.pthread_num_sleeping - 1 }.goto p (.stop t fs))
  | .switch t u fs => (s.state t).map fun _ => (s.set t (some fs)).goto p (.wait t u)
  | .wait t u =>
    (s.state u).map fun ts => if ts = .running then s else s.goto p (.after t u)
  | .after t u =>
    (s.state t).map fun ts => s.goto p (if ts = .dying then .reap t u else .test t u)
  | .test t u =>
    (s.state t).map fun ts => s.goto p (if ts = .runable then .requeue t u else .resume u)
  | .reap t u =>
    (s.state t).map fun _ =>
      (s.set t (if s.detached t then none else some .dead)).goto p (.resume u)
  | .requeue t u => (s.state t).map fun _ => readyQueueEnqueue (s.goto p (.resume u)) t w
  | .resume u =>
    (s.state u).map fun _ => ((s.set u (some .running)).want u .nothing).goto p (.run u)

/-- The thread on a processor does something, or the processor goes on in the scheduler. -/
def exec (s : State T P) (p : P) (a : Act T P) : Option (State T P) :=
  match s.pc p, a with
  | .run t, .register => some (s.want t .waiting)
  | .run t, .yield => some (s.goto p (.stop t .runable))
  | .run t, .block => some (s.goto p (.stop t .blocked))
  | .run t, .exit => (s.state t).map fun _ => (s.set t (some .dying)).goto p (.ending t)
  | .run _, .unblock u w | .ending _, .unblock u w =>
    (s.state u).map fun _ => readyQueueEnqueue (s.want u .granted) u w
  | .run _, .create u w =>
    some (readyQueueEnqueue
      { s.set u (some .nascent) with detached := Function.update s.detached u false } u w)
  | .run _, .detach u =>
    (s.state u).map fun ts =>
      if ts = .dead then s.set u none
      else { s with detached := Function.update s.detached u true }
  | _, .go w => go s p w
  | _, _ => none

/-! ## The callers -/

/-- The thread whose code the processor is in. -/
def Pc.caller : Pc T P → Option (Thread T P)
  | .run t => some t
  | _ => none

/-- In `pthread_cond_wait`, and not signalled. -/
def Pc.asleep : Pc T P → Bool
  | .sleep _ _ false => true
  | _ => false

/-- The processor has switched from this thread, and has still to look at its `state`. -/
def Pc.leaves : Pc T P → Option (Thread T P)
  | .wait t _ | .after t _ | .test t _ | .reap t _ | .requeue t _ => some t
  | _ => none

/-- A signal wakes a processor, if one is asleep. -/
def Wakes (s : State T P) : Option P → Prop
  | some q => (s.pc q).asleep = true
  | none => ∀ q, (s.pc q).asleep = false

/-- What the callers keep to. A thread blocks once it is in a queue, and until then it neither yields
nor ends. It is unblocked as it is taken out. Descriptors are detached once, and not used after
they have been freed. `main` does not end as the other threads do, and base threads do nothing but
block. -/
def Allowed (main : T) (s : State T P) : P × Act T P → Prop
  | (p, .register) => ∃ t, s.pc p = .run (.user t) ∧ s.wanted (.user t) = .nothing
  | (p, .yield) => ∃ t, s.pc p = .run (.user t) ∧ s.wanted (.user t) = .nothing
  | (p, .exit) => ∃ t, s.pc p = .run (.user t) ∧ s.wanted (.user t) = .nothing ∧ t ≠ main
  | (p, .block) =>
    ∃ t, s.pc p = .run t ∧ ∀ u, t = .user u → s.wanted t ≠ .nothing
  | (p, .unblock u w) => (∃ t, s.pc p = .run (.user t) ∨ s.pc p = .ending (.user t)) ∧
    s.wanted u = .waiting ∧ Wakes s w
  | (p, .create u w) => (∃ t, s.pc p = .run (.user t)) ∧ (∃ t, u = .user t) ∧ s.state u = none ∧
    Wakes s w
  | (p, .detach u) => (∃ t, s.pc p = .run (.user t)) ∧ (∃ t, u = .user t) ∧ s.state u ≠ none ∧
    s.detached u = false
  | (p, .go w) => (s.pc p).caller = none ∧ Wakes s w

instance [Fintype P] (s : State T P) : ∀ w, Decidable (Wakes s w)
  | some q => inferInstanceAs (Decidable ((s.pc q).asleep = true))
  | none => inferInstanceAs (Decidable (∀ q, (s.pc q).asleep = false))

instance [Fintype T] [Fintype P] (main : T) (s : State T P) : ∀ l, Decidable (Allowed main s l)
  | (p, .register) | (p, .yield) =>
    inferInstanceAs (Decidable (∃ t, s.pc p = .run (.user t) ∧ s.wanted (.user t) = .nothing))
  | (p, .exit) => inferInstanceAs (Decidable
    (∃ t, s.pc p = .run (.user t) ∧ s.wanted (.user t) = .nothing ∧ t ≠ main))
  | (p, .block) => inferInstanceAs (Decidable
    (∃ t, s.pc p = .run t ∧ ∀ u, t = .user u → s.wanted t ≠ .nothing))
  | (p, .unblock u w) => inferInstanceAs (Decidable
    ((∃ t, s.pc p = .run (.user t) ∨ s.pc p = .ending (.user t)) ∧ s.wanted u = .waiting ∧ Wakes s w))
  | (p, .create u w) => inferInstanceAs (Decidable
    ((∃ t, s.pc p = .run (.user t)) ∧ (∃ t, u = .user t) ∧ s.state u = none ∧ Wakes s w))
  | (p, .detach u) => inferInstanceAs (Decidable
    ((∃ t, s.pc p = .run (.user t)) ∧ (∃ t, u = .user t) ∧ s.state u ≠ none ∧ s.detached u = false))
  | (p, .go w) => inferInstanceAs (Decidable ((s.pc p).caller = none ∧ Wakes s w))

/-- The runs of the processors. -/
def sys (main : T) (boot : P) : Sys (Option (State T P)) (P × Act T P) :=
  Sys.ofNext (fun s => s = start main boot) (Allowed main) fun s l => exec s l.1 l.2

/-- The step does not let a thread yield or end while some processor has still to look at its
`state`. -/
def Prompt : Option (State T P) → P × Act T P → Prop
  | some s, (p, .yield) | some s, (p, .exit) =>
    ∀ t, s.pc p = .run t → ∀ q, (s.pc q).leaves ≠ some t
  | _, _ => True

instance [Fintype T] [Fintype P] (s : State T P) : ∀ l, Decidable (Prompt (some s) l)
  | (p, .yield) | (p, .exit) =>
    inferInstanceAs (Decidable (∀ t, s.pc p = .run t → ∀ q, (s.pc q).leaves ≠ some t))
  | (_, .register) | (_, .block) | (_, .unblock _ _) | (_, .create _ _) | (_, .detach _)
  | (_, .go _) => inferInstanceAs (Decidable True)

end Code

end IntroSystems.Uthread.Scheduler
