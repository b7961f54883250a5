import IntroSystems.Lib.Recycling
import IntroSystems.Lib.Transition
import Mathlib.Data.Int.Notation
import Mathlib.Logic.Function.Basic

/-!
# The disk

`disk.c` of assignment 9. The sections under `prq_mutex` are single steps. A pointer to an `int` is
a number, and `none` is the use of a pointer that leads nowhere.

* `tmAdd`, `tmCompare`: the clock.
* `diskScheduleRead`, `prqDequeueLockHeld`, `performDMA`.
* `drain`: what `handleTimerInterrupt` does from one `spinlock_lock` to the next `spinlock_unlock`.
* `diskRun`: reads are scheduled at any time, also while an interrupt is served, and the timer goes
  off at any time, also while `handleTimerInterrupt` is active already.
-/

set_option autoImplicit false

namespace IntroSystems.Disk

open Recycling

/-! ## The code -/

/-- `struct timeval`. Both fields have 64 bits, and wrap around. -/
structure Timeval where
  tv_sec : BitVec 64
  tv_usec : BitVec 64
  deriving DecidableEq

def READ_LATENCY_USEC : BitVec 32 := 20 * 1000

def tmAdd (tm : Timeval) (usec : BitVec 32) : Timeval :=
  let tm := { tm with tv_usec := tm.tv_usec + usec.signExtend 64 }
  if tm.tv_usec.toInt > 1000 * 1000 then ⟨tm.tv_sec + 1, tm.tv_usec - 1000 * 1000⟩
  else if tm.tv_usec.toInt < 0 then ⟨tm.tv_sec - 1, tm.tv_usec + 1000 * 1000⟩
  else tm

def tmCompare (a b : Timeval) : ℤ :=
  if a.tv_sec.toInt < b.tv_sec.toInt then -1
  else if a.tv_sec.toInt > b.tv_sec.toInt then 1
  else if a.tv_usec.toInt < b.tv_usec.toInt then -1
  else if a.tv_usec.toInt > b.tv_usec.toInt then 1
  else 0

/-- `struct PendingRead`, but for its links. -/
structure PendingRead where
  buf : ℕ
  blockNo : BitVec 32
  completeTime : Timeval

/-- The `int`s in memory. -/
abbrev Ints := ℕ → BitVec 32

/-- `now` is what `gettimeofday` gives. -/
def prqEnqueue (prq : Queue PendingRead) (buf : ℕ) (blockNo : BitVec 32) (now : Timeval) :
    Option (Queue PendingRead) :=
  prq.enqueue ⟨buf, blockNo, tmAdd now READ_LATENCY_USEC⟩

def prqDequeueLockHeld (prq : Queue PendingRead) : Option (Queue PendingRead) := prq.dequeue

def diskScheduleRead (prq : Queue PendingRead) (resultBuf : ℕ) (blockNo : BitVec 32)
    (now : Timeval) : Option (Queue PendingRead) :=
  prqEnqueue prq resultBuf blockNo now

/-- The blocks of the disk of `disk.c`. -/
def story : List (BitVec 32) :=
  [20, 21, 11, 9, 5, 29, 13, 18, 27, 10, 26, 23, 25, 4, 2, 8, 19, 0, 16, 3, 1, 22, 14, 28, 12, 24,
    15, 7, 17, 6]

/-- `story[blockno % n]`. The `n` is a `size_t`, and so becomes `blockno`. -/
def blockAt (blocks : List (BitVec 32)) (blockno : BitVec 32) : BitVec 32 :=
  blocks.getD ((blockno.signExtend 64).toNat % blocks.length) 0

def performDMA (blocks : List (BitVec 32)) (mem : Ints) (buf : ℕ) (blockno : BitVec 32) : Ints :=
  Function.update mem buf (blockAt blocks blockno)

/-- The queue of the disk, and memory. -/
structure Drive where
  prq : Queue PendingRead
  mem : Ints

/-- The condition of the loop of `handleTimerInterrupt`: the read at the front, if it is due. -/
def due (prq : Queue PendingRead) (now : Timeval) : Option (Option PendingRead) :=
  match prq.front with
  | none => some none
  | some p => (prq.cells.get p).map fun c =>
      if tmCompare c.val.completeTime now ≤ 0 then some c.val else none

/-- The condition of the loop, and its body up to `spinlock_unlock`. -/
def drain (blocks : List (BitVec 32)) (d : Drive) (now : Timeval) :
    Option (Drive × Option PendingRead) := do
  let r ← due d.prq now
  match r with
  | none => some (d, none)
  | some r => do
    let mem := performDMA blocks d.mem r.buf r.blockNo
    let prq ← prqDequeueLockHeld d.prq
    some (⟨prq, mem⟩, some r)

/-! ## Runs -/

/-- An activation of `handleTimerInterrupt`, with its `now`: in front of the loop's test, of
`deliverInterrupt` for the `k`-th read, or in the service routine. -/
inductive Activation
  | test (now : Timeval)
  | deliver (now : Timeval) (k : ℕ)
  | service (now : Timeval)

/-- What has happened. The service routine is called for the `k`-th read that was completed. -/
inductive Event
  | schedule (buf : ℕ) (blockNo : BitVec 32)
  | dma (buf : ℕ) (blockNo : BitVec 32)
  | isr (k : ℕ)

def Event.scheduled : Event → Option (ℕ × BitVec 32)
  | .schedule buf blockNo => some (buf, blockNo)
  | _ => none

def Event.completed : Event → Option (ℕ × BitVec 32)
  | .dma buf blockNo => some (buf, blockNo)
  | _ => none

def Event.served : Event → Option ℕ
  | .isr k => some k
  | _ => none

def Activation.pending : Activation → Option ℕ
  | .deliver _ k => some k
  | _ => none

structure State where
  disk : Drive
  handlers : List Activation
  log : List Event

def State.scheduled (s : State) : List (ℕ × BitVec 32) := s.log.filterMap Event.scheduled

def State.completed (s : State) : List (ℕ × BitVec 32) := s.log.filterMap Event.completed

/-- The reads for which the service routine has been called. -/
def State.served (s : State) : List ℕ := s.log.filterMap Event.served

/-- The reads for which it is about to be called. -/
def State.pending (s : State) : List ℕ := s.handlers.filterMap Activation.pending

/-- A call of `disk_schedule_read`, a signal, or the next step of an activation. -/
inductive Label
  | schedule (buf : ℕ) (blockNo : BitVec 32) (now : Timeval)
  | signal (now : Timeval)
  | handler

inductive Step (blocks : List (BitVec 32)) : State → Label → State → Prop
  | schedule {s : State} {prq : Queue PendingRead} (buf : ℕ) (blockNo : BitVec 32)
      (now : Timeval) : diskScheduleRead s.disk.prq buf blockNo now = some prq →
      Step blocks s (.schedule buf blockNo now)
        { s with disk := { s.disk with prq }, log := s.log ++ [.schedule buf blockNo] }
  | signal {s : State} (now : Timeval) :
      Step blocks s (.signal now) { s with handlers := .test now :: s.handlers }
  | complete {s : State} {pre post : List Activation} {now : Timeval} {disk : Drive}
      {r : PendingRead} : s.handlers = pre ++ .test now :: post →
      drain blocks s.disk now = some (disk, some r) →
      Step blocks s .handler
        { disk, handlers := pre ++ .deliver now s.completed.length :: post,
          log := s.log ++ [.dma r.buf r.blockNo] }
  | done {s : State} {pre post : List Activation} {now : Timeval} {disk : Drive} :
      s.handlers = pre ++ .test now :: post → drain blocks s.disk now = some (disk, none) →
      Step blocks s .handler { s with disk, handlers := pre ++ post }
  | isr {s : State} {pre post : List Activation} {now : Timeval} {k : ℕ} :
      s.handlers = pre ++ .deliver now k :: post →
      Step blocks s .handler
        { s with handlers := pre ++ .service now :: post, log := s.log ++ [.isr k] }
  | again {s : State} {pre post : List Activation} {now : Timeval} :
      s.handlers = pre ++ .service now :: post →
      Step blocks s .handler { s with handlers := pre ++ .test now :: post }

/-- The runs of the disk, from the contents `mem` of memory. -/
def diskRun (blocks : List (BitVec 32)) (mem : Ints) : Sys State Label where
  init s := s = ⟨⟨Queue.empty, mem⟩, [], []⟩
  step := Step blocks

end IntroSystems.Disk
