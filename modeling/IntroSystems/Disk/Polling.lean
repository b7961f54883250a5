import IntroSystems.Disk.Order
import Mathlib.Data.List.Infix
import Mathlib.Logic.Function.Iterate

/-!
# Programs that poll for their reads

What `main` of `sRead.c` and of `treasureHunt.c` have in common: `is_read_pending` is set, a read is
scheduled, and `main` goes on when the interrupt has cleared the flag. They differ in the blocks they
ask for and in what they make of `result`: a `Program`.

* `main`, `handle`: the steps of `main` and of `handleTimerInterrupt`. The timer may go off at any
  time, also while a read is delivered.
* `sync`: one read of a disk that has no latency.
* `Stage`: where the read is that was scheduled last; `Inv`: the run so far is a run of `sync`.
* `Inv.main`, `Inv.handle`: each step keeps it; `polling_inv`: it holds in every run.
* `Inv.finishes`: a program that comes to an end on a disk without latency can always do so;
  **`polling_prints`**: it prints the same.
-/

set_option autoImplicit false

namespace IntroSystems.Disk.Polling

open Recycling

/-! ## The code -/

/-- What `disk.c` is compiled with. -/
structure Device where
  story : List (BitVec 32)
  READ_LATENCY_USEC : BitVec 32

/-- A `main` with the local variables `L`, beside `result`. -/
structure Program (L : Type) where
  start : L
  /-- The block that is read next, where the value of `result` may be used. -/
  next : L → BitVec 32 → Option (BitVec 32)
  /-- What happens after the polling loop. -/
  resume : L → BitVec 32 → L
  print : L → BitVec 32 → BitVec 32

/-- `main` is in front of `is_read_pending = 1`, of `disk_schedule_read`, in the polling loop, after
it, or at its end. -/
inductive Pc
  | next
  | schedule (blockno : BitVec 32)
  | poll
  | resume
  | done
  deriving DecidableEq

/-- An activation of `handleTimerInterrupt`: in front of the loop's test, of the service routine, or
after it. -/
inductive Handler
  | test (now : Timeval)
  | deliver (now : Timeval)
  | service (now : Timeval)
  deriving DecidableEq

def Handler.delivering : Handler → Bool
  | .deliver _ => true
  | _ => false

inductive Event
  | scheduled (blockno : BitVec 32)
  | dma (buf : ℕ) (blockno : BitVec 32)
  | isr
  | left
  deriving DecidableEq

structure State (L : Type) where
  pc : Pc
  locals : L
  is_read_pending : Bool
  disk : Drive
  handlers : List Handler
  printed : Option (BitVec 32)
  log : List Event

variable {L : Type}

/-- The next step of `main`; `now` is the clock, and `result` is at `buf`. -/
def main (dev : Device) (P : Program L) (buf : ℕ) (now : Timeval) (s : State L) :
    Option (State L) :=
  match s.pc with
  | .next =>
    match P.next s.locals (s.disk.mem buf) with
    | some blockno => some { s with is_read_pending := true, pc := .schedule blockno }
    | none => some { s with printed := some (P.print s.locals (s.disk.mem buf)), pc := .done }
  | .schedule blockno =>
    (s.disk.prq.enqueue ⟨buf, blockno, tmAdd now dev.READ_LATENCY_USEC⟩).map fun prq =>
      { s with disk := { s.disk with prq }, pc := .poll, log := s.log ++ [.scheduled blockno] }
  | .poll =>
    if s.is_read_pending then some s
    else some { s with pc := .resume, log := s.log ++ [.left] }
  | .resume => some { s with locals := P.resume s.locals (s.disk.mem buf), pc := .next }
  | .done => some s

/-- The next step of the activation between `pre` and `post`. -/
def handle (dev : Device) (pre post : List Handler) (a : Handler) (s : State L) : Option (State L) :=
  match a with
  | .test now =>
    (drain dev.story s.disk now).map fun r =>
      match r.2 with
      | none => { s with disk := r.1, handlers := pre ++ post }
      | some pr => { s with
          disk := r.1, handlers := pre ++ .deliver now :: post,
          log := s.log ++ [.dma pr.buf pr.blockNo] }
  | .deliver now => some { s with
      is_read_pending := false, handlers := pre ++ .service now :: post, log := s.log ++ [.isr] }
  | .service now => some { s with handlers := pre ++ .test now :: post }

/-! ## Runs -/

inductive Label
  | main (now : Timeval)
  | timer (now : Timeval)
  | handler (pre : List Handler) (a : Handler) (post : List Handler)

def Allowed (s : State L) : Label → Prop
  | .main _ => s.pc ≠ .done
  | .timer _ => True
  | .handler pre a post => s.handlers = pre ++ a :: post

instance : ∀ (s : State L) (l : Label), Decidable (Allowed s l)
  | s, .main _ => inferInstanceAs (Decidable (s.pc ≠ .done))
  | _, .timer _ => inferInstanceAs (Decidable True)
  | s, .handler pre a post => inferInstanceAs (Decidable (s.handlers = pre ++ a :: post))

def next (dev : Device) (P : Program L) (buf : ℕ) (s : State L) : Label → Option (State L)
  | .main now => main dev P buf now s
  | .timer now => some { s with handlers := .test now :: s.handlers }
  | .handler pre a post => handle dev pre post a s

def start (P : Program L) (mem : Ints) : State L where
  pc := .next
  locals := P.start
  is_read_pending := false
  disk := ⟨Queue.empty, mem⟩
  handlers := []
  printed := none
  log := []

/-- The runs, from any contents of memory. -/
def pollingRun (dev : Device) (P : Program L) (buf : ℕ) : Sys (Option (State L)) Label :=
  Sys.ofNext (fun s => ∃ mem, s = start P mem) Allowed (next dev P buf)

/-! ## The same program on a disk without latency -/

/-- One read: the local variables and `result` after it. -/
def sync (story : List (BitVec 32)) (P : Program L) (x : L × BitVec 32) : L × BitVec 32 :=
  match P.next x.1 x.2 with
  | none => x
  | some blockno => (P.resume x.1 (blockAt story blockno), blockAt story blockno)

/-- The events of one read. -/
def round (buf : ℕ) (blockno : BitVec 32) : List Event :=
  [.scheduled blockno, .dma buf blockno, .isr, .left]

/-- Where the read is that was scheduled last. -/
inductive Stage
  | idle
  | requested (blockno : BitVec 32)
  | waiting (blockno : BitVec 32)
  | completed (blockno : BitVec 32)
  | served (blockno : BitVec 32)
  | used (blockno : BitVec 32)
  | ended
  deriving DecidableEq

namespace Stage

def pc : Stage → Pc
  | idle => .next
  | requested blockno => .schedule blockno
  | waiting _ | completed _ | served _ => .poll
  | used _ => .resume
  | ended => .done

/-- The read that `main` has asked for, until it has used it. -/
def block : Stage → Option (BitVec 32)
  | requested b | waiting b | completed b | served b | used b => some b
  | idle | ended => none

def pending : Stage → Bool
  | requested _ | waiting _ | completed _ => true
  | _ => false

/-- What waits in the queue of the disk. -/
def queue (buf : ℕ) : Stage → List (ℕ × BitVec 32)
  | waiting b => [(buf, b)]
  | _ => []

/-- How many activations are about to call the service routine. -/
def delivering : Stage → ℕ
  | completed _ => 1
  | _ => 0

/-- What is in `result`, if `r` was there before the read. -/
def result (story : List (BitVec 32)) (r : BitVec 32) : Stage → BitVec 32
  | completed b | served b | used b => blockAt story b
  | _ => r

def events (buf : ℕ) : Stage → List Event
  | waiting b => [.scheduled b]
  | completed b => [.scheduled b, .dma buf b]
  | served b => [.scheduled b, .dma buf b, .isr]
  | used b => round buf b
  | _ => []

end Stage

/-- After `k` reads and with another one at `stage`; `x` is what `sync` makes of `k` reads. -/
structure Inv (dev : Device) (P : Program L) (buf : ℕ) (s : State L) (x : L × BitVec 32)
    (bs : List (BitVec 32)) (stage : Stage) : Prop where
  pc : s.pc = stage.pc
  locals : s.locals = x.1
  mem : s.disk.mem buf = stage.result dev.story x.2
  block : ∀ b, stage.block = some b → P.next x.1 x.2 = some b
  rep : ∃ line spare, Recycles s.disk.prq line spare ∧
    line.map (fun y => y.2.request) = stage.queue buf
  delivering : s.handlers.countP Handler.delivering = stage.delivering
  pending : s.is_read_pending = stage.pending
  printed : s.printed = if stage = .ended then some (P.print x.1 x.2) else none
  ended : stage = .ended → P.next x.1 x.2 = none
  log : s.log = bs.flatMap (round buf) ++ stage.events buf

variable {dev : Device} {P : Program L} {buf : ℕ} {s : State L} {x : L × BitVec 32}
  {bs : List (BitVec 32)} {stage : Stage} {pre post : List Handler} {now : Timeval} {a : Handler}

theorem inv_start (mem : Ints) : Inv dev P buf (start P mem) (P.start, mem buf) [] .idle where
  pc := rfl
  locals := rfl
  mem := rfl
  block := fun b h => by cases h
  rep := ⟨[], [], .empty, rfl⟩
  delivering := rfl
  pending := rfl
  printed := rfl
  ended := fun h => by cases h
  log := rfl

theorem sync_some {b : BitVec 32} (h : P.next x.1 x.2 = some b) :
    sync dev.story P x = (P.resume x.1 (blockAt dev.story b), blockAt dev.story b) := by
  rw [sync, h]

/-! ## Steps of `main` -/

section Main

variable (now)

theorem Inv.main_idle_some (hi : Inv dev P buf s x bs .idle) {b : BitVec 32}
    (hb : P.next x.1 x.2 = some b) :
    ∃ s', main dev P buf now s = some s' ∧ Inv dev P buf s' x bs (.requested b) := by
  have hmem : s.disk.mem buf = x.2 := hi.mem
  unfold Polling.main
  rw [hi.pc]
  dsimp only [Stage.pc]
  rw [hi.locals, hmem, hb]
  refine ⟨_, rfl, rfl, rfl, hi.mem, fun b' h' => ?_, hi.rep, hi.delivering, rfl, hi.printed,
    fun h => ?_, hi.log⟩
  · cases h'
    exact hb
  · cases h

theorem Inv.main_idle_none (hi : Inv dev P buf s x bs .idle) (hb : P.next x.1 x.2 = none) :
    ∃ s', main dev P buf now s = some s' ∧ Inv dev P buf s' x bs .ended := by
  have hmem : s.disk.mem buf = x.2 := hi.mem
  unfold Polling.main
  rw [hi.pc]
  dsimp only [Stage.pc]
  rw [hi.locals, hmem, hb]
  exact ⟨_, rfl, rfl, rfl, hi.mem, hi.block, hi.rep, hi.delivering, hi.pending,
    by rw [if_pos rfl], fun _ => hb, hi.log⟩

theorem Inv.main_requested {b : BitVec 32} (hi : Inv dev P buf s x bs (.requested b)) :
    ∃ s', main dev P buf now s = some s' ∧ Inv dev P buf s' x bs (.waiting b) := by
  obtain ⟨line, spare, hr, hline⟩ := hi.rep
  obtain ⟨prq, p, spare', henq, hr'⟩ := hr.enqueue ⟨buf, b, tmAdd now dev.READ_LATENCY_USEC⟩
  have hnil : line = [] := List.map_eq_nil_iff.mp hline
  unfold Polling.main
  rw [hi.pc]
  dsimp only [Stage.pc]
  rw [henq]
  refine ⟨_, rfl, rfl, hi.locals, hi.mem, hi.block, ⟨_, spare', hr', ?_⟩, hi.delivering,
    hi.pending, hi.printed, fun h => ?_, ?_⟩
  · rw [hnil]
    rfl
  · cases h
  · have hlog := hi.log
    simp only [Stage.events, List.append_nil] at hlog
    simp only [Stage.events, hlog]

theorem Inv.main_poll (hi : Inv dev P buf s x bs stage) (hpc : stage.pc = .poll)
    (hp : stage.pending = true) : main dev P buf now s = some s := by
  unfold Polling.main
  rw [hi.pc, hpc]
  dsimp only
  rw [hi.pending, hp, if_pos rfl]

theorem Inv.main_served {b : BitVec 32} (hi : Inv dev P buf s x bs (.served b)) :
    ∃ s', main dev P buf now s = some s' ∧ Inv dev P buf s' x bs (.used b) := by
  have hpend : s.is_read_pending = false := hi.pending
  unfold Polling.main
  rw [hi.pc]
  dsimp only [Stage.pc]
  rw [hpend, if_neg Bool.false_ne_true]
  refine ⟨_, rfl, rfl, hi.locals, hi.mem, hi.block, hi.rep, hi.delivering, rfl, hi.printed,
    fun h => ?_, ?_⟩
  · cases h
  · rw [hi.log, List.append_assoc]
    rfl

/-- **`main` uses what the read has given.** -/
theorem Inv.main_used {b : BitVec 32} (hi : Inv dev P buf s x bs (.used b)) :
    ∃ s', main dev P buf now s = some s' ∧
      Inv dev P buf s' (sync dev.story P x) (bs ++ [b]) .idle := by
  have hmem : s.disk.mem buf = blockAt dev.story b := hi.mem
  unfold Polling.main
  rw [hi.pc, sync_some (hi.block b rfl)]
  dsimp only [Stage.pc]
  refine ⟨_, rfl, rfl, ?_, hmem, fun b' h => ?_, hi.rep, hi.delivering, hi.pending, hi.printed,
    fun h => ?_, ?_⟩
  · rw [hi.locals, hmem]
  · cases h
  · cases h
  · rw [hi.log, List.flatMap_append]
    simp [Stage.events]

theorem Inv.main (hi : Inv dev P buf s x bs stage) :
    ∃ s', Polling.main dev P buf now s = some s' ∧
      ((∃ stage', Inv dev P buf s' x bs stage') ∨
        ∃ b, Inv dev P buf s' (sync dev.story P x) (bs ++ [b]) .idle) := by
  cases stage with
  | idle =>
    cases hb : P.next x.1 x.2 with
    | none =>
      obtain ⟨s', hs, hi'⟩ := hi.main_idle_none now hb
      exact ⟨s', hs, .inl ⟨_, hi'⟩⟩
    | some b =>
      obtain ⟨s', hs, hi'⟩ := hi.main_idle_some now hb
      exact ⟨s', hs, .inl ⟨_, hi'⟩⟩
  | requested b =>
    obtain ⟨s', hs, hi'⟩ := hi.main_requested now
    exact ⟨s', hs, .inl ⟨_, hi'⟩⟩
  | waiting b | completed b => exact ⟨s, hi.main_poll now rfl rfl, .inl ⟨_, hi⟩⟩
  | served b =>
    obtain ⟨s', hs, hi'⟩ := hi.main_served now
    exact ⟨s', hs, .inl ⟨_, hi'⟩⟩
  | used b =>
    obtain ⟨s', hs, hi'⟩ := hi.main_used now
    exact ⟨s', hs, .inr ⟨b, hi'⟩⟩
  | ended =>
    refine ⟨s, ?_, .inl ⟨_, hi⟩⟩
    unfold Polling.main
    rw [hi.pc]
    rfl

end Main

/-! ## Steps of the interrupt handler -/

theorem Inv.move (hi : Inv dev P buf s x bs stage) {handlers : List Handler}
    (h : handlers.countP Handler.delivering = s.handlers.countP Handler.delivering) :
    Inv dev P buf { s with handlers } x bs stage :=
  { hi with delivering := h.trans hi.delivering }

theorem countP_insert (pre post : List Handler) (a : Handler) :
    (pre ++ a :: post).countP Handler.delivering =
      (pre ++ post).countP Handler.delivering + if a.delivering then 1 else 0 := by
  rw [List.countP_append, List.countP_append, List.countP_cons]
  omega

theorem Inv.waits (hi : Inv dev P buf s x bs stage) {p : ℕ} {r : PendingRead}
    {rest : List (ℕ × PendingRead)}
    (hline : ((p, r) :: rest).map (fun y => y.2.request) = stage.queue buf) :
    ∃ b, stage = .waiting b ∧ r.buf = buf ∧ r.blockNo = b ∧ rest = [] := by
  cases stage with
  | waiting b =>
    obtain ⟨hreq, hrest⟩ := List.cons.inj hline
    obtain ⟨hbuf, hb⟩ := Prod.mk.inj hreq
    exact ⟨b, rfl, hbuf, hb, List.map_eq_nil_iff.mp hrest⟩
  | idle | requested b | completed b | served b | used b | ended => cases hline

/-- **The read is completed**, and `result` is the block. -/
theorem Inv.dma {b : BitVec 32} (hi : Inv dev P buf s x bs (.waiting b)) {prq : Queue PendingRead}
    {spare : List ℕ} (hr : Recycles prq [] spare) (hh : s.handlers = pre ++ .test now :: post) :
    Inv dev P buf { s with
      disk := ⟨prq, performDMA dev.story s.disk.mem buf b⟩, handlers := pre ++ .deliver now :: post,
      log := s.log ++ [.dma buf b] } x bs (.completed b) := by
  have hcount := hi.delivering
  rw [hh, countP_insert] at hcount
  refine ⟨hi.pc, hi.locals, ?_, hi.block, ⟨[], spare, hr, rfl⟩, ?_, hi.pending, hi.printed,
    fun h => ?_, ?_⟩
  · exact Function.update_self buf _ s.disk.mem
  · rw [countP_insert]
    exact congrArg (· + 1) hcount
  · cases h
  · rw [hi.log, List.append_assoc]
    rfl

theorem Inv.handle_test (hi : Inv dev P buf s x bs stage)
    (hh : s.handlers = pre ++ .test now :: post) :
    ∃ s', handle dev pre post (.test now) s = some s' ∧ ∃ stage', Inv dev P buf s' x bs stage' := by
  obtain ⟨line, spare, hr, hline⟩ := hi.rep
  rcases drain_spec dev.story hr now with hdrain | ⟨p, r, rest, prq, rfl, hdrain, hr'⟩
  · refine ⟨_, congrArg (Option.map _) hdrain, stage, hi.move ?_⟩
    rw [hh, countP_insert]
    rfl
  · obtain ⟨b, rfl, rfl, rfl, rfl⟩ := hi.waits hline
    exact ⟨_, congrArg (Option.map _) hdrain, _, hi.dma hr' hh⟩

theorem Inv.handle_deliver (hi : Inv dev P buf s x bs stage)
    (hh : s.handlers = pre ++ .deliver now :: post) :
    ∃ s' b, handle dev pre post (.deliver now) s = some s' ∧ stage = .completed b ∧
      Inv dev P buf s' x bs (.served b) := by
  have hcount : (pre ++ post).countP Handler.delivering + 1 = stage.delivering := by
    rw [← hi.delivering, hh, countP_insert]
    rfl
  cases stage with
  | completed b =>
    refine ⟨_, b, rfl, rfl, hi.pc, hi.locals, hi.mem, hi.block, hi.rep, ?_, rfl, hi.printed,
      fun h => ?_, ?_⟩
    · rw [countP_insert]
      exact Nat.succ_injective hcount
    · cases h
    · rw [hi.log, List.append_assoc]
      rfl
  | idle | requested b | waiting b | served b | used b | ended => cases hcount

theorem Inv.handle (hi : Inv dev P buf s x bs stage) (hh : s.handlers = pre ++ a :: post) :
    ∃ s', Polling.handle dev pre post a s = some s' ∧ ∃ stage', Inv dev P buf s' x bs stage' := by
  cases a with
  | test now => exact hi.handle_test hh
  | deliver now =>
    obtain ⟨s', b, hs, -, hi'⟩ := hi.handle_deliver hh
    exact ⟨s', hs, _, hi'⟩
  | service now =>
    refine ⟨_, rfl, stage, hi.move ?_⟩
    rw [hh, countP_insert, countP_insert]
    rfl

/-! ## Runs -/

/-- After `k` reads, from the value `r` of `result`. -/
def After (dev : Device) (P : Program L) (buf : ℕ) (r : BitVec 32) (k : ℕ) (s : State L) : Prop :=
  ∃ bs stage, bs.length = k ∧ Inv dev P buf s ((sync dev.story P)^[k] (P.start, r)) bs stage

variable {r : BitVec 32} {k : ℕ}

theorem Inv.used_after {b : BitVec 32}
    (hi : Inv dev P buf s (sync dev.story P ((sync dev.story P)^[k] (P.start, r))) (bs ++ [b])
      stage) (hk : bs.length = k) : After dev P buf r (k + 1) s := by
  refine ⟨bs ++ [b], stage, ?_, ?_⟩
  · rw [List.length_append, hk]
    rfl
  · rw [Function.iterate_succ_apply']
    exact hi

/-- **Every run is a run without latency**, with a part of another read. -/
theorem polling_inv {o : Option (State L)} (h : (pollingRun dev P buf).Reach o) :
    ∃ s, o = some s ∧ ∃ r k, After dev P buf r k s := by
  have h := Sys.Reach.restrict_of_forall (fun _ _ => trivial) h
  refine Sys.Reach.defined (P := fun _ _ => True) ?_ ?_ h
  · rintro s ⟨mem, rfl⟩
    exact ⟨mem buf, 0, [], .idle, rfl, inv_start mem⟩
  · rintro s l ⟨r, k, bs, stage, hk, hi⟩ hallowed -
    cases l with
    | main now =>
      obtain ⟨s', hs, ⟨stage', hi'⟩ | ⟨b, hi'⟩⟩ := hi.main now
      · exact ⟨s', hs, r, k, bs, stage', hk, hi'⟩
      · exact ⟨s', hs, r, k + 1, hi'.used_after hk⟩
    | timer now => exact ⟨_, rfl, r, k, bs, stage, hk, hi.move (by rw [List.countP_cons]; rfl)⟩
    | handler pre a post =>
      obtain ⟨s', hs, stage', hi'⟩ := hi.handle hallowed
      exact ⟨s', hs, r, k, bs, stage', hk, hi'⟩

/-! ## What every run shows -/

/-- At most one read is outstanding, and reads are used one after another, each when its DMA and its
interrupt have been. -/
structure Synchronous (buf : ℕ) (s : State L) : Prop where
  outstanding : ∃ line spare, Recycles s.disk.prq line spare ∧ line.length ≤ 1
  order : ∃ (bs : List (BitVec 32)) (part : List Event) (b : BitVec 32),
    s.log = bs.flatMap (round buf) ++ part ∧ part <+: round buf b

theorem Inv.synchronous (hi : Inv dev P buf s x bs stage) : Synchronous buf s := by
  obtain ⟨line, spare, hr, hline⟩ := hi.rep
  refine ⟨⟨line, spare, hr, ?_⟩, bs, _, stage.block.getD 0, hi.log, ?_⟩
  · rw [← List.length_map, hline]
    cases stage <;> simp [Stage.queue]
  · cases stage <;> simp [Stage.events, Stage.block, round]

theorem After.printed (h : After dev P buf r k s) {v : BitVec 32} (hv : s.printed = some v) :
    P.next ((sync dev.story P)^[k] (P.start, r)).1 ((sync dev.story P)^[k] (P.start, r)).2 = none ∧
      v = P.print ((sync dev.story P)^[k] (P.start, r)).1 ((sync dev.story P)^[k] (P.start, r)).2 := by
  obtain ⟨bs, stage, -, hi⟩ := h
  have hprinted := hi.printed
  by_cases hended : stage = .ended
  · rw [if_pos hended, hv] at hprinted
    exact ⟨hi.ended hended, Option.some.inj hprinted⟩
  · rw [if_neg hended, hv] at hprinted
    cases hprinted

/-! ## To the end of a read -/

section Progress

variable {b : BitVec 32}

theorem Inv.moves_main {s' : State L} (hi : Inv dev P buf s x bs stage) (hpc : stage.pc ≠ .done)
    (hs : Polling.main dev P buf now s = some s') :
    (pollingRun dev P buf).Moves (some s) (some s') := by
  rw [← hi.pc] at hpc
  exact .single (.main now) ⟨s, rfl, hpc, hs⟩

theorem moves_timer (now : Timeval) : (pollingRun dev P buf).Moves (some s)
    (some { s with handlers := .test now :: s.handlers }) :=
  .single (.timer now) ⟨s, rfl, trivial, rfl⟩

theorem moves_handler {s' : State L} (hh : s.handlers = pre ++ a :: post)
    (hs : handle dev pre post a s = some s') : (pollingRun dev P buf).Moves (some s) (some s') :=
  .single (.handler pre a post) ⟨s, rfl, hh, hs⟩

theorem Inv.finish_used (hi : Inv dev P buf s x bs (.used b)) :
    ∃ s', (pollingRun dev P buf).Moves (some s) (some s') ∧
      Inv dev P buf s' (sync dev.story P x) (bs ++ [b]) .idle := by
  obtain ⟨s', hs, hi'⟩ := hi.main_used ⟨0, 0⟩
  exact ⟨s', hi.moves_main Pc.noConfusion hs, hi'⟩

theorem Inv.finish_served (hi : Inv dev P buf s x bs (.served b)) :
    ∃ s', (pollingRun dev P buf).Moves (some s) (some s') ∧
      Inv dev P buf s' (sync dev.story P x) (bs ++ [b]) .idle := by
  obtain ⟨s₁, hs₁, hi₁⟩ := hi.main_served ⟨0, 0⟩
  obtain ⟨s', hmoves, hi'⟩ := hi₁.finish_used
  exact ⟨s', (hi.moves_main Pc.noConfusion hs₁).trans hmoves, hi'⟩

theorem Inv.finish_completed (hi : Inv dev P buf s x bs (.completed b)) :
    ∃ s', (pollingRun dev P buf).Moves (some s) (some s') ∧
      Inv dev P buf s' (sync dev.story P x) (bs ++ [b]) .idle := by
  have hpos : 0 < s.handlers.countP Handler.delivering := by
    rw [hi.delivering]
    exact Nat.one_pos
  obtain ⟨a, hmem, ha⟩ := List.countP_pos_iff.mp hpos
  obtain ⟨pre, post, hh⟩ := List.append_of_mem hmem
  cases a with
  | deliver now =>
    obtain ⟨s₁, b', hs₁, hb, hi₁⟩ := hi.handle_deliver hh
    cases hb
    obtain ⟨s', hmoves, hi'⟩ := hi₁.finish_served
    exact ⟨s', (moves_handler hh hs₁).trans hmoves, hi'⟩
  | test now | service now => cases ha

theorem Inv.finish_waiting (hi : Inv dev P buf s x bs (.waiting b)) :
    ∃ s', (pollingRun dev P buf).Moves (some s) (some s') ∧
      Inv dev P buf s' (sync dev.story P x) (bs ++ [b]) .idle := by
  obtain ⟨line, spare, hr, hline⟩ := hi.rep
  cases line with
  | nil => cases hline
  | cons y rest =>
    obtain ⟨p, pr⟩ := y
    obtain ⟨prq, hr', hdrain⟩ := drain_cons dev.story hr pr.completeTime
    rw [if_pos (by simp [tmCompare])] at hdrain
    obtain ⟨b', hb, rfl, rfl, rfl⟩ := hi.waits hline
    cases hb
    have hi₁ : Inv dev P pr.buf { s with handlers := .test pr.completeTime :: s.handlers } x bs
        (.waiting pr.blockNo) := hi.move (by rw [List.countP_cons]; rfl)
    have hh : ({ s with handlers := .test pr.completeTime :: s.handlers } : State L).handlers =
        [] ++ .test pr.completeTime :: s.handlers := rfl
    have hdma : (pollingRun dev P pr.buf).Moves _ _ :=
      moves_handler hh (congrArg (Option.map _) hdrain)
    obtain ⟨s', hmoves, hi'⟩ := (hi₁.dma hr' hh).finish_completed
    exact ⟨s', ((moves_timer _).trans hdma).trans hmoves, hi'⟩

theorem Inv.finish_requested (hi : Inv dev P buf s x bs (.requested b)) :
    ∃ s', (pollingRun dev P buf).Moves (some s) (some s') ∧
      Inv dev P buf s' (sync dev.story P x) (bs ++ [b]) .idle := by
  obtain ⟨s₁, hs₁, hi₁⟩ := hi.main_requested ⟨0, 0⟩
  obtain ⟨s', hmoves, hi'⟩ := hi₁.finish_waiting
  exact ⟨s', (hi.moves_main Pc.noConfusion hs₁).trans hmoves, hi'⟩

/-- **A read comes to its end**, or the program does. -/
theorem Inv.finish (hi : Inv dev P buf s x bs stage) :
    ∃ s', (pollingRun dev P buf).Moves (some s) (some s') ∧
      (Inv dev P buf s' x bs .ended ∨
        ∃ b, Inv dev P buf s' (sync dev.story P x) (bs ++ [b]) .idle) := by
  cases stage with
  | idle =>
    cases hb : P.next x.1 x.2 with
    | none =>
      obtain ⟨s', hs, hi'⟩ := hi.main_idle_none ⟨0, 0⟩ hb
      exact ⟨s', hi.moves_main Pc.noConfusion hs, .inl hi'⟩
    | some b =>
      obtain ⟨s₁, hs₁, hi₁⟩ := hi.main_idle_some ⟨0, 0⟩ hb
      obtain ⟨s', hmoves, hi'⟩ := hi₁.finish_requested
      exact ⟨s', (hi.moves_main Pc.noConfusion hs₁).trans hmoves,
        .inr ⟨b, hi'⟩⟩
  | requested b =>
    obtain ⟨s', hmoves, hi'⟩ := hi.finish_requested
    exact ⟨s', hmoves, .inr ⟨b, hi'⟩⟩
  | waiting b =>
    obtain ⟨s', hmoves, hi'⟩ := hi.finish_waiting
    exact ⟨s', hmoves, .inr ⟨b, hi'⟩⟩
  | completed b =>
    obtain ⟨s', hmoves, hi'⟩ := hi.finish_completed
    exact ⟨s', hmoves, .inr ⟨b, hi'⟩⟩
  | served b =>
    obtain ⟨s', hmoves, hi'⟩ := hi.finish_served
    exact ⟨s', hmoves, .inr ⟨b, hi'⟩⟩
  | used b =>
    obtain ⟨s', hmoves, hi'⟩ := hi.finish_used
    exact ⟨s', hmoves, .inr ⟨b, hi'⟩⟩
  | ended => exact ⟨s, .refl _, .inl hi⟩

/-- **A program can always come to its end** if it does so on a disk without latency. -/
theorem Inv.finishes {n : ℕ} (hi : Inv dev P buf s x bs stage)
    (hn : P.next ((sync dev.story P)^[n] x).1 ((sync dev.story P)^[n] x).2 = none) :
    ∃ s' v, (pollingRun dev P buf).Moves (some s) (some s') ∧ s'.printed = some v := by
  induction n generalizing s x bs stage with
  | zero =>
    obtain ⟨s₁, hmoves, hi₁ | ⟨b, hi₁⟩⟩ := hi.finish
    · exact ⟨s₁, _, hmoves, by rw [hi₁.printed, if_pos rfl]⟩
    · -- there is nothing left to read
      rw [sync, (show P.next x.1 x.2 = none from hn)] at hi₁
      obtain ⟨s', hs, hi'⟩ := hi₁.main_idle_none ⟨0, 0⟩ hn
      exact ⟨s', _, hmoves.trans (hi₁.moves_main Pc.noConfusion hs), by rw [hi'.printed, if_pos rfl]⟩
  | succ n ih =>
    obtain ⟨s₁, hmoves, hi₁ | ⟨b, hi₁⟩⟩ := hi.finish
    · exact ⟨s₁, _, hmoves, by rw [hi₁.printed, if_pos rfl]⟩
    · rw [Function.iterate_succ_apply] at hn
      obtain ⟨s', v, hmoves', hv⟩ := ih hi₁ hn
      exact ⟨s', v, hmoves.trans hmoves', hv⟩

theorem sync_iterate_none (story : List (BitVec 32)) (hn : P.next x.1 x.2 = none) (n : ℕ) :
    (sync story P)^[n] x = x := by
  have hfix : sync story P x = x := by rw [sync, hn]
  exact Function.iterate_fixed hfix n

/-- No pointer leads astray, one read comes after another, and `v`, and nothing else, can always be
printed in the end. -/
structure Prints (dev : Device) (P : Program L) (buf : ℕ) (v : BitVec 32) (s : State L) : Prop where
  synchronous : Synchronous buf s
  printed : ∀ w, s.printed = some w → w = v
  finishes : ∃ s', (pollingRun dev P buf).Moves (some s) (some s') ∧ s'.printed = some v

variable {v : BitVec 32}

/-- **Polling programs print what they print on a disk without latency.** -/
theorem polling_prints (hend : ∀ r, ∃ n, P.next ((sync dev.story P)^[n] (P.start, r)).1
      ((sync dev.story P)^[n] (P.start, r)).2 = none)
    (hv : ∀ r k, P.next ((sync dev.story P)^[k] (P.start, r)).1
        ((sync dev.story P)^[k] (P.start, r)).2 = none →
      P.print ((sync dev.story P)^[k] (P.start, r)).1
        ((sync dev.story P)^[k] (P.start, r)).2 = v)
    {o : Option (State L)} (h : (pollingRun dev P buf).Reach o) :
    ∃ s, o = some s ∧ Prints dev P buf v s := by
  have hprinted : ∀ s, (pollingRun dev P buf).Reach (some s) → ∀ w, s.printed = some w → w = v := by
    intro s hs w hw
    obtain ⟨_, heq, r, k, hafter⟩ := polling_inv hs
    cases heq
    obtain ⟨hnone, rfl⟩ := hafter.printed hw
    exact hv r k hnone
  obtain ⟨s, rfl, r, k, bs, stage, -, hi⟩ := polling_inv h
  refine ⟨s, rfl, hi.synchronous, hprinted s h, ?_⟩
  obtain ⟨n, hn⟩ := hend r
  have hsame : (sync dev.story P)^[n] ((sync dev.story P)^[k] (P.start, r)) =
      (sync dev.story P)^[n] (P.start, r) := by
    rw [← Function.iterate_add_apply, Nat.add_comm, Function.iterate_add_apply]
    exact sync_iterate_none dev.story hn k
  rw [← hsame] at hn
  obtain ⟨s', w, hmoves, hw⟩ := hi.finishes hn
  obtain rfl := hprinted s' (h.moves hmoves) w hw
  exact ⟨s', hmoves, hw⟩

end Progress

end IntroSystems.Disk.Polling
