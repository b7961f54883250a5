import IntroSystems.Lib.Monitor
import IntroSystems.Uthread.Queue

/-!
# Condition variables

`uthread_mutex_cond.c` of assignment 10, as the threads of a program use it: one mutex that nobody
locks for reading, and conditions of this mutex. What is done under the mutex's spinlock is one step,
and so are `uthread_cond_signal`, the enqueue of `uthread_cond_wait`, and `uthread_block`. A thread
that has been unblocked before it blocks does not block.

* `Place`, `Pc`, `State`; `lockSection`, `uthreadMutexUnlock`, `uthreadCondSignal`, `exec`, `sys`: the
  threads run the sections of a `Monitor.Program`.
* `Pc.point`, `Pc.critical`, `Pc.asleep`, `Pc.awake`, `Pc.left`: what the place of a thread says.
* `Waiting`: who sleeps, and in which queue. **`Waiting.enqueue`**, **`Waiting.dequeue`**.
-/

set_option autoImplicit false

namespace IntroSystems.Uthread.Cond

open Monitor

/-- The queues: the waiters of the mutex, and those of each condition. -/
inductive Place (C : Type)
  | mutex
  | cond (c : C)
  deriving DecidableEq

/-- Where a thread is. -/
inductive Pc (C L : Type)
  /-- Before `uthread_mutex_lock`, for the section at `l`. -/
  | outside (l : L)
  /-- In the loop of `uthread_mutex_lock`, before the next `spinlock_lock`. -/
  | woken (l : L)
  /-- In a queue, before `uthread_block`. -/
  | toBlock (p : Place C) (l : L) (unblocked : Bool)
  /-- In `uthread_block`. -/
  | blocked (p : Place C) (l : L)
  /-- With the mutex, before its section. -/
  | inside (l : L)
  /-- In the section, with these signals still to send. -/
  | calls (cs : List C) (e : Exit C L)
  /-- In `uthread_cond_wait`, before `uthread_mutex_unlock`. -/
  | waitUnlock (c : C) (l : L)
  deriving DecidableEq

/-- `queue` are the `waiter_queue`s of the mutex and of the conditions. -/
structure State (T L D C : Type) where
  data : D
  holder : Option T
  next : T → Option T
  queue : Place C → ThreadQueue T
  pc : T → Pc C L

variable {T L D C : Type}

def start (P : Program T L D C) : State T L D C :=
  ⟨P.data, none, fun _ => none, fun _ => initqueue, fun _ => .outside P.start⟩

/-- Where `uthread_block` returns to. -/
def Place.resume : Place C → L → Pc C L
  | .mutex, l => .woken l
  | .cond _, l => .outside l

variable [DecidableEq T]

def State.goto (s : State T L D C) (t : T) (pc : Pc C L) : State T L D C :=
  { s with pc := Function.update s.pc t pc }

/-- `uthread_unblock`, of a thread that is going to block or has done so. -/
def uthreadUnblock (s : State T L D C) (t : T) : Option (State T L D C) :=
  match s.pc t with
  | .toBlock p l _ => some (s.goto t (.toBlock p l true))
  | .blocked p l => some (s.goto t (p.resume l))
  | _ => none

variable [DecidableEq C]

/-- `uthread_enqueue`, and on to where the thread goes next. -/
def enqueue (s : State T L D C) (p : Place C) (t : T) (pc : Pc C L) : State T L D C :=
  let (next, q) := uthreadEnqueue s.next (s.queue p) t
  { s with next, queue := Function.update s.queue p q }.goto t pc

/-- `uthread_dequeue` and `uthread_unblock`. -/
def dequeue (s : State T L D C) (p : Place C) : Option (State T L D C) :=
  match uthreadDequeue s.next (s.queue p) with
  | (next, q, some waiter_thread) =>
    uthreadUnblock { s with next, queue := Function.update s.queue p q } waiter_thread
  | (next, q, none) => some { s with next, queue := Function.update s.queue p q }

/-- `uthread_mutex_lock` from one `spinlock_lock` to the next `spinlock_unlock`. -/
def lockSection (s : State T L D C) (t : T) (l : L) : State T L D C :=
  if s.holder ≠ none then enqueue s .mutex t (.toBlock .mutex l false)
  else { s with holder := some t }.goto t (.inside l)

/-- A failed assertion is `none`. -/
def uthreadMutexUnlock (s : State T L D C) (t : T) : Option (State T L D C) :=
  if s.holder = some t then dequeue { s with holder := none } .mutex else none

def uthreadCondSignal (s : State T L D C) (t : T) (c : C) : Option (State T L D C) :=
  if s.holder = some t then dequeue s (.cond c) else none

/-- The next step of a thread. -/
def exec (P : Program T L D C) (s : State T L D C) (t : T) : Option (State T L D C) :=
  match s.pc t with
  | .outside l | .woken l => some (lockSection s t l)
  | .toBlock p l unblocked => some (s.goto t (if unblocked then p.resume l else .blocked p l))
  | .blocked _ _ => none
  | .inside l => (P.body t l s.data).map fun (data, cs, e) => { s with data }.goto t (.calls cs e)
  | .calls (c :: cs) e => uthreadCondSignal (s.goto t (.calls cs e)) t c
  | .calls [] (.leave l) => uthreadMutexUnlock (s.goto t (.outside l)) t
  | .calls [] (.wait c l) =>
    if s.holder = some t then some (enqueue s (.cond c) t (.waitUnlock c l)) else none
  | .waitUnlock c l => uthreadMutexUnlock (s.goto t (.toBlock (.cond c) l false)) t

/-- The thread can go on. -/
def Ready (P : Program T L D C) (s : State T L D C) (t : T) : Prop :=
  match s.pc t with
  | .outside l => P.finished l = false
  | .blocked _ _ => False
  | _ => True

instance (P : Program T L D C) (s : State T L D C) (t : T) : Decidable (Ready P s t) := by
  unfold Ready
  cases s.pc t <;> infer_instance

/-- The runs of the program. -/
def sys (P : Program T L D C) : Sys (Option (State T L D C)) T :=
  Sys.ofNext (fun s => s = start P) (Ready P) (exec P)

/-! ## What the points say -/

/-- The section that comes next. -/
def Pc.point : Pc C L → L
  | .outside l | .woken l | .toBlock _ l _ | .blocked _ l | .inside l | .waitUnlock _ l => l
  | .calls _ e => e.next

/-- With the mutex. -/
def Pc.critical : Pc C L → Bool
  | .inside _ | .calls _ _ | .waitUnlock _ _ => true
  | _ => false

/-- In a queue. -/
def Pc.asleep : Pc C L → Option (Place C)
  | .toBlock p _ false | .blocked p _ => some p
  | .waitUnlock c _ => some (.cond c)
  | _ => none

/-- Woken from the queue of the mutex, with the next test still to come. -/
def Pc.awake : Pc C L → Bool
  | .toBlock .mutex _ true | .woken _ => true
  | _ => false

/-- In `uthread_mutex_lock`. -/
def Pc.locking : Pc C L → Bool
  | .woken _ | .toBlock .mutex _ _ | .blocked .mutex _ => true
  | _ => false

/-- Between `uthread_mutex_lock` and the section. -/
def Pc.ahead : Pc C L → Bool
  | .inside _ => true
  | _ => false

/-- Not on its way: at rest outside, in a queue of a condition, or with the mutex. -/
def Pc.resting : Pc C L → Bool
  | .outside _ | .blocked (.cond _) _ | .inside _ => true
  | _ => false

/-- The queues of the conditions when the section is done, from what they are now. -/
def Pc.left (t : T) (q : C → List T) : Pc C L → C → List T
  | .calls cs e => queueAfter q t cs e
  | _ => q

variable {P : Program T L D C} {s s' : State T L D C} {t u : T} {pc : Pc C L} {p : Place C} {l : L}
  {ls : Place C → List T} {ts : List T}

omit [DecidableEq C] in
@[simp] theorem goto_pc_self : (s.goto t pc).pc t = pc := Function.update_self _ _ _

omit [DecidableEq C] in
theorem goto_pc_of_ne (h : u ≠ t) : (s.goto t pc).pc u = s.pc u := Function.update_of_ne h _ _

omit [DecidableEq T] [DecidableEq C] in
@[simp] theorem resume_point : (p.resume l : Pc C L).point = l := by cases p <;> rfl

omit [DecidableEq T] [DecidableEq C] in
@[simp] theorem resume_critical : (p.resume l : Pc C L).critical = false := by cases p <;> rfl

omit [DecidableEq T] [DecidableEq C] in
@[simp] theorem resume_asleep : (p.resume l : Pc C L).asleep = none := by cases p <;> rfl

/-! ## The queues -/

/-- The queues are these lists of the threads that sleep. -/
structure Waiting (s : State T L D C) (ls : Place C → List T) : Prop where
  queues : Queues s.next s.queue ls
  asleep : ∀ t p, t ∈ ls p ↔ (s.pc t).asleep = some p

omit [DecidableEq T] [DecidableEq C] in
theorem Waiting.notMem (h : Waiting s ls) (ht : (s.pc t).asleep = none) (p : Place C) :
    t ∉ ls p := by
  rw [h.asleep, ht]
  exact Option.some_ne_none p ∘ Eq.symm

omit [DecidableEq T] [DecidableEq C] in
theorem Waiting.congr (h : Waiting s ls) (hn : s'.next = s.next) (hq : s'.queue = s.queue)
    (hp : s'.pc = s.pc) : Waiting s' ls := by
  refine ⟨?_, fun t p => ?_⟩
  · rw [hn, hq]
    exact h.queues
  · rw [hp]
    exact h.asleep t p

omit [DecidableEq C] in
theorem Waiting.goto (h : Waiting s ls) (hpc : pc.asleep = (s.pc t).asleep) :
    Waiting (s.goto t pc) ls := by
  refine ⟨h.queues, fun u p => ?_⟩
  by_cases hut : u = t
  · subst hut
    rw [goto_pc_self, hpc]
    exact h.asleep u p
  · rw [goto_pc_of_ne hut]
    exact h.asleep u p

theorem Waiting.enqueue (h : Waiting s ls) (ht : (s.pc t).asleep = none)
    (hpc : pc.asleep = some p) :
    Waiting (enqueue s p t pc) (Function.update ls p (ls p ++ [t])) := by
  refine ⟨h.queues.enqueue (h.notMem ht) p, fun u j => ?_⟩
  change _ ↔ ((Function.update s.pc t pc) u).asleep = some j
  by_cases hut : u = t
  · subst hut
    rw [Function.update_self, hpc]
    by_cases hj : j = p
    · subst hj
      simp
    · rw [Function.update_of_ne hj]
      exact iff_of_false (h.notMem ht j) fun e => hj (Option.some.inj e).symm
  · rw [Function.update_of_ne hut, ← h.asleep u j]
    by_cases hj : j = p
    · subst hj
      simp [hut]
    · rw [Function.update_of_ne hj]

theorem Waiting.dequeue_nil (h : Waiting s ls) (hp : ls p = []) : dequeue s p = some s := by
  have hline := h.queues.line p
  rw [hp] at hline
  unfold Cond.dequeue
  rw [hline.dequeue_nil]
  simp

theorem unblock_asleep (h : (s.pc t).asleep = some p) (hc : (s.pc t).critical = false) :
    ∃ pc : Pc C L, uthreadUnblock s t = some (s.goto t pc) ∧ pc.asleep = none ∧
      pc.critical = false ∧ pc.point = (s.pc t).point ∧ pc.awake = decide (p = .mutex) ∧
      (pc.locking = true → (s.pc t).locking = true) ∧
      ((s.pc t).resting = true → pc.resting = true) := by
  unfold uthreadUnblock
  cases hpc : s.pc t with
  | toBlock p' l unblocked =>
    rw [hpc] at h
    cases unblocked with
    | true => cases h
    | false =>
      cases h
      exact ⟨_, rfl, rfl, rfl, rfl, by cases p <;> rfl, by cases p <;> exact id, Bool.noConfusion⟩
  | blocked p' l =>
    rw [hpc] at h
    cases h
    refine ⟨_, rfl, resume_asleep, resume_critical, resume_point, ?_, ?_, ?_⟩ <;>
      cases p <;> simp [Place.resume, Pc.awake, Pc.locking, Pc.resting]
  | waitUnlock c l =>
    rw [hpc] at hc
    cases hc
  | outside l | woken l | inside l | calls cs e =>
    rw [hpc] at h
    cases h

theorem Waiting.dequeue (h : Waiting s ls) (hp : ls p = t :: ts)
    (hc : (s.pc t).critical = false) :
    ∃ s' pc, dequeue s p = some s' ∧ s'.data = s.data ∧ s'.holder = s.holder ∧
      s'.pc = Function.update s.pc t pc ∧ Waiting s' (Function.update ls p ts) ∧
      pc.critical = false ∧ pc.point = (s.pc t).point ∧ pc.awake = decide (p = .mutex) ∧
      (pc.locking = true → (s.pc t).locking = true) ∧
      ((s.pc t).resting = true → pc.resting = true) := by
  obtain ⟨next, q, heq, hq⟩ := h.queues.dequeue hp
  have htp : t ∈ ls p := by simp [hp]
  have hts : t ∉ ts := by
    have hnd := (h.queues.line p).nodup
    rw [hp] at hnd
    exact (List.nodup_cons.mp hnd).1
  obtain ⟨pc, hun, has, hcr, hpt, haw, hlk, hrest⟩ := unblock_asleep
    (s := { s with next, queue := Function.update s.queue p q }) ((h.asleep t p).mp htp) hc
  refine ⟨{ s with next, queue := Function.update s.queue p q }.goto t pc, pc, ?_, rfl, rfl, rfl,
    ⟨hq, fun u j => ?_⟩, hcr, hpt, haw, hlk, hrest⟩
  · unfold Cond.dequeue
    rw [heq]
    exact hun
  · change _ ↔ ((Function.update s.pc t pc) u).asleep = some j
    by_cases hut : u = t
    · subst hut
      rw [Function.update_self, has]
      refine iff_of_false (fun hu => ?_) (Option.some_ne_none j ∘ Eq.symm)
      by_cases hj : j = p
      · subst hj
        rw [Function.update_self] at hu
        exact hts hu
      · rw [Function.update_of_ne hj] at hu
        exact hj (h.queues.one j p u hu htp)
    · rw [Function.update_of_ne hut, ← h.asleep u j]
      by_cases hj : j = p
      · subst hj
        simp [hp, hut]
      · rw [Function.update_of_ne hj]

end IntroSystems.Uthread.Cond
