import IntroSystems.Lib.Counter
import IntroSystems.Lib.Transition
import IntroSystems.Uthread.Queue
import Mathlib.Data.Finset.Card

/-!
# The mutex for readers and writers

`uthread_mutex_cond.c` of assignment 10. What a thread does with the spinlock is one step, and so is
`uthread_block`. A thread that has been unblocked before it blocks does not block.

* `Mutex`, `State`, `lockSection`, `lockReadonlySection`, `uthreadMutexUnlock`; `Step`, `sys`.
* `Fits`: the steps in which `reader_count`, an `int`, does not overflow.
* `Owned`: who holds the mutex. `Waiting`: who sleeps, and in which queue.
* `Inv`: if the mutex is free and somebody sleeps, then a writer has been woken.
* **`mutex_safe`**: all this in every run, in the words of the code. **`mutex_miscounts`**: where
  `reader_count` is not the number of threads that read.
-/

set_option autoImplicit false

namespace IntroSystems.Uthread

/-- What a thread wants the mutex for. -/
inductive Lock
  | write
  | read
  deriving DecidableEq

/-- `struct uthread_mutex`, without the spinlock. -/
structure Mutex (T : Type) where
  holder : Option T
  reader_count : BitVec 32
  waiter_queue : ThreadQueue T
  reader_waiter_queue : ThreadQueue T

/-- Where a thread is: in the loop of a lock operation, or outside. -/
inductive Pc
  | outside
  /-- Before `uthread_block`. -/
  | toBlock (k : Lock) (unblocked : Bool)
  /-- In `uthread_block`. -/
  | blocked (k : Lock)
  /-- Before the next test. -/
  | woken (k : Lock)

/-- `held` has an entry for every lock operation that has returned, until the thread unlocks. -/
structure State (T : Type) where
  mutex : Mutex T
  next : T → Option T
  pc : T → Pc
  held : List (T × Lock)

variable {T : Type}

/-- `uthread_mutex_create`. -/
def mutexCreate : Mutex T := ⟨none, 0, initqueue, initqueue⟩

def start : State T := ⟨mutexCreate, fun _ => none, fun _ => .outside, []⟩

variable [DecidableEq T]

def State.goto (s : State T) (t : T) (pc : Pc) : State T :=
  { s with pc := Function.update s.pc t pc }

/-- `uthread_unblock`. -/
def uthreadUnblock (s : State T) (t : T) : State T :=
  match s.pc t with
  | .toBlock k _ => s.goto t (.toBlock k true)
  | .blocked k => s.goto t (.woken k)
  | _ => s

/-- `uthread_mutex_lock` from one `spinlock_lock` to the next `spinlock_unlock`. -/
def lockSection (s : State T) (t : T) : State T :=
  if s.mutex.holder ≠ none ∨ s.mutex.reader_count.toInt > 0 then
    let (next, waiter_queue) := uthreadEnqueue s.next s.mutex.waiter_queue t
    { s with mutex := { s.mutex with waiter_queue }, next }.goto t (.toBlock .write false)
  else
    { s with mutex := { s.mutex with holder := some t } }.goto t .outside

/-- The same for `uthread_mutex_lock_readonly`. -/
def lockReadonlySection (s : State T) (t : T) : State T :=
  if s.mutex.holder ≠ none ∨ s.mutex.waiter_queue.isEmpty = false then
    let (next, reader_waiter_queue) := uthreadEnqueue s.next s.mutex.reader_waiter_queue t
    { s with mutex := { s.mutex with reader_waiter_queue }, next }.goto t (.toBlock .read false)
  else
    { s with mutex := { s.mutex with reader_count := s.mutex.reader_count + 1 } }.goto t .outside

def attempt : Lock → State T → T → State T
  | .write => lockSection
  | .read => lockReadonlySection

/-- The first half of `uthread_mutex_unlock`. A failed assertion is `none`. -/
def release (m : Mutex T) (t : T) : Option (Mutex T) :=
  match m.holder with
  | some h => if h = t then some { m with holder := none } else none
  | none =>
    if m.reader_count.toInt > 0 then some { m with reader_count := m.reader_count - 1 } else none

/-- The loop of `uthread_mutex_unlock`, with a bound on the iterations. -/
def wakeReaders : ℕ → State T → Option (State T)
  | 0, _ => none
  | fuel + 1, s =>
    match uthreadDequeue s.next s.mutex.reader_waiter_queue with
    | (next, reader_waiter_queue, some waiter_thread) =>
      wakeReaders fuel (uthreadUnblock
        { s with mutex := { s.mutex with reader_waiter_queue }, next } waiter_thread)
    | (next, reader_waiter_queue, none) =>
      some { s with mutex := { s.mutex with reader_waiter_queue }, next }

def uthreadMutexUnlock (fuel : ℕ) (s : State T) (t : T) : Option (State T) := do
  let mutex ← release s.mutex t
  if mutex.reader_count = 0 then
    match uthreadDequeue s.next mutex.waiter_queue with
    | (next, waiter_queue, some waiter_thread) =>
      some (uthreadUnblock { s with mutex := { mutex with waiter_queue }, next } waiter_thread)
    | (next, waiter_queue, none) =>
      wakeReaders fuel { s with mutex := { mutex with waiter_queue }, next }
  else some { s with mutex }

inductive Label (T : Type)
  | call (t : T) (k : Lock)
  | block (t : T)
  | retry (t : T) (k : Lock)
  | unlock (t : T) (k : Lock)

omit [DecidableEq T] in
/-- A lock operation that has returned, which it has if the thread is outside again, gives the thread
a lock. -/
def State.returned (s : State T) (t : T) (k : Lock) : State T :=
  match s.pc t with
  | .outside => { s with held := (t, k) :: s.held }
  | _ => s

/-- A thread gives back one lock that it holds. -/
def State.giveBack (s : State T) (t : T) (k : Lock) : State T :=
  { s with held := s.held.erase (t, k) }

inductive Step (s : State T) : Label T → State T → Prop
  | call (t : T) (k : Lock) (h : s.pc t = .outside) : Step s (.call t k) ((attempt k s t).returned t k)
  | block (t : T) (k : Lock) (unblocked : Bool) (h : s.pc t = .toBlock k unblocked) :
    Step s (.block t) (s.goto t (if unblocked then .woken k else .blocked k))
  | retry (t : T) (k : Lock) (h : s.pc t = .woken k) :
    Step s (.retry t k) ((attempt k s t).returned t k)
  | unlock (t : T) (k : Lock) (s' : State T) (fuel : ℕ) (h : s.pc t = .outside)
    (hk : (t, k) ∈ s.held) (hs : uthreadMutexUnlock fuel (s.giveBack t k) t = some s') :
    Step s (.unlock t k) s'

variable (T) in
def sys : Sys (State T) (Label T) where
  init s := s = start
  step := Step

omit [DecidableEq T] in
/-- The lock that a thread tries to get. -/
def Label.lock : Label T → Option (T × Lock)
  | .call t k => some (t, k)
  | .retry t k => some (t, k)
  | _ => none

omit [DecidableEq T] in
/-- No reader gets in when `reader_count` is the largest `int`. -/
def Fits (s : State T) (l : Label T) : Prop :=
  ∀ t, l.lock = some (t, .read) → s.mutex.waiter_queue.isEmpty = true →
    s.mutex.reader_count.toInt ≠ 2147483647

/-! ## Who holds the mutex -/

/-- `holder` and `reader_count` are true. -/
structure Owned (s : State T) : Prop where
  writer : ∀ t, s.mutex.holder = some t → s.held = [(t, .write)] ∧ s.mutex.reader_count = 0
  readers : s.mutex.holder = none →
    (∀ x ∈ s.held, x.2 = Lock.read) ∧ s.mutex.reader_count.toInt = s.held.length

def Mutex.Free (m : Mutex T) : Prop := m.holder = none ∧ m.reader_count = 0

variable {s s' : State T} {t u : T} {k : Lock} {pc : Pc} {ls : Lock → List T} {ts : List T}

/-! ## Who sleeps -/

def Mutex.queue (m : Mutex T) : Lock → ThreadQueue T
  | .write => m.waiter_queue
  | .read => m.reader_waiter_queue

def Mutex.setQueue (m : Mutex T) : Lock → ThreadQueue T → Mutex T
  | .write, q => { m with waiter_queue := q }
  | .read, q => { m with reader_waiter_queue := q }

/-- In a queue. -/
def Pc.asleep : Pc → Option Lock
  | .toBlock k false => some k
  | .blocked k => some k
  | _ => none

/-- Unblocked, with the next test still to come. -/
def Pc.awake : Pc → Option Lock
  | .toBlock k true => some k
  | .woken k => some k
  | _ => none

/-- The queues are these lists of the threads that sleep. -/
structure Waiting (s : State T) (ls : Lock → List T) : Prop where
  queues : Queues s.next s.mutex.queue ls
  asleep : ∀ t k, t ∈ ls k ↔ (s.pc t).asleep = some k

omit [DecidableEq T] in
theorem Mutex.queue_setQueue (m : Mutex T) (k : Lock) (q : ThreadQueue T) :
    (m.setQueue k q).queue = Function.update m.queue k q := by
  funext j
  cases k <;> cases j <;> rfl

theorem State.goto_pc_self : (s.goto t pc).pc t = pc := Function.update_self _ _ _

theorem State.goto_pc_of_ne (h : u ≠ t) : (s.goto t pc).pc u = s.pc u :=
  Function.update_of_ne h _ _

omit [DecidableEq T] in
theorem Waiting.notMem (h : Waiting s ls) (ht : (s.pc t).asleep = none) (k : Lock) : t ∉ ls k := by
  rw [h.asleep t k, ht]
  exact Option.some_ne_none k ∘ Eq.symm

theorem Waiting.goto (h : Waiting s ls) (hpc : pc.asleep = (s.pc t).asleep) :
    Waiting (s.goto t pc) ls := by
  refine ⟨h.queues, fun u k => ?_⟩
  by_cases hut : u = t
  · subst hut
    rw [State.goto_pc_self, hpc]
    exact h.asleep u k
  · rw [State.goto_pc_of_ne hut]
    exact h.asleep u k

theorem Waiting.enqueue (h : Waiting s ls) (ht : (s.pc t).asleep = none) (k : Lock) :
    Waiting ({ s with
        mutex := s.mutex.setQueue k (uthreadEnqueue s.next (s.mutex.queue k) t).2
        next := (uthreadEnqueue s.next (s.mutex.queue k) t).1 }.goto t (.toBlock k false))
      (Function.update ls k (ls k ++ [t])) := by
  refine ⟨?_, fun u j => ?_⟩
  · unfold State.goto
    rw [Mutex.queue_setQueue]
    exact h.queues.enqueue (h.notMem ht) k
  · by_cases hut : u = t
    · subst hut
      rw [State.goto_pc_self]
      by_cases hj : j = k
      · subst hj
        rw [Function.update_self]
        exact iff_of_true (by simp) rfl
      · rw [Function.update_of_ne hj]
        exact iff_of_false (h.notMem ht j) fun e => hj (Option.some.inj e).symm
    · rw [State.goto_pc_of_ne hut]
      refine Iff.trans ?_ (h.asleep u j)
      by_cases hj : j = k
      · subst hj
        rw [Function.update_self, List.mem_append, List.mem_singleton]
        exact or_iff_left hut
      · rw [Function.update_of_ne hj]

theorem unblock_asleep (h : (s.pc t).asleep = some k) :
    ∃ pc : Pc, pc.asleep = none ∧ pc.awake = some k ∧ uthreadUnblock s t = s.goto t pc := by
  unfold uthreadUnblock
  cases hpc : s.pc t with
  | toBlock k' unblocked =>
    rw [hpc] at h
    cases unblocked with
    | false =>
      cases h
      exact ⟨.toBlock k true, rfl, rfl, rfl⟩
    | true => cases h
  | blocked k' =>
    rw [hpc] at h
    cases h
    exact ⟨.woken k, rfl, rfl, rfl⟩
  | outside =>
    rw [hpc] at h
    cases h
  | woken k' =>
    rw [hpc] at h
    cases h

theorem Waiting.dequeue (h : Waiting s ls) (hk : ls k = t :: ts) :
    ∃ next q, uthreadDequeue s.next (s.mutex.queue k) = (next, q, some t) ∧ ∃ pc : Pc,
      pc.awake = some k ∧
      uthreadUnblock { s with mutex := s.mutex.setQueue k q, next } t =
        { s with mutex := s.mutex.setQueue k q, next }.goto t pc ∧
      Waiting ({ s with mutex := s.mutex.setQueue k q, next }.goto t pc)
        (Function.update ls k ts) := by
  obtain ⟨next, q, heq, hq⟩ := h.queues.dequeue hk
  have htk : t ∈ ls k := by
    rw [hk]
    exact List.mem_cons_self
  have hts : t ∉ ts := by
    have hnd := (h.queues.line k).nodup
    rw [hk] at hnd
    exact (List.nodup_cons.mp hnd).1
  obtain ⟨pc, has, haw, hun⟩ := unblock_asleep (s := { s with mutex := s.mutex.setQueue k q, next })
    ((h.asleep t k).mp htk)
  refine ⟨next, q, heq, pc, haw, hun, ?_, fun u j => ?_⟩
  · unfold State.goto
    rw [Mutex.queue_setQueue]
    exact hq
  · by_cases hut : u = t
    · subst hut
      rw [State.goto_pc_self, has]
      refine iff_of_false (fun hu => ?_) (Option.some_ne_none j ∘ Eq.symm)
      by_cases hj : j = k
      · subst hj
        rw [Function.update_self] at hu
        exact hts hu
      · rw [Function.update_of_ne hj] at hu
        exact hj (h.queues.one j k u hu htk)
    · rw [State.goto_pc_of_ne hut]
      refine Iff.trans ?_ (h.asleep u j)
      by_cases hj : j = k
      · subst hj
        rw [Function.update_self, hk, List.mem_cons]
        exact (or_iff_right hut).symm
      · rw [Function.update_of_ne hj]

/-- **The loop wakes all readers**, if it gets as many iterations as there are, and one. -/
theorem wakeReaders_spec (fuel : ℕ) (h : Waiting s ls) :
    (∃ s', wakeReaders fuel s = some s' ∧ Waiting s' (Function.update ls .read []) ∧
      s'.mutex.holder = s.mutex.holder ∧ s'.mutex.reader_count = s.mutex.reader_count ∧
      s'.held = s.held) ∨ (wakeReaders fuel s = none ∧ fuel ≤ (ls .read).length) := by
  induction fuel generalizing s ls with
  | zero => exact .inr ⟨rfl, Nat.zero_le _⟩
  | succ fuel ih =>
    cases hls : ls .read with
    | nil =>
      have hline := h.queues.line .read
      rw [hls] at hline
      have hdeq : uthreadDequeue s.next s.mutex.reader_waiter_queue = _ := hline.dequeue_nil
      refine .inl ⟨s, ?_, ?_, rfl, rfl, rfl⟩
      · rw [wakeReaders, hdeq]
        rfl
      · rwa [← hls, Function.update_eq_self]
    | cons t ts =>
      obtain ⟨next, q, hdeq, pc, -, hun, hw⟩ := h.dequeue hls
      have hstep : wakeReaders (fuel + 1) s = wakeReaders fuel
          ({ s with mutex := s.mutex.setQueue .read q, next }.goto t pc) := by
        change uthreadDequeue s.next s.mutex.reader_waiter_queue = _ at hdeq
        rw [wakeReaders, hdeq, ← hun]
        rfl
      rw [hstep]
      rcases ih hw with ⟨s', hrun, hw', hh, hc, hheld⟩ | ⟨hrun, hle⟩
      · rw [Function.update_idem] at hw'
        exact .inl ⟨s', hrun, hw', hh, hc, hheld⟩
      · rw [Function.update_self] at hle
        exact .inr ⟨hrun, Nat.succ_le_succ hle⟩

/-! ## The invariant -/

/-- **If the mutex is free and somebody sleeps, a writer has been woken** and has not tried yet. -/
structure Inv (s : State T) (ls : Lock → List T) : Prop where
  owned : Owned s
  waiting : Waiting s ls
  woken : s.mutex.Free → ∀ k, ls k ≠ [] → ∃ t, (s.pc t).awake = some .write

omit [DecidableEq T] in
theorem inv_start : Inv (start : State T) fun _ => [] where
  owned :=
    { writer := fun t h => by cases h
      readers := fun _ => ⟨fun x hx => absurd hx List.not_mem_nil, rfl⟩ }
  waiting :=
    { queues := by
        have hq : (start : State T).mutex.queue = fun _ => initqueue := by
          funext k
          cases k <;> rfl
        rw [hq]
        exact queues_initqueue
      asleep := fun t k => iff_of_false List.not_mem_nil (Option.some_ne_none k ∘ Eq.symm) }
  woken _ k hk := absurd rfl hk

omit [DecidableEq T] in
theorem Waiting.congr (h : Waiting s ls) (hq : s'.mutex.queue = s.mutex.queue)
    (hn : s'.next = s.next) (hp : s'.pc = s.pc) : Waiting s' ls := by
  refine ⟨?_, fun t k => ?_⟩
  · rw [hq, hn]
    exact h.queues
  · rw [hp]
    exact h.asleep t k

omit [DecidableEq T] in
theorem Owned.congr (h : Owned s) (hh : s'.mutex.holder = s.mutex.holder)
    (hc : s'.mutex.reader_count = s.mutex.reader_count) (hheld : s'.held = s.held) : Owned s' := by
  refine ⟨fun t ht => ?_, fun hn => ?_⟩
  · rw [hh] at ht
    rw [hheld, hc]
    exact h.writer t ht
  · rw [hh] at hn
    rw [hheld, hc]
    exact h.readers hn

theorem Inv.enqueue (hi : Inv s ls) (ht : (s.pc t).asleep = none) (k : Lock)
    (hw : s.mutex.Free → ∃ w, w ≠ t ∧ (s.pc w).awake = some .write) :
    Inv ({ s with
        mutex := s.mutex.setQueue k (uthreadEnqueue s.next (s.mutex.queue k) t).2
        next := (uthreadEnqueue s.next (s.mutex.queue k) t).1 }.goto t (.toBlock k false))
      (Function.update ls k (ls k ++ [t])) := by
  refine ⟨hi.owned.congr ?_ ?_ rfl, hi.waiting.enqueue ht k, fun hf j _ => ?_⟩
  · cases k <;> rfl
  · cases k <;> rfl
  · have hfree : s.mutex.Free := by cases k <;> exact hf
    obtain ⟨w, hwt, haw⟩ := hw hfree
    refine ⟨w, ?_⟩
    rw [State.goto_pc_of_ne hwt]
    exact haw

theorem returned_toBlock {unblocked : Bool} {j : Lock} :
    (s.goto t (.toBlock j unblocked)).returned t k = s.goto t (.toBlock j unblocked) := by
  unfold State.returned
  rw [State.goto_pc_self]

theorem returned_outside : (s.goto t .outside).returned t k =
    { s with held := (t, k) :: s.held }.goto t .outside := by
  unfold State.returned
  rw [State.goto_pc_self]
  rfl

/-- **A writer gets the mutex**, or queues up while it is in use. -/
theorem Inv.lockSection (hi : Inv s ls) (ht : (s.pc t).asleep = none) :
    ∃ ls', Inv ((lockSection s t).returned t .write) ls' := by
  unfold Uthread.lockSection
  split
  case isTrue h =>
    rw [returned_toBlock]
    refine ⟨_, hi.enqueue ht .write fun hf => ?_⟩
    rcases h with h | h
    · exact absurd hf.1 h
    · rw [hf.2] at h
      exact absurd h (by decide)
  case isFalse h =>
    rw [not_or, not_not] at h
    obtain ⟨hnone, hcount⟩ := h
    have hlen := (hi.owned.readers hnone).2
    have hnil : s.held = [] := List.length_eq_zero_iff.mp (by omega)
    have hzero : s.mutex.reader_count = 0 := Counter.toInt_eq_zero.mp (by rw [hlen, hnil]; rfl)
    have hw : Waiting (s.goto t .outside) ls := hi.waiting.goto ht.symm
    rw [returned_outside]
    refine ⟨ls, ⟨fun u hu => ?_, fun h => ?_⟩, hw.congr (by funext k; cases k <;> rfl) rfl rfl, ?_⟩
    · cases hu
      exact ⟨congrArg _ hnil, hzero⟩
    · cases h
    · rintro ⟨h, -⟩
      cases h

/-- **A reader gets in**, or queues up behind a writer. -/
theorem Inv.lockReadonlySection (hi : Inv s ls) (ht : (s.pc t).asleep = none)
    (hta : (s.pc t).awake ≠ some .write) (hfit : s.mutex.waiter_queue.isEmpty = true →
      s.mutex.reader_count.toInt ≠ 2147483647) :
    ∃ ls', Inv ((lockReadonlySection s t).returned t .read) ls' := by
  unfold Uthread.lockReadonlySection
  split
  case isTrue h =>
    rw [returned_toBlock]
    refine ⟨_, hi.enqueue ht .read fun hf => ?_⟩
    have hq : s.mutex.waiter_queue.isEmpty = false := h.resolve_left fun h => h hf.1
    have hne : ls .write ≠ [] := fun e => by
      have hempty := (hi.waiting.queues.line .write).isEmpty_iff.mpr e
      exact absurd (hempty.symm.trans hq) (by decide)
    obtain ⟨w, hw⟩ := hi.woken hf .write hne
    refine ⟨w, ?_, hw⟩
    rintro rfl
    exact hta hw
  case isFalse h =>
    rw [not_or, not_not, Bool.not_eq_false] at h
    obtain ⟨hread, hlen⟩ := hi.owned.readers h.1
    have hcount := Counter.toInt_add_one (hfit h.2)
    rw [hlen] at hcount
    have hw : Waiting (s.goto t .outside) ls := hi.waiting.goto ht.symm
    rw [returned_outside]
    refine ⟨ls, ⟨fun u hu => ?_, fun _ => ⟨?_, ?_⟩⟩,
      hw.congr (by funext k; cases k <;> rfl) rfl rfl, ?_⟩
    · exact absurd (h.1.symm.trans hu) (Option.some_ne_none u ∘ Eq.symm)
    · intro x hx
      rcases List.mem_cons.mp hx with rfl | hx
      · rfl
      · exact hread x hx
    · exact hcount
    · rintro ⟨-, h⟩
      have hzero := Counter.toInt_eq_zero.mpr h
      change (s.mutex.reader_count + 1).toInt = 0 at hzero
      omega

/-- **The assertions hold**, and the mutex is given back. -/
theorem release_spec (ho : Owned s) (hk : (t, k) ∈ s.held) :
    ∃ m, release s.mutex t = some m ∧ m.queue = s.mutex.queue ∧ m.holder = none ∧
      Owned { s with mutex := m, held := s.held.erase (t, k) } := by
  unfold release
  cases hh : s.mutex.holder with
  | some h =>
    obtain ⟨hheld, hc⟩ := ho.writer h hh
    rw [hheld, List.mem_singleton] at hk
    cases hk
    have hnil : s.held.erase (t, .write) = [] := by rw [hheld, List.erase_cons_head]
    refine ⟨_, if_pos rfl, by funext k; cases k <;> rfl, rfl, ⟨fun u hu => ?_, fun _ => ?_⟩⟩
    · cases hu
    · dsimp only
      rw [hnil, hc]
      exact ⟨fun x hx => absurd hx List.not_mem_nil, rfl⟩
  | none =>
    obtain ⟨hread, hc⟩ := ho.readers hh
    have hpos := List.length_pos_of_mem hk
    have hlen := List.length_erase_of_mem hk
    have hgt : s.mutex.reader_count.toInt > 0 := by omega
    have hpred := Counter.toInt_sub_one (v := s.mutex.reader_count) (by omega)
    refine ⟨_, if_pos hgt, by funext k; cases k <;> rfl, rfl, ⟨fun u hu => ?_, fun _ => ⟨?_, ?_⟩⟩⟩
    · cases hu
    · exact fun x hx => hread x (List.mem_of_mem_erase hx)
    · dsimp only
      omega

/-- **`uthread_mutex_unlock` returns**, and has woken a writer, or all readers, if need be. -/
theorem Inv.unlock (hi : Inv s ls) (hk : (t, k) ∈ s.held) (fuel : ℕ) :
    (∃ s' ls', uthreadMutexUnlock fuel (s.giveBack t k) t = some s' ∧ Inv s' ls') ∨
      (uthreadMutexUnlock fuel (s.giveBack t k) t = none ∧ fuel ≤ (ls .read).length) := by
  obtain ⟨m, hrel, hq, hnone, ho⟩ := release_spec hi.owned hk
  let s₁ : State T := { s with mutex := m, held := s.held.erase (t, k) }
  have hw : Waiting s₁ ls := hi.waiting.congr hq rfl rfl
  have hrel' : release (s.giveBack t k).mutex t = some m := hrel
  unfold uthreadMutexUnlock
  rw [hrel', Option.bind_eq_bind, Option.bind_some]
  by_cases hc : m.reader_count = 0
  · rw [if_pos hc]
    cases hls : ls .write with
    | cons w ws =>
      obtain ⟨next, q, hdeq, pc, haw, hun, hw'⟩ := hw.dequeue hls
      change uthreadDequeue s.next m.waiter_queue = _ at hdeq
      change uthreadDequeue (s.giveBack t k).next m.waiter_queue = _ at hdeq
      rw [hdeq]
      refine .inl ⟨_, _, congrArg some hun, ho.congr rfl rfl rfl, hw', fun _ _ _ => ⟨w, ?_⟩⟩
      rw [State.goto_pc_self]
      exact haw
    | nil =>
      have hline := hw.queues.line .write
      rw [hls] at hline
      have hdeq : uthreadDequeue (s.giveBack t k).next m.waiter_queue = _ := hline.dequeue_nil
      rw [hdeq]
      rcases wakeReaders_spec fuel hw with ⟨s', hrun, hw', hh', hc', hheld⟩ | ⟨hrun, hle⟩
      · refine .inl ⟨s', _, hrun, ho.congr hh' hc' hheld, hw', fun _ j hj => ?_⟩
        cases j with
        | read => exact absurd (Function.update_self _ _ _) hj
        | write => exact absurd hls hj
      · exact .inr ⟨hrun, hle⟩
  · rw [if_neg hc]
    exact .inl ⟨s₁, ls, rfl, ho, hw, fun hf => absurd hf.2 hc⟩

theorem Inv.attempt {l : Label T} (hi : Inv s ls) (hfit : Fits s l) (hl : l.lock = some (t, k))
    (ht : (s.pc t).asleep = none) (hta : (s.pc t).awake = none ∨ (s.pc t).awake = some k) :
    ∃ ls', Inv ((attempt k s t).returned t k) ls' := by
  cases k with
  | write => exact hi.lockSection ht
  | read =>
    refine hi.lockReadonlySection ht ?_ (hfit t hl)
    rcases hta with h | h <;> rw [h] <;> decide

/-- **Every step keeps the invariant.** -/
theorem Inv.step {l : Label T} (hi : Inv s ls) (hfit : Fits s l) (hs : Step s l s') :
    ∃ ls', Inv s' ls' := by
  cases hs with
  | call t k h => exact hi.attempt hfit rfl (by rw [h]; rfl) (.inl (by rw [h]; rfl))
  | retry t k h => exact hi.attempt hfit rfl (by rw [h]; rfl) (.inr (by rw [h]; rfl))
  | block t k unblocked h =>
    have hpc : ∀ f : Pc → Option Lock, f = Pc.asleep ∨ f = Pc.awake →
        f (if unblocked then .woken k else .blocked k) = f (s.pc t) := by
      rw [h]
      rintro f (rfl | rfl) <;> cases unblocked <;> rfl
    refine ⟨ls, hi.owned.congr rfl rfl rfl, hi.waiting.goto (hpc _ (.inl rfl)), fun hf j hj => ?_⟩
    obtain ⟨w, hw⟩ := hi.woken hf j hj
    refine ⟨w, ?_⟩
    by_cases hwt : w = t
    · subst hwt
      rw [State.goto_pc_self, hpc _ (.inr rfl)]
      exact hw
    · rw [State.goto_pc_of_ne hwt]
      exact hw
  | unlock t k _ fuel h hk hs =>
    rcases hi.unlock hk fuel with ⟨s₁, ls', hrun, hi'⟩ | ⟨hrun, -⟩
    · rw [hs] at hrun
      cases hrun
      exact ⟨ls', hi'⟩
    · rw [hs] at hrun
      cases hrun

theorem reach_inv (h : ((sys T).restrict Fits).Reach s) : ∃ ls, Inv s ls := by
  refine h.invariant (I := fun s => ∃ ls, Inv s ls) ?_ ?_
  · rintro s rfl
    exact ⟨_, inv_start⟩
  · rintro s l s' - ⟨ls, hi⟩ ⟨hfit, hs⟩
    exact hi.step hfit hs

/-! ## What holds in every run -/

omit [DecidableEq T] in
/-- The threads that hold a lock for reading, once for each lock. -/
def State.readers (s : State T) : List T := (s.held.filter fun x => x.2 = .read).map Prod.fst

omit [DecidableEq T] in
theorem mem_readers : t ∈ s.readers ↔ (t, Lock.read) ∈ s.held := by
  unfold State.readers
  simp only [List.mem_map, List.mem_filter, decide_eq_true_eq]
  constructor
  · rintro ⟨⟨u, k⟩, ⟨hu, rfl⟩, rfl⟩
    exact hu
  · exact fun h => ⟨(t, .read), ⟨h, rfl⟩, rfl⟩

omit [DecidableEq T] in
theorem Owned.mem_write (h : Owned s) : (t, Lock.write) ∈ s.held ↔ s.mutex.holder = some t := by
  constructor
  · intro ht
    cases hh : s.mutex.holder with
    | none => cases (h.readers hh).1 _ ht
    | some u =>
      rw [(h.writer u hh).1, List.mem_singleton] at ht
      cases ht
      rfl
  · intro ht
    rw [(h.writer t ht).1]
    exact List.mem_singleton_self _

omit [DecidableEq T] in
theorem Owned.count (h : Owned s) : s.mutex.reader_count.toInt = s.readers.length := by
  unfold State.readers
  rw [List.length_map]
  cases hh : s.mutex.holder with
  | none =>
    obtain ⟨hread, hc⟩ := h.readers hh
    rw [hc, List.filter_eq_self.mpr fun x hx => decide_eq_true (hread x hx)]
  | some t =>
    obtain ⟨hheld, hc⟩ := h.writer t hh
    rw [hc, hheld]
    rfl

omit [DecidableEq T] in
/-- `reader_count` is the number of threads that have a lock for reading. -/
def CountsReaders (s : State T) : Prop :=
  ∃ ts : Finset T, (∀ t, t ∈ ts ↔ (t, Lock.read) ∈ s.held) ∧
    s.mutex.reader_count.toInt = ts.card

omit [DecidableEq T] in
theorem mem_held_returned (h : (s.returned t k).pc t = .outside) :
    (t, k) ∈ (s.returned t k).held := by
  unfold State.returned at h ⊢
  split
  · exact List.mem_cons_self
  case _ hne =>
    split at h
    · contradiction
    · exact absurd h hne

/-- **A lock operation that has returned has got the lock.** -/
theorem Step.mem_held {l : Label T} (hs : Step s l s') (hl : l.lock = some (t, k))
    (hpc : s'.pc t = .outside) : (t, k) ∈ s'.held := by
  cases hs with
  | call u j h =>
    cases hl
    exact mem_held_returned hpc
  | retry u j h =>
    cases hl
    exact mem_held_returned hpc
  | block u j unblocked h => cases hl
  | unlock u j _ fuel h hk hs => cases hl

/-- **Readers and writers exclude each other, and no wake-up is lost**: in every state of a run in
which `reader_count` does not overflow. It is the number of locks for reading, which is that of the
threads that have one if no thread has two. A lock operation that returns has got its lock, and every
lock can be given back. -/
theorem mutex_safe (h : ((sys T).restrict Fits).Reach s) :
    (s.mutex.holder ≠ none → s.mutex.reader_count = 0) ∧
    s.mutex.reader_count.toInt = s.readers.length ∧
    (s.readers.Nodup → CountsReaders s) ∧
    (∀ t, (t, Lock.write) ∈ s.held ↔ s.mutex.holder = some t) ∧
    (∀ t u, (t, Lock.write) ∈ s.held → (u, Lock.write) ∈ s.held → t = u) ∧
    (s.mutex.Free →
      s.mutex.waiter_queue.isEmpty = false ∨ s.mutex.reader_waiter_queue.isEmpty = false →
      ∃ t k, (s.pc t).awake = some k) ∧
    (∀ l s' t k, Step s l s' → l.lock = some (t, k) → s'.pc t = .outside → (t, k) ∈ s'.held) ∧
    ∀ t k, (t, k) ∈ s.held → ∃ fuel s', uthreadMutexUnlock fuel (s.giveBack t k) t = some s' := by
  obtain ⟨ls, hi⟩ := reach_inv h
  have ho := hi.owned
  refine ⟨fun hh => ?_, ho.count, fun hnd => ?_, fun t => ho.mem_write, fun t u ht hu => ?_,
    fun hf hq => ?_, fun l s' t k hs => hs.mem_held, fun t k hk => ?_⟩
  · obtain ⟨t, ht⟩ := Option.ne_none_iff_exists'.mp hh
    exact (ho.writer t ht).2
  · refine ⟨s.readers.toFinset, fun t => List.mem_toFinset.trans mem_readers, ?_⟩
    rw [List.toFinset_card_of_nodup hnd]
    exact ho.count
  · exact Option.some.inj ((ho.mem_write.mp ht).symm.trans (ho.mem_write.mp hu))
  · have hempty : ∀ k, (s.mutex.queue k).isEmpty = false → ls k ≠ [] := fun k hq e =>
      absurd (((hi.waiting.queues.line k).isEmpty_iff.mpr e).symm.trans hq) (by decide)
    rcases hq with hq | hq
    · obtain ⟨t, ht⟩ := hi.woken hf .write (hempty .write hq)
      exact ⟨t, .write, ht⟩
    · obtain ⟨t, ht⟩ := hi.woken hf .read (hempty .read hq)
      exact ⟨t, .write, ht⟩
  · rcases hi.unlock hk ((ls .read).length + 1) with ⟨s', -, hrun, -⟩ | ⟨-, hle⟩
    · exact ⟨_, s', hrun⟩
    · omega

/-- Two threads read, a writer waits and a third reader behind it. Then the two unlock. -/
theorem mutex_safe_four : ∃ s s' : State ℕ,
    (((sys ℕ).restrict Fits).Reach s ∧ s.held = [(1, .read), (0, .read)] ∧ CountsReaders s) ∧
    ((sys ℕ).restrict Fits).Reach s' ∧ s'.mutex.Free ∧
      s'.mutex.reader_waiter_queue.isEmpty = false ∧ ∃ t k, (s'.pc t).awake = some k := by
  have hfit : ∀ {s : State ℕ} {l : Label ℕ}, s.mutex.reader_count.toInt < 3 → Fits s l :=
    fun hlt _ _ _ => by omega
  have h₀ : ((sys ℕ).restrict Fits).Reach start := .init rfl
  have h₁ := h₀.step_restrict (hfit (by decide)) (Step.call 0 .read rfl)
  have h₂ := h₁.step_restrict (hfit (by decide)) (Step.call 1 .read rfl)
  have h₃ := h₂.step_restrict (hfit (by decide)) (Step.call 2 .write rfl)
  have h₄ := h₃.step_restrict (hfit (by decide)) (Step.call 3 .read rfl)
  have h₅ := h₄.step_restrict (hfit (by decide)) (Step.unlock 0 .read _ 0 rfl (by decide) rfl)
  have h₆ := h₅.step_restrict (hfit (by decide)) (Step.unlock 1 .read _ 0 rfl (by decide) rfl)
  exact ⟨_, _, ⟨h₂, rfl, (mutex_safe h₂).2.2.1 (by decide)⟩, h₆, ⟨rfl, rfl⟩, rfl,
    (mutex_safe h₆).2.2.2.2.2.1 ⟨rfl, rfl⟩ (.inr rfl)⟩

/-! ## Where `reader_count` is not the number of readers -/

/-- The first `n` threads read. -/
def crowd (n : ℕ) : State ℕ :=
  ⟨⟨none, BitVec.ofNat 32 n, initqueue, initqueue⟩, fun _ => none, fun _ => .outside,
    (List.range n).reverse.map fun t => (t, .read)⟩

theorem crowd_succ (n : ℕ) :
    (lockReadonlySection (crowd n) n).returned n .read = crowd (n + 1) := by
  have hin : ¬((crowd n).mutex.holder ≠ none ∨ (crowd n).mutex.waiter_queue.isEmpty = false) := by
    rw [not_or]
    exact ⟨not_not_intro rfl, Bool.true_eq_false.mp⟩
  rw [lockReadonlySection, if_neg hin, returned_outside]
  simp [State.goto, crowd, List.range_succ, BitVec.ofNat_add]

theorem reach_crowd (n : ℕ) : (sys ℕ).Reach (crowd n) := by
  induction n with
  | zero => exact .init rfl
  | succ n ih =>
    rw [← crowd_succ]
    exact ih.step (Step.call n .read rfl)

theorem readers_crowd (n : ℕ) : (crowd n).readers = (List.range n).reverse := by
  simp [State.readers, crowd, List.filter_map, Function.comp_def]

theorem crowd_lock {n : ℕ} (hn : (BitVec.ofNat 32 n).toInt < 0) :
    ∃ s : State ℕ, (sys ℕ).Reach s ∧ s.mutex.holder = some n ∧
      s.mutex.reader_count = BitVec.ofNat 32 n ∧ s.readers = (List.range n).reverse := by
  have hin : ¬((crowd n).mutex.holder ≠ none ∨ (crowd n).mutex.reader_count.toInt > 0) := by
    rw [not_or]
    exact ⟨not_not_intro rfl, not_lt_of_gt hn⟩
  refine ⟨_, (reach_crowd n).step (Step.call n .write rfl), ?_⟩
  rw [attempt, lockSection, if_neg hin, returned_outside]
  refine ⟨rfl, rfl, ?_⟩
  rw [← readers_crowd]
  rfl

/-- One thread reads twice; and `2 ^ 31` threads read, each of them once, and one more writes. -/
theorem mutex_miscounts :
    (∃ s : State ℕ, (sys ℕ).Reach s ∧ s.held = [(0, .read), (0, .read)] ∧ ¬CountsReaders s) ∧
    ∃ s : State ℕ, (sys ℕ).Reach s ∧ s.readers.Nodup ∧ ¬CountsReaders s ∧
      s.mutex.holder ≠ none ∧ s.mutex.reader_count ≠ 0 := by
  constructor
  · have h₀ : (sys ℕ).Reach start := .init rfl
    have h₁ := h₀.step (Step.call 0 .read rfl)
    have h₂ := h₁.step (Step.call 0 .read rfl)
    have hmem : ∀ t, (t, Lock.read) ∈ [(0, Lock.read), (0, Lock.read)] ↔ t ∈ ({0} : Finset ℕ) := by
      simp
    refine ⟨_, h₂, rfl, ?_⟩
    rintro ⟨ts, hts, hcount⟩
    rw [Finset.ext fun t => (hts t).trans (hmem t)] at hcount
    exact absurd hcount (by decide)
  · have hneg : (BitVec.ofNat 32 2147483648).toInt < 0 := by decide
    obtain ⟨s, hreach, hholder, hcount, hreaders⟩ := crowd_lock hneg
    refine ⟨s, hreach, ?_, ?_, ?_, ?_⟩
    · rw [hreaders]
      exact List.nodup_reverse.mpr List.nodup_range
    · rintro ⟨ts, -, hcard⟩
      rw [hcount] at hcard
      omega
    · rw [hholder]
      exact Option.some_ne_none _
    · rw [hcount]
      decide

end IntroSystems.Uthread
