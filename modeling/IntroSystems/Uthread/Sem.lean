import IntroSystems.Lib.Counter
import IntroSystems.Lib.Semaphore
import IntroSystems.Uthread.Queue

/-!
# The semaphore

`uthread_sem.c` of assignment 10. What a thread does with the spinlock is one step, and so is
`uthread_block`. A thread that has been unblocked before it blocks does not block.

* `Sem`, `State`, `uthreadSemSignal`, `uthreadSemWait`; `Step`, `sys`.
* `Shows`: the semaphore in memory is an abstract one. `Shows.signal`, `Shows.wait`: so are its
  operations.
* `Inv`: what has been counted, and who sleeps and who is about to return.
* **`sem_conserves`**: permits are conserved as long as the value does not overflow.
-/

set_option autoImplicit false

namespace IntroSystems.Uthread.Semaphores

/-! ## The code -/

/-- `struct uthread_sem`, without the spinlock. -/
structure Sem (T : Type) where
  value : BitVec 32
  waiter_queue : ThreadQueue T

/-- Where a thread is: in `uthread_sem_wait`, or outside. -/
inductive Pc
  | outside
  /-- Before `uthread_block`. -/
  | toBlock (unblocked : Bool)
  /-- In `uthread_block`. -/
  | blocked
  /-- Before the end of `uthread_sem_wait`. -/
  | woken
  deriving DecidableEq

/-- The last fields count the calls of `uthread_sem_signal`, and those of `uthread_sem_wait` that have
begun and that have returned; and they list the threads that have been put into the queue, and what
each signal has taken out. -/
structure State (T : Type) where
  sem : Sem T
  next : T → Option T
  pc : T → Pc
  signals : ℕ
  begun : ℕ
  returned : ℕ
  arrived : List T
  released : List (Option T)

variable {T : Type}

/-- After `uthread_sem_create`. -/
def start (initial_value : BitVec 32) : State T :=
  ⟨⟨initial_value, initqueue⟩, fun _ => none, fun _ => .outside, 0, 0, 0, [], []⟩

variable [DecidableEq T]

def State.goto (s : State T) (t : T) (pc : Pc) : State T :=
  { s with pc := Function.update s.pc t pc }

/-- `uthread_unblock`. -/
def uthreadUnblock (s : State T) (t : T) : State T :=
  match s.pc t with
  | .toBlock _ => s.goto t (.toBlock true)
  | .blocked => s.goto t .woken
  | _ => s

def uthreadSemSignal (s : State T) : State T :=
  let value := s.sem.value + 1
  let (next, waiter_queue, waiter_thread) := uthreadDequeue s.next s.sem.waiter_queue
  let s := { s with
    sem := ⟨value, waiter_queue⟩, next
    signals := s.signals + 1, released := s.released ++ [waiter_thread] }
  match waiter_thread with
  | none => s
  | some t => uthreadUnblock s t

/-- `uthread_sem_wait` up to the first `spinlock_unlock`. -/
def uthreadSemWait (s : State T) (t : T) : State T :=
  let value := s.sem.value - 1
  if value.toInt < 0 then
    let (next, waiter_queue) := uthreadEnqueue s.next s.sem.waiter_queue t
    { s with
      sem := ⟨value, waiter_queue⟩, next
      begun := s.begun + 1, arrived := s.arrived ++ [t] }.goto t (.toBlock false)
  else
    { s with
      sem := { s.sem with value }
      begun := s.begun + 1, returned := s.returned + 1 }

inductive Label (T : Type)
  | signal (t : T)
  | wait (t : T)
  | block (t : T)
  | resume (t : T)

inductive Step (s : State T) : Label T → State T → Prop
  | signal (t : T) (h : s.pc t = .outside) : Step s (.signal t) (uthreadSemSignal s)
  | wait (t : T) (h : s.pc t = .outside) : Step s (.wait t) (uthreadSemWait s t)
  | block (t : T) (unblocked : Bool) (h : s.pc t = .toBlock unblocked) :
    Step s (.block t) (s.goto t (if unblocked then .woken else .blocked))
  | resume (t : T) (h : s.pc t = .woken) :
    Step s (.resume t) ({ s with returned := s.returned + 1 }.goto t .outside)

variable (T) in
def sys (initial_value : BitVec 32) : Sys (State T) (Label T) where
  init s := s = start initial_value
  step := Step

omit [DecidableEq T] in
/-- The value does not overflow. -/
def Fits (s : State T) : Label T → Prop
  | .signal _ => s.sem.value.toInt ≠ 2147483647
  | .wait _ => s.sem.value.toInt ≠ -2147483648
  | _ => True

omit [DecidableEq T] in
/-- Permits are conserved, and waiters are released one by one and in order. -/
structure Conserves (initial_value : BitVec 32) (s : State T) : Prop where
  value : s.sem.value.toInt = initial_value.toInt + s.signals - s.begun
  waiters : ∃ ts, Line s.next s.sem.waiter_queue ts ∧
    (ts.length : ℤ) = max 0 (-s.sem.value.toInt) ∧ s.released.filterMap id ++ ts = s.arrived
  one : s.released.length = s.signals
  returned : (s.returned : ℤ) ≤ initial_value.toInt + s.signals

/-! ## The semaphore in memory -/

/-- In the queue. -/
def Pc.asleep : Pc → Bool
  | .toBlock false => true
  | .blocked => true
  | _ => false

/-- Unblocked, and still to return. -/
def Pc.awake : Pc → Bool
  | .toBlock true => true
  | .woken => true
  | _ => false

omit [DecidableEq T] in
/-- The semaphore is `a`, and the threads of its queue are those that sleep. -/
structure Shows (s : State T) (a : Semaphore.Sem T) : Prop where
  value : s.sem.value.toInt = a.value
  line : Line s.next s.sem.waiter_queue a.queue
  free : ∀ t ∉ a.queue, s.next t = none
  asleep : ∀ t, t ∈ a.queue ↔ (s.pc t).asleep = true

variable {s s' : State T} {t : T} {pc : Pc} {a : Semaphore.Sem T} {ts : List T}

theorem mem_goto {f : Pc → Bool} {l : List T} (ht : t ∈ l ↔ f pc = true)
    (h : ∀ u, u ≠ t → (u ∈ l ↔ f (s.pc u) = true)) :
    ∀ u, u ∈ l ↔ f ((s.goto t pc).pc u) = true :=
  (Function.forall_update_iff s.pc fun u pc => u ∈ l ↔ f pc = true).mpr ⟨ht, h⟩

omit [DecidableEq T] in
theorem shows_start (v : BitVec 32) : Shows (start v : State T) ⟨v.toInt, []⟩ where
  value := rfl
  line := line_initqueue
  free _ _ := rfl
  asleep _ := iff_of_false List.not_mem_nil Bool.false_ne_true

omit [DecidableEq T] in
theorem Shows.notMem (h : Shows s a) (ht : (s.pc t).asleep = false) : t ∉ a.queue := by
  rw [h.asleep t, ht]
  exact Bool.false_ne_true

theorem Shows.goto (h : Shows s a) (hpc : pc.asleep = (s.pc t).asleep) :
    Shows (s.goto t pc) a := by
  refine ⟨h.value, h.line, h.free, mem_goto ?_ fun u _ => h.asleep u⟩
  rw [hpc]
  exact h.asleep t

theorem Shows.wait_lt (h : Shows s a) (ht : s.pc t = .outside)
    (hfit : s.sem.value.toInt ≠ -2147483648) (hlt : a.value - 1 < 0) :
    ∃ next q, Line next q (a.queue ++ [t]) ∧ (∀ u ∉ a.queue, next u = s.next u) ∧
      uthreadSemWait s t = { s with
        sem := ⟨s.sem.value - 1, q⟩, next
        begun := s.begun + 1, arrived := s.arrived ++ [t] }.goto t (.toBlock false) := by
  have hmem : t ∉ a.queue := h.notMem (by rw [ht]; rfl)
  obtain ⟨hline, hother⟩ := h.line.enqueue hmem (h.free t hmem)
  refine ⟨_, _, hline, hother, ?_⟩
  unfold uthreadSemWait
  dsimp only
  rw [Counter.toInt_sub_one hfit, h.value, if_pos hlt]

theorem Shows.wait_le (h : Shows s a) (hfit : s.sem.value.toInt ≠ -2147483648)
    (hle : ¬a.value - 1 < 0) :
    uthreadSemWait s t = { s with
      sem := { s.sem with value := s.sem.value - 1 }
      begun := s.begun + 1, returned := s.returned + 1 } := by
  unfold uthreadSemWait
  dsimp only
  rw [Counter.toInt_sub_one hfit, h.value, if_neg hle]

/-- **`uthread_sem_wait`** does what an abstract semaphore does. -/
theorem Shows.wait (h : Shows s a) (ht : s.pc t = .outside)
    (hfit : s.sem.value.toInt ≠ -2147483648) : Shows (uthreadSemWait s t) (a.wait t) := by
  have hv := Counter.toInt_sub_one hfit
  rw [h.value] at hv
  by_cases hlt : a.value - 1 < 0
  · obtain ⟨next, q, hline, hother, heq⟩ := h.wait_lt ht hfit hlt
    rw [heq, Semaphore.Sem.wait_of_lt hlt]
    refine ⟨hv, hline, fun u hu => ?_, mem_goto ?_ fun u hut => ?_⟩
    · have hu' : u ∉ a.queue := fun hm => hu (List.mem_append_left _ hm)
      exact (hother u hu').trans (h.free u hu')
    · exact iff_of_true (List.mem_append_right _ List.mem_cons_self) rfl
    · rw [List.mem_append, List.mem_singleton, or_iff_left hut]
      exact h.asleep u
  · rw [h.wait_le hfit hlt, Semaphore.Sem.wait_of_le hlt]
    exact ⟨hv, h.line, h.free, h.asleep⟩

theorem unblock_asleep (h : (s.pc t).asleep = true) :
    ∃ pc : Pc, pc.asleep = false ∧ pc.awake = true ∧ uthreadUnblock s t = s.goto t pc := by
  unfold uthreadUnblock
  cases hpc : s.pc t with
  | toBlock unblocked => exact ⟨.toBlock true, rfl, rfl, rfl⟩
  | blocked => exact ⟨.woken, rfl, rfl, rfl⟩
  | outside | woken =>
    rw [hpc] at h
    cases h

theorem Shows.signal_nil (h : Shows s a) (hq : a.queue = []) :
    uthreadSemSignal s = { s with
      sem := { s.sem with value := s.sem.value + 1 }
      signals := s.signals + 1, released := s.released ++ [none] } := by
  have hline := h.line
  rw [hq] at hline
  unfold uthreadSemSignal
  rw [hline.dequeue_nil]

theorem Shows.signal_cons (h : Shows s a) (hq : a.queue = t :: ts) :
    ∃ pc : Pc, pc.asleep = false ∧ pc.awake = true ∧ ∃ q,
      Line (Function.update s.next t none) q ts ∧
      uthreadSemSignal s = { s with
        sem := ⟨s.sem.value + 1, q⟩, next := Function.update s.next t none
        signals := s.signals + 1, released := s.released ++ [some t] }.goto t pc := by
  have hline := h.line
  rw [hq] at hline
  obtain ⟨q, hdeq, hline'⟩ := hline.dequeue
  have htq : t ∈ a.queue := by
    rw [hq]
    exact List.mem_cons_self
  obtain ⟨pc, has, haw, hun⟩ := unblock_asleep (s := { s with
    sem := ⟨s.sem.value + 1, q⟩, next := Function.update s.next t none
    signals := s.signals + 1, released := s.released ++ [some t] }) ((h.asleep t).mp htq)
  refine ⟨pc, has, haw, q, hline', ?_⟩
  unfold uthreadSemSignal
  rw [hdeq]
  exact hun

/-- **`uthread_sem_signal`** does what an abstract semaphore does. -/
theorem Shows.signal (h : Shows s a) (hfit : s.sem.value.toInt ≠ 2147483647) :
    Shows (uthreadSemSignal s) a.signal := by
  have hv := Counter.toInt_add_one hfit
  rw [h.value] at hv
  cases hq : a.queue with
  | nil =>
    rw [h.signal_nil hq]
    unfold Semaphore.Sem.signal
    rw [hq, List.tail_nil, ← hq]
    exact ⟨hv, h.line, h.free, h.asleep⟩
  | cons t ts =>
    obtain ⟨pc, has, -, q, hline, heq⟩ := h.signal_cons hq
    have hnd := h.line.nodup
    rw [hq, List.nodup_cons] at hnd
    rw [heq]
    unfold Semaphore.Sem.signal
    rw [hq, List.tail_cons]
    refine ⟨hv, hline, fun u hu => ?_, mem_goto ?_ fun u hut => ?_⟩
    · by_cases hut : u = t
      · subst hut
        exact Function.update_self u none s.next
      · refine (Function.update_of_ne hut none s.next).trans (h.free u fun hm => ?_)
        rw [hq, List.mem_cons] at hm
        exact hm.elim hut hu
    · rw [has]
      exact iff_of_false hnd.1 Bool.false_ne_true
    · refine Iff.trans ?_ (h.asleep u)
      rw [hq, List.mem_cons]
      exact (or_iff_right hut).symm

/-! ## The invariant -/

omit [DecidableEq T] in
/-- The semaphore is `a`, and the threads `aw` are about to return. -/
structure Inv (v : BitVec 32) (s : State T) (a : Semaphore.Sem T) (aw : List T) : Prop where
  shows : Shows s a
  balanced : a.Balanced
  permits : a.value = v.toInt + s.signals - s.begun
  nodup : aw.Nodup
  awake : ∀ t, t ∈ aw ↔ (s.pc t).awake = true
  account : s.returned + aw.length + a.queue.length = s.begun
  fifo : s.released.filterMap id ++ a.queue = s.arrived
  one : s.released.length = s.signals

variable {v : BitVec 32} {aw : List T}

omit [DecidableEq T] in
theorem inv_start (hv : 0 ≤ v.toInt) : Inv v (start v : State T) ⟨v.toInt, []⟩ [] where
  shows := shows_start v
  balanced := by
    unfold Semaphore.Sem.Balanced
    dsimp only [List.length_nil]
    omega
  permits := by simp [start]
  nodup := List.nodup_nil
  awake _ := iff_of_false List.not_mem_nil Bool.false_ne_true
  account := rfl
  fifo := rfl
  one := rfl

omit [DecidableEq T] in
theorem Inv.notMem (hi : Inv v s a aw) (ht : (s.pc t).awake = false) : t ∉ aw := by
  rw [hi.awake t, ht]
  exact Bool.false_ne_true

theorem awake_goto (h : ∀ u, u ∈ aw ↔ (s.pc u).awake = true) (hpc : pc.awake = (s.pc t).awake) :
    ∀ u, u ∈ aw ↔ ((s.goto t pc).pc u).awake = true := by
  refine mem_goto ?_ fun u _ => h u
  rw [hpc]
  exact h t

theorem Inv.wait (hi : Inv v s a aw) (ht : s.pc t = .outside)
    (hfit : s.sem.value.toInt ≠ -2147483648) :
    Inv v (uthreadSemWait s t) (a.wait t) aw := by
  have hpermits := hi.permits
  have haccount := hi.account
  have hshows := hi.shows.wait ht hfit
  have hbal := hi.balanced.wait t
  by_cases hlt : a.value - 1 < 0
  · obtain ⟨next, q, -, -, heq⟩ := hi.shows.wait_lt ht hfit hlt
    rw [heq] at hshows ⊢
    rw [Semaphore.Sem.wait_of_lt hlt] at hshows hbal ⊢
    refine ⟨hshows, hbal, ?_, hi.nodup, awake_goto hi.awake (by rw [ht]; rfl), ?_, ?_, hi.one⟩
    · change a.value - 1 = v.toInt + s.signals - (s.begun + 1 : ℕ)
      push_cast
      omega
    · change s.returned + aw.length + (a.queue ++ [t]).length = s.begun + 1
      rw [List.length_append, List.length_singleton]
      omega
    · change s.released.filterMap id ++ (a.queue ++ [t]) = s.arrived ++ [t]
      rw [← List.append_assoc, hi.fifo]
  · rw [hi.shows.wait_le hfit hlt, Semaphore.Sem.wait_of_le hlt] at hshows
    rw [Semaphore.Sem.wait_of_le hlt] at hbal
    rw [hi.shows.wait_le hfit hlt, Semaphore.Sem.wait_of_le hlt]
    refine ⟨hshows, hbal, ?_, hi.nodup, hi.awake, ?_, hi.fifo, hi.one⟩
    · change a.value - 1 = v.toInt + s.signals - (s.begun + 1 : ℕ)
      push_cast
      omega
    · change s.returned + 1 + aw.length + a.queue.length = s.begun + 1
      omega

/-- **A signal** releases the thread at the front, if there is one. -/
theorem Inv.signal (hi : Inv v s a aw) (hfit : s.sem.value.toInt ≠ 2147483647) :
    ∃ aw', Inv v (uthreadSemSignal s) a.signal aw' := by
  have hpermits := hi.permits
  have haccount := hi.account
  have hshows := hi.shows.signal hfit
  have hfifo := hi.fifo
  have hvalue : a.value + 1 = v.toInt + (s.signals + 1 : ℕ) - s.begun := by
    push_cast
    omega
  have hone : s.released.length + 1 = s.signals + 1 := congrArg (· + 1) hi.one
  cases hq : a.queue with
  | nil =>
    rw [hi.shows.signal_nil hq] at hshows ⊢
    refine ⟨aw, hshows, hi.balanced.signal, hvalue, hi.nodup, hi.awake, ?_, ?_, ?_⟩
    · unfold Semaphore.Sem.signal
      rw [hq] at haccount ⊢
      exact haccount
    · unfold Semaphore.Sem.signal
      rw [hq] at hfifo ⊢
      rw [← hfifo, List.filterMap_append]
      simp
    · rw [← hone]
      exact List.length_append
  | cons t ts =>
    obtain ⟨pc, -, haw, q, -, heq⟩ := hi.shows.signal_cons hq
    have htq : (s.pc t).asleep = true := by
      rw [← hi.shows.asleep t, hq]
      exact List.mem_cons_self
    have htaw : t ∉ aw := by
      refine hi.notMem ?_
      revert htq
      cases s.pc t with
      | toBlock unblocked => cases unblocked <;> simp [Pc.asleep, Pc.awake]
      | outside | blocked | woken => simp [Pc.asleep, Pc.awake]
    rw [heq] at hshows ⊢
    refine ⟨t :: aw, hshows, hi.balanced.signal, hvalue, List.nodup_cons.mpr ⟨htaw, hi.nodup⟩,
      mem_goto ?_ fun u hut => ?_, ?_, ?_, ?_⟩
    · rw [haw]
      exact iff_of_true List.mem_cons_self rfl
    · rw [List.mem_cons, or_iff_right hut]
      exact hi.awake u
    · unfold Semaphore.Sem.signal
      rw [hq] at haccount ⊢
      simp only [List.length_cons, List.tail_cons] at haccount ⊢
      change s.returned + (aw.length + 1) + ts.length = s.begun
      omega
    · unfold Semaphore.Sem.signal
      rw [hq] at hfifo ⊢
      change (s.released ++ [some t]).filterMap id ++ ts = s.arrived
      rw [← hfifo, List.filterMap_append, List.append_assoc]
      rfl
    · rw [← hone]
      exact List.length_append

theorem Inv.block (hi : Inv v s a aw) {unblocked : Bool} (ht : s.pc t = .toBlock unblocked) :
    Inv v (s.goto t (if unblocked then .woken else .blocked)) a aw := by
  refine ⟨hi.shows.goto ?_, hi.balanced, hi.permits, hi.nodup, awake_goto hi.awake ?_, hi.account,
    hi.fifo, hi.one⟩
  · rw [ht]
    cases unblocked <;> rfl
  · rw [ht]
    cases unblocked <;> rfl

theorem Inv.resume (hi : Inv v s a aw) (ht : s.pc t = .woken) :
    Inv v ({ s with returned := s.returned + 1 }.goto t .outside) a (aw.erase t) := by
  have hmem : t ∈ aw := by
    rw [hi.awake t, ht]
    rfl
  have hlen := List.length_erase_of_mem hmem
  have hpos := List.length_pos_of_mem hmem
  have haccount := hi.account
  have hshows : Shows (s.goto t .outside) a := hi.shows.goto (by rw [ht]; rfl)
  refine ⟨⟨hshows.value, hshows.line, hshows.free, hshows.asleep⟩, hi.balanced, hi.permits,
    hi.nodup.erase t, mem_goto ?_ fun u hut => ?_, ?_, hi.fifo, hi.one⟩
  · exact iff_of_false hi.nodup.not_mem_erase Bool.false_ne_true
  · rw [hi.nodup.mem_erase_iff, and_iff_right hut]
    exact hi.awake u
  · change s.returned + 1 + (aw.erase t).length + a.queue.length = s.begun
    omega

/-! ## Runs -/

omit [DecidableEq T] in
theorem Inv.conserves (hi : Inv v s a aw) : Conserves v s := by
  have hvalue := hi.shows.value
  have hpermits := hi.permits
  have hbal := hi.balanced
  have haccount := hi.account
  unfold Semaphore.Sem.Balanced at hbal
  refine ⟨hvalue.trans hpermits, ⟨a.queue, hi.shows.line, ?_, hi.fifo⟩, hi.one, ?_⟩
  · rw [hvalue]
    exact hbal
  · omega

/-- **Permits are conserved.** In every run in which the value does not overflow it is what has been
given less what has been asked for, as many threads wait as it is below zero, each signal releases one
of them at most, in the order in which they have come, and no more waits return than there have been
permits. -/
theorem sem_conserves (hv : 0 ≤ v.toInt) {s : State T} (h : ((sys T v).restrict Fits).Reach s) :
    Conserves v s := by
  have hinv : ∃ a aw, Inv v s a aw := by
    refine h.invariant (I := fun s => ∃ a aw, Inv v s a aw) ?_ ?_
    · rintro s rfl
      exact ⟨_, _, inv_start hv⟩
    · rintro s l s' - ⟨a, aw, hi⟩ ⟨hfit, hst⟩
      cases hst with
      | signal t ht =>
        obtain ⟨aw', hi'⟩ := hi.signal hfit
        exact ⟨_, aw', hi'⟩
      | wait t ht => exact ⟨_, _, hi.wait ht hfit⟩
      | block t unblocked ht => exact ⟨_, _, hi.block ht⟩
      | resume t ht => exact ⟨_, _, hi.resume ht⟩
  obtain ⟨a, aw, hi⟩ := hinv
  exact hi.conserves

/-- A thread waits, and another one signals before it blocks. -/
theorem sem_conserves_early :
    Conserves 0 (uthreadSemSignal (uthreadSemWait (start 0 : State Bool) true)) := by
  have hwait : Step (start 0 : State Bool) (.wait true) _ := .wait true rfl
  have hsignal : Step (uthreadSemWait (start 0 : State Bool) true) (.signal false) _ :=
    .signal false rfl
  have hfit : Fits (start 0 : State Bool) (.wait true) := by
    change (0 : ℤ) ≠ -2147483648
    decide
  have hfit' : Fits (uthreadSemWait (start 0 : State Bool) true) (.signal false) := by
    change (-1 : ℤ) ≠ 2147483647
    decide
  have h0 : ((sys Bool 0).restrict Fits).Reach (start 0) := .init rfl
  have h1 : ((sys Bool 0).restrict Fits).Reach _ := h0.step_restrict hfit hwait
  exact sem_conserves (by decide) (h1.step_restrict hfit' hsignal)

/-- The largest value there is, and a signal. -/
theorem sem_overflows : ¬∀ v : BitVec 32, 0 ≤ v.toInt → ∀ s, (sys Unit v).Reach s →
    Conserves v s := by
  intro h
  have hsignal : Step (start 2147483647 : State Unit) (.signal ()) _ := .signal () rfl
  have h0 : (sys Unit 2147483647).Reach (start 2147483647) := .init rfl
  have h1 : (sys Unit 2147483647).Reach _ := h0.step hsignal
  have hvalue := (h 2147483647 (by decide) _ h1).value
  revert hvalue
  decide

end IntroSystems.Uthread.Semaphores
