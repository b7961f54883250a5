import IntroSystems.Lib.Exchange
import IntroSystems.Lib.RingBuffer
import IntroSystems.Uthread.CondRefines
import Mathlib.Data.Fintype.Sum
import Mathlib.Data.List.Range

/-!
# The bounded buffer

`bounded-buffer.c` of the uthread examples: as many producers as consumers, `QUEUE_SIZE` cells, and
one mutex with the conditions `queue_not_full` and `queue_not_empty`. The sections are those between
`uthread_mutex_lock` or a return from `uthread_cond_wait` and the next `uthread_cond_wait` or
`uthread_mutex_unlock`.

* `Buffer`, `queueEnqueue`, `queueDequeue`, `boundedBuffer`.
* `Good`: the cells from `queue_head` to `queue_tail` hold what was put in and not taken out yet.
* `reach_counts`: what each thread has put in or taken out.
* **`delivers`**: over the code of the mutex and the conditions, nothing is lost, doubled or out of
  order, and no run gets stuck before all is done.
-/

set_option autoImplicit false

namespace IntroSystems.Buffers

open Monitor

/-- The thread pairs of `main`. -/
abbrev Worker (n : ℕ) := Fin n ⊕ Fin n

abbrev Worker.producer {n : ℕ} (id : Fin n) : Worker n := .inl id

abbrev Worker.consumer {n : ℕ} (id : Fin n) : Worker n := .inr id

/-- The global variables. `enqueued` and `consumed` are what has happened so far: the iterations that
have put something in, and what has been taken out. -/
structure Buffer (n : ℕ) where
  queue : List (BitVec 32)
  queue_head : ℕ
  queue_tail : ℕ
  enqueued : List (Fin n × ℕ)
  consumed : List (Fin n × BitVec 32)

/-- `((uintptr_t) id)*1000 + i`, as an `int`. -/
def item {n : ℕ} (e : Fin n × ℕ) : BitVec 32 := BitVec.ofNat 32 (e.1 * 1000 + e.2)

/-- What a section gives: the variables, the conditions signalled, and how it ends. -/
abbrev Result (n : ℕ) := Buffer n × List Gate × Exit Gate ℕ

variable {n : ℕ}

/-- `queue_enqueue` in iteration `i`. An access out of bounds is undefined. -/
def queueEnqueue (QUEUE_SIZE : ℕ) (id : Fin n) (i : ℕ) (b : Buffer n) : Option (Result n) :=
  if (b.queue_tail + 1) % QUEUE_SIZE = b.queue_head then some (b, [], .wait .notFull i)
  else if b.queue_tail < b.queue.length then
    some ({ b with
      queue := b.queue.set b.queue_tail (item (id, i))
      queue_tail := (b.queue_tail + 1) % QUEUE_SIZE
      enqueued := b.enqueued ++ [(id, i)] }, [.notEmpty], .leave (i + 1))
  else none

/-- `queue_dequeue` in iteration `i`. -/
def queueDequeue (QUEUE_SIZE : ℕ) (id : Fin n) (i : ℕ) (b : Buffer n) : Option (Result n) :=
  if b.queue_head = b.queue_tail then some (b, [], .wait .notEmpty i)
  else b.queue[b.queue_head]?.map fun val =>
    ({ b with
      queue_head := (b.queue_head + 1) % QUEUE_SIZE
      consumed := b.consumed ++ [(id, val)] }, [.notFull], .leave (i + 1))

/-- `producer` and `consumer`. -/
def worker (QUEUE_SIZE : ℕ) : Worker n → ℕ → Buffer n → Option (Result n)
  | .inl id => queueEnqueue QUEUE_SIZE id
  | .inr id => queueDequeue QUEUE_SIZE id

/-- The threads of `main`. -/
def boundedBuffer (NUM_THREAD_PAIRS QUEUE_SIZE NUM_ITERATIONS : ℕ) :
    Program (Worker NUM_THREAD_PAIRS) ℕ (Buffer NUM_THREAD_PAIRS) Gate where
  start := 0
  data := ⟨List.replicate QUEUE_SIZE 0, 0, 0, [], []⟩
  finished i := decide (NUM_ITERATIONS ≤ i)
  body := worker QUEUE_SIZE

/-- The condition that a thread waits on. -/
def gate : Worker n → Gate
  | .inl _ => .notFull
  | .inr _ => .notEmpty

variable {size iterations : ℕ} {b : Buffer n} {xs : List (BitVec 32)} {id : Fin n} {i : ℕ}

/-- The cells from `queue_head` to `queue_tail` hold `xs`, which is what has been put in and not been
taken out. -/
structure Holds (size : ℕ) (b : Buffer n) (xs : List (BitVec 32)) : Prop where
  size : b.queue.length = size
  cells : RingBuffer.Holds b.queue b.queue_head xs
  tail : b.queue_tail = RingBuffer.index b.queue b.queue_head xs.length
  history : b.enqueued.map item = b.consumed.map Prod.snd ++ xs

/-- What is in the buffer, and the cells that are free for more. -/
def room (size : ℕ) (g : Gate) (b : Buffer n) : ℕ :=
  match g with
  | .notEmpty => b.enqueued.length - b.consumed.length
  | .notFull => size - 1 - (b.enqueued.length - b.consumed.length)

theorem Holds.length (h : Holds size b xs) :
    b.enqueued.length - b.consumed.length = xs.length := by
  have := congrArg List.length h.history
  simp only [List.length_map, List.length_append] at this
  omega

theorem Holds.lt (h : Holds size b xs) : xs.length < size := h.size ▸ h.cells.length

theorem Holds.full_iff (h : Holds size b xs) :
    (b.queue_tail + 1) % size = b.queue_head ↔ xs.length + 1 = size := by
  rw [h.tail, ← h.size]
  exact h.cells.full_iff

theorem Holds.empty_iff (h : Holds size b xs) : b.queue_head = b.queue_tail ↔ xs.length = 0 := by
  rw [h.tail]
  exact h.cells.empty_iff

/-- **A value is put behind the others**, or there is no room. -/
theorem Holds.enqueue (h : Holds size b xs) (id : Fin n) (i : ℕ) :
    xs.length + 1 = size ∧ queueEnqueue size id i b = some (b, [], .wait .notFull i) ∨
    ∃ b', Holds size b' (xs ++ [item (id, i)]) ∧ b'.enqueued = b.enqueued ++ [(id, i)] ∧
      b'.consumed = b.consumed ∧
      queueEnqueue size id i b = some (b', [.notEmpty], .leave (i + 1)) := by
  unfold queueEnqueue
  by_cases hfull : (b.queue_tail + 1) % size = b.queue_head
  · exact .inl ⟨h.full_iff.mp hfull, if_pos hfull⟩
  · rw [if_neg hfull]
    have hlen := lt_of_le_of_ne h.lt fun e => hfull (h.full_iff.mpr e)
    have htail : b.queue_tail < b.queue.length := h.tail ▸ RingBuffer.index_lt h.cells.inside _
    rw [if_pos htail]
    refine .inr ⟨_, ⟨?_, ?_, ?_, ?_⟩, ?_, ?_, rfl⟩
    · simpa using h.size
    · rw [h.tail]
      exact h.cells.push (h.size ▸ hlen) _
    · change (b.queue_tail + 1) % size = _
      rw [h.tail, ← h.size]
      simp [RingBuffer.index, Nat.add_assoc]
    · simp [h.history]
    · rfl
    · rfl

/-- **The first value is taken out**, or there is none. -/
theorem Holds.dequeue (h : Holds size b xs) (id : Fin n) (i : ℕ) :
    xs = [] ∧ queueDequeue size id i b = some (b, [], .wait .notEmpty i) ∨
    ∃ x ys b', xs = x :: ys ∧ Holds size b' ys ∧ b'.enqueued = b.enqueued ∧
      b'.consumed = b.consumed ++ [(id, x)] ∧
      queueDequeue size id i b = some (b', [.notFull], .leave (i + 1)) := by
  unfold queueDequeue
  cases xs with
  | nil => exact .inl ⟨rfl, if_pos (h.empty_iff.mpr rfl)⟩
  | cons x ys =>
    rw [if_neg fun e => Nat.succ_ne_zero _ (h.empty_iff.mp e)]
    obtain ⟨hx, hcells⟩ := h.cells.pop
    rw [hx]
    refine .inr ⟨x, ys, _, rfl, ⟨?_, ?_, ?_, ?_⟩, ?_, ?_, rfl⟩
    · exact h.size
    · rw [← h.size]
      exact hcells
    · change b.queue_tail = _
      rw [h.tail, ← h.size]
      simp [RingBuffer.index, Nat.add_assoc, Nat.add_comm 1]
    · simpa using h.history
    · rfl
    · rfl

/-- **Producers and consumers.** -/
theorem exchange (hsize : 0 < size) : Exchange (boundedBuffer n size iterations) gate iterations
    (size - 1) (fun b => ∃ xs, Holds size b xs) (room size) where
  start := rfl
  finished _ := rfl
  data := ⟨[], ⟨by simp [boundedBuffer], .nil (by simpa [boundedBuffer] using hsize),
    by simp [boundedBuffer, RingBuffer.index], rfl⟩⟩
  empty := rfl
  cap := by
    rintro b ⟨xs, h⟩
    have hlt := h.lt
    simp only [room, h.length]
    omega
  body := by
    rintro (id | id) i b ⟨xs, h⟩
    · have hlt := h.lt
      rcases h.enqueue id i with ⟨hfull, hb⟩ | ⟨b', h', -, -, hb⟩
      · refine ⟨b, ⟨xs, h⟩, .inl ⟨?_, fun _ => rfl, hb⟩⟩
        simp only [gate, room, h.length]
        omega
      · have hlt' := h'.lt
        have hl : (xs ++ [item (id, i)]).length = xs.length + 1 := by simp
        refine ⟨b', ⟨_, h'⟩, .inr ⟨?_, ?_, hb⟩⟩
        · simp only [gate, room, h.length, h'.length]
          omega
        · simp only [gate, Gate.other, room, h.length, h'.length, hl]
    · rcases h.dequeue id i with ⟨rfl, hb⟩ | ⟨x, ys, b', rfl, h', -, -, hb⟩
      · exact ⟨b, ⟨[], h⟩, .inl ⟨h.length, fun _ => rfl, hb⟩⟩
      · have hlt := h.lt
        refine ⟨b', ⟨_, h'⟩, .inr ⟨?_, ?_, hb⟩⟩
        · simp only [gate, room, h.length, h'.length, List.length_cons]
        · simp only [gate, Gate.other, room, h.length, h'.length, List.length_cons] at hlt ⊢
          omega

theorem total_flow : Tally.total (Exchange.flow (gate (n := n))) (fun _ => 1) = 0 := by
  simp [Tally.total, Exchange.flow, Fintype.sum_sum_type, gate]

/-! ## What each thread has done -/

/-- The producers have put in their values in order, and the consumers have taken out as many as they
have been through rounds. -/
structure Counts (b : Buffer n) (pc : Worker n → ℕ) : Prop where
  enqueued : ∀ id : Fin n,
    b.enqueued.filter (fun e => e.1 = id) = (List.range (pc (.producer id))).map (id, ·)
  consumed : ∀ id : Fin n, b.consumed.countP (fun e => e.1 = id) = pc (.consumer id)

variable {pc : Worker n → ℕ} {σ : State (Worker n) ℕ (Buffer n) Gate}

theorem Counts.enqueue (h : Counts b pc) {b' : Buffer n} (id : Fin n)
    (he : b'.enqueued = b.enqueued ++ [(id, pc (.producer id))]) (hc : b'.consumed = b.consumed) :
    Counts b' (Function.update pc (.producer id) (pc (.producer id) + 1)) := by
  refine ⟨fun id' => ?_, fun id' => ?_⟩
  · rw [he, List.filter_append, h.enqueued]
    by_cases hid : id' = id
    · subst hid
      simp [List.range_succ]
    · simp [hid, Ne.symm hid]
  · rw [hc, h.consumed]
    simp

theorem Counts.dequeue (h : Counts b pc) {b' : Buffer n} (id : Fin n) (x : BitVec 32)
    (he : b'.enqueued = b.enqueued) (hc : b'.consumed = b.consumed ++ [(id, x)]) :
    Counts b' (Function.update pc (.consumer id) (pc (.consumer id) + 1)) := by
  refine ⟨fun id' => ?_, fun id' => ?_⟩
  · rw [he, h.enqueued]
    simp
  · rw [hc, List.countP_append, h.consumed]
    by_cases hid : id' = id
    · subst hid
      simp
    · simp [hid, Ne.symm hid]

/-- **What each thread has put in or taken out**, in every run of the monitor. -/
theorem reach_counts (hsize : 0 < size) (hr : (sys (boundedBuffer n size iterations)).Reach σ) :
    Counts σ.data σ.pc := by
  refine reach_induction (I := fun σ => Counts σ.data σ.pc) ?_ (fun _ _ h => h) ?_ hr
  · exact ⟨fun id => rfl, fun id => rfl⟩
  · intro s t r hr h ht hb
    obtain ⟨xs, hxs⟩ := ((exchange hsize).reach_inv hr).data
    rcases t with id | id
    · rcases hxs.enqueue id (s.pc (.inl id)) with ⟨-, hb'⟩ | ⟨b', -, he, hc, hb'⟩
      · cases hb.symm.trans hb'
        simpa [State.after] using h
      · cases hb.symm.trans hb'
        exact h.enqueue id he hc
    · rcases hxs.dequeue id (s.pc (.inr id)) with ⟨-, hb'⟩ | ⟨x, ys, b', -, -, he, hc, hb'⟩
      · cases hb.symm.trans hb'
        simpa [State.after] using h
      · cases hb.symm.trans hb'
        exact h.dequeue id x he hc

/-! ## Over the code -/

/-- **What is put in is taken out**, in the order in which it was put in, and each producer's values
in their order. Nothing goes wrong, and when no thread can go on, all are through. -/
theorem delivers (n size iterations : ℕ) (hsize : 2 ≤ size)
    {o : Option (Uthread.Cond.State (Worker n) ℕ (Buffer n) Gate)}
    (hr : (Uthread.Cond.sys (boundedBuffer n size iterations)).Reach o) :
    ∃ s, o = some s ∧ (∃ xs, Holds size s.data xs) ∧
      Counts s.data (fun t => (s.pc t).point) ∧
      ((∀ t, ¬Uthread.Cond.Ready (boundedBuffer n size iterations) s t) →
        (∀ t, s.pc t = .outside iterations) ∧
        s.data.consumed.map Prod.snd = s.data.enqueued.map item) := by
  have hpos : 0 < size := by omega
  have hP : Exchange (boundedBuffer n size iterations) gate iterations (size - 1)
      (fun b => ∃ xs, Holds size b xs) (room size) := exchange hpos
  obtain ⟨s, ls, a, rfl, ha, h⟩ :=
    Uthread.Cond.reach_some (fun a t ha _ => hP.defined ha t (a.pc t)) hr
  obtain ⟨xs, hxs⟩ := (hP.reach_inv ha).data
  have hpc : a.pc = fun t => (s.pc t).point := funext h.point
  refine ⟨s, rfl, ⟨xs, h.data ▸ hxs⟩, ?_, fun hstuck => ?_⟩
  · rw [← h.data, ← hpc]
    exact reach_counts hpos ha
  · have hdone := hP.complete (by omega) total_flow ha (h.stuck hstuck).2
    refine ⟨fun t => ?_, ?_⟩
    · rcases h.stuck_at hstuck t with ⟨hout, -⟩ | ⟨-, hb⟩
      · rw [hout, (hdone t).1]
      · exact absurd hb (hdone t).2
    · -- nothing is left in the buffer
      have hflow := (hP.reach_inv ha).flow
      have hzero : Tally.total (Exchange.flow gate) a.pc = 0 := by
        rw [show a.pc = fun _ => iterations from funext fun t => (hdone t).1]
        simp [Tally.total, Exchange.flow, Fintype.sum_sum_type, gate]
      rw [hzero, room, hxs.length, Nat.cast_eq_zero, List.length_eq_zero_iff] at hflow
      subst hflow
      rw [← h.data, hxs.history, List.append_nil]

/-- Two pairs, and a buffer with room for one value. -/
abbrev twoPairs : Program (Worker 2) ℕ (Buffer 2) Gate := boundedBuffer 2 2 1

/-- The first consumer waits for a value, and the second producer for room. -/
def bothWait (a b : Fin n) : List (Worker n) :=
  List.replicate 5 (.consumer a) ++ List.replicate 4 (.producer a) ++ List.replicate 5 (.producer b)

/-- The value goes to the other consumer, and the first one has to wait again. -/
def bothServed (a b : Fin n) : List (Worker n) :=
  List.replicate 4 (.consumer b) ++ List.replicate 5 (.consumer a) ++
    List.replicate 4 (.producer b) ++ List.replicate 4 (.consumer a)

theorem delivers_two :
    (∃ s, (Uthread.Cond.sys twoPairs).Reach (some s) ∧
      s.queue (.cond .notFull) ≠ Uthread.initqueue ∧ s.data.enqueued = [(0, 0)] ∧
      (∃ xs, Holds 2 s.data xs) ∧ Counts s.data fun t => (s.pc t).point) ∧
    ∃ s, (Uthread.Cond.sys twoPairs).Reach (some s) ∧
      s.data.enqueued = [(0, 0), (1, 0)] ∧ (∀ t, s.pc t = .outside 1) ∧
      s.data.consumed.map Prod.snd = s.data.enqueued.map item := by
  constructor
  · obtain ⟨s, hs, hq, he⟩ : ∃ s, (Uthread.Cond.sys twoPairs).Reach (some s) ∧
        s.queue (.cond .notFull) ≠ Uthread.initqueue ∧ s.data.enqueued = [(0, 0)] :=
      Sys.Reach.of_follow rfl (bothWait 0 1) (by decide +kernel)
    obtain ⟨_, ⟨⟩, hxs, hc, -⟩ := delivers 2 2 1 (by decide) hs
    exact ⟨s, hs, hq, he, hxs, hc⟩
  · obtain ⟨s, hs, he, hstuck⟩ : ∃ s, (Uthread.Cond.sys twoPairs).Reach (some s) ∧
        s.data.enqueued = [(0, 0), (1, 0)] ∧ ∀ t, ¬Uthread.Cond.Ready twoPairs s t :=
      Sys.Reach.of_follow rfl (bothWait 0 1 ++ bothServed 0 1) (by decide +kernel)
    obtain ⟨_, ⟨⟩, -, -, hend⟩ := delivers 2 2 1 (by decide) hs
    exact ⟨s, hs, he, hend hstuck⟩

end IntroSystems.Buffers
