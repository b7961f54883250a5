import IntroSystems.Lib.Transition
import IntroSystems.Uthread.Queue

/-!
# One `next` field for all queues

Any number of thread queues of `uthread.c`, and calls of `uthread_enqueue` and `uthread_dequeue` on
them, in any order. A thread that is queued already may be enqueued once more.

* `State`, `enqueue`, `dequeue`; `sys`. The state remembers what has come into and out of each queue.
* `Good`: the queues are lists, no thread is in them twice, and each is first in, first out.
* `Elsewhere`: the thread is the last one of another queue. `uthread_enqueue` does not notice this.
* **`shared_next_iff`**: all is well exactly as long as no such thread is enqueued.
-/

set_option autoImplicit false

namespace IntroSystems.Uthread.Shared

/-! ## The code -/

structure State (T ι : Type) where
  next : T → Option T
  queues : ι → ThreadQueue T
  entered : ι → List T
  left : ι → List T

variable {T ι : Type}

/-- The test of `uthread_enqueue`. -/
def AlreadyEnqueued (next : T → Option T) (q : ThreadQueue T) (t : T) : Prop :=
  next t ≠ none ∨ q.tail = some t

instance [DecidableEq T] (next : T → Option T) (q : ThreadQueue T) (t : T) :
    Decidable (AlreadyEnqueued next q t) := inferInstanceAs (Decidable (_ ∨ _))

def start : State T ι := ⟨fun _ => none, fun _ => initqueue, fun _ => [], fun _ => []⟩

inductive Label (T ι : Type)
  | enqueue (i : ι) (t : T)
  | dequeue (i : ι)

/-! ## What is to hold -/

/-- Each queue is a list from its head to its tail; a thread is in one of them at most, and there
once; what has left a queue is the first of what has come into it. -/
def Good (s : State T ι) : Prop :=
  ∃ ls, Queues s.next s.queues ls ∧ ∀ i, s.entered i = s.left i ++ ls i

/-- The thread is in some queue. -/
def Queued (s : State T ι) (t : T) : Prop := ∃ i ts, Line s.next (s.queues i) ts ∧ t ∈ ts

/-- The thread is the last one of another queue. -/
def Elsewhere (s : State T ι) (i : ι) (t : T) : Prop := ∃ j, j ≠ i ∧ (s.queues j).tail = some t

/-- No thread is enqueued that is the last one of another queue. -/
def Permitted (s : State T ι) : Label T ι → Prop
  | .enqueue i t => ¬Elsewhere s i t
  | .dequeue _ => True

variable {s : State T ι} {i j : ι} {t : T} {ls : ι → List T} {next : T → Option T}
  {q : ThreadQueue T} {p : Option T} {ts us : List T}

theorem good_start : Good (start : State T ι) := ⟨fun _ => [], queues_initqueue, fun _ => rfl⟩

theorem path_unique (h : Path next p ts) (h' : Path next p us) : ts = us := by
  induction ts generalizing p us with
  | nil =>
    cases us with
    | nil => rfl
    | cons u us => cases h.symm.trans h'.1
  | cons t ts ih =>
    cases us with
    | nil => cases h.1.symm.trans h'
    | cons u us =>
      obtain rfl := Option.some.inj (h.1.symm.trans h'.1)
      rw [ih h.2 h'.2]

theorem queued_iff (h : Queues s.next s.queues ls) : Queued s t ↔ ∃ j, t ∈ ls j := by
  constructor
  · rintro ⟨j, ts, hline, hmem⟩
    refine ⟨j, ?_⟩
    rw [path_unique (h.line j).path hline.path]
    exact hmem
  · rintro ⟨j, hmem⟩
    exact ⟨j, ls j, h.line j, hmem⟩

theorem path_last_of_next (h : Path next p ts) (hmem : t ∈ ts) (hnext : next t = none) :
    ts.getLast? = some t := by
  induction ts generalizing p with
  | nil => cases hmem
  | cons u ts ih =>
    obtain ⟨rfl, hrest⟩ := h
    rcases List.mem_cons.mp hmem with rfl | hmem
    · rw [hnext] at hrest
      cases ts with
      | nil => rfl
      | cons v ts => cases hrest.1
    · have hlast := ih hrest hmem
      rw [List.getLast?_cons, hlast]
      rfl

/-- A thread in another place than the end of another queue is recognised. -/
theorem already_of_mem (h : Queues s.next s.queues ls) (hmem : t ∈ ls j)
    (he : ¬Elsewhere s i t) : AlreadyEnqueued s.next (s.queues i) t := by
  by_cases hnext : s.next t = none
  · have htail : (s.queues j).tail = some t := by
      rw [(h.line j).tail]
      exact path_last_of_next (h.line j).path hmem hnext
    have hji : j = i := by
      by_contra hne
      exact he ⟨j, hne, htail⟩
    rw [← hji]
    exact .inr htail
  · exact .inl hnext

/-- The last thread of another queue is not. -/
theorem not_already (h : Queues s.next s.queues ls) (hji : j ≠ i)
    (htail : (s.queues j).tail = some t) : ¬AlreadyEnqueued s.next (s.queues i) t := by
  have hlast : (ls j).getLast? = some t := (h.line j).tail.symm.trans htail
  have hmem : t ∈ ls j := List.mem_of_getLast? hlast
  rintro (hnext | hi)
  · obtain ⟨us, hus⟩ := List.getLast?_eq_some_iff.mp hlast
    have hpath := (h.line j).path
    rw [hus] at hpath
    exact hnext hpath.last
  · have hmem' : t ∈ ls i := List.mem_of_getLast? ((h.line i).tail.symm.trans hi)
    exact hji (h.one j i t hmem hmem')

/-! ## Steps -/

section Steps

variable [DecidableEq T] [DecidableEq ι]

def enqueue (s : State T ι) (i : ι) (t : T) : State T ι :=
  let (next, q) := uthreadEnqueue s.next (s.queues i) t
  { next
    queues := Function.update s.queues i q
    entered := if AlreadyEnqueued s.next (s.queues i) t then s.entered
      else Function.update s.entered i (s.entered i ++ [t])
    left := s.left }

def dequeue (s : State T ι) (i : ι) : State T ι :=
  let (next, q, t) := uthreadDequeue s.next (s.queues i)
  { next
    queues := Function.update s.queues i q
    entered := s.entered
    left := Function.update s.left i (s.left i ++ t.toList) }

def step (s : State T ι) : Label T ι → State T ι
  | .enqueue i t => enqueue s i t
  | .dequeue i => dequeue s i

variable (T ι) in
/-- The runs, from empty queues. -/
def sys : Sys (State T ι) (Label T ι) where
  init s := s = start
  step s l s' := s' = step s l

/-- To enqueue a thread that is queued changes nothing. -/
def Undisturbed (s : State T ι) : Label T ι → Prop
  | .enqueue i t => Queued s t → enqueue s i t = s
  | .dequeue _ => True

theorem enqueue_already (h : AlreadyEnqueued s.next (s.queues i) t) : enqueue s i t = s := by
  have heq : uthreadEnqueue s.next (s.queues i) t = (s.next, s.queues i) := if_pos h
  unfold enqueue
  rw [heq]
  dsimp only
  rw [if_pos h, Function.update_eq_self]

theorem tail_enqueue (h : ¬AlreadyEnqueued s.next (s.queues i) t) :
    ((enqueue s i t).queues i).tail = some t := by
  have heq : uthreadEnqueue s.next (s.queues i) t = _ := if_neg h
  unfold enqueue
  rw [heq]
  exact congrArg ThreadQueue.tail (Function.update_self i _ s.queues)

theorem tail_enqueue_of_ne (hji : j ≠ i) : (enqueue s i t).queues j = s.queues j :=
  Function.update_of_ne hji _ _

theorem Good.enqueue_new (h : Queues s.next s.queues ls)
    (hfifo : ∀ i, s.entered i = s.left i ++ ls i) (ht : ∀ j, t ∉ ls j) (i : ι) :
    Good (enqueue s i t) := by
  have hnew : ¬AlreadyEnqueued s.next (s.queues i) t := by
    rintro (hnext | htail)
    · exact hnext (h.free t ht)
    · exact ht i (List.mem_of_getLast? ((h.line i).tail.symm.trans htail))
  refine ⟨_, h.enqueue ht i, fun j => ?_⟩
  change (if _ then s.entered else _) j = s.left j ++ _
  rw [if_neg hnew]
  by_cases hji : j = i
  · rw [hji, Function.update_self, Function.update_self, hfifo, List.append_assoc]
  · rw [Function.update_of_ne hji, Function.update_of_ne hji, hfifo]

theorem Good.dequeue (h : Good s) (i : ι) : Good (dequeue s i) := by
  obtain ⟨ls, hq, hfifo⟩ := h
  unfold Shared.dequeue
  cases hls : ls i with
  | nil =>
    have hline := hq.line i
    rw [hls] at hline
    rw [hline.dequeue_nil]
    dsimp only
    rw [Option.toList_none, List.append_nil, Function.update_eq_self, Function.update_eq_self]
    exact ⟨ls, hq, hfifo⟩
  | cons u ts =>
    obtain ⟨next', q', heq, hq'⟩ := hq.dequeue hls
    rw [heq]
    refine ⟨_, hq', fun j => ?_⟩
    dsimp only
    rw [hfifo]
    by_cases hji : j = i
    · rw [hji, Function.update_self, Function.update_self, hls, List.append_assoc]
      rfl
    · rw [Function.update_of_ne hji, Function.update_of_ne hji]

/-- **One step** keeps the queues apart exactly if it is permitted. -/
theorem Good.step_iff (h : Good s) (l : Label T ι) :
    Permitted s l ↔ Undisturbed s l ∧ Good (step s l) := by
  cases l with
  | dequeue i => exact iff_of_true trivial ⟨trivial, h.dequeue i⟩
  | enqueue i t =>
    have hgood := h
    obtain ⟨ls, hq, hfifo⟩ := h
    constructor
    · intro hp
      by_cases ht : ∃ j, t ∈ ls j
      · obtain ⟨j, hmem⟩ := ht
        have heq := enqueue_already (already_of_mem hq hmem hp)
        refine ⟨fun _ => heq, ?_⟩
        change Good (enqueue s i t)
        rw [heq]
        exact hgood
      · refine ⟨fun hqueued => absurd ((queued_iff hq).mp hqueued) ht, ?_⟩
        exact Good.enqueue_new hq hfifo (not_exists.mp ht) i
    · -- otherwise it would be the last of two queues
      rintro ⟨-, ls', hq', -⟩ ⟨j, hji, htail⟩
      have hi : ((enqueue s i t).queues i).tail = some t := tail_enqueue (not_already hq hji htail)
      have hj : ((enqueue s i t).queues j).tail = some t := by
        rw [tail_enqueue_of_ne hji]
        exact htail
      refine hji (hq'.one j i t ?_ ?_)
      · exact List.mem_of_getLast? ((hq'.line j).tail.symm.trans hj)
      · exact List.mem_of_getLast? ((hq'.line i).tail.symm.trans hi)

/-- **When the queues stay apart.** In every run in which no thread is enqueued while it is the last
one of another queue, all is well in every state; and the first step that does not keep to this is
the one that puts a thread on two queues. -/
theorem shared_next_iff {s : State T ι} (h : ((sys T ι).restrict Permitted).Reach s) :
    Good s ∧ ∀ l s', (sys T ι).step s l s' →
      (Permitted s l ↔ Undisturbed s l ∧ Good s') := by
  have hgood : Good s := by
    refine h.invariant (I := Good) ?_ ?_
    · rintro s rfl
      exact good_start
    · rintro s l s' - hs ⟨hp, rfl⟩
      exact ((hs.step_iff l).mp hp).2
  refine ⟨hgood, ?_⟩
  rintro l s' rfl
  exact hgood.step_iff l

end Steps

/-- One thread in one of two queues. -/
theorem shared_next_one :
    Good (enqueue (start : State Unit Bool) false ()) ∧
      (Permitted (enqueue (start : State Unit Bool) false ()) (.enqueue true ()) ↔
        Undisturbed (enqueue (start : State Unit Bool) false ()) (.enqueue true ()) ∧
          Good (enqueue (enqueue (start : State Unit Bool) false ()) true ())) := by
  have h0 : ((sys Unit Bool).restrict Permitted).Reach start := .init rfl
  have h := shared_next_iff (h0.step_restrict (l := .enqueue false ()) (by
    rintro ⟨j, -, hj⟩
    cases hj) rfl)
  exact ⟨h.1, h.2 _ _ rfl⟩

/-- The same thread is put into the other queue as well. -/
theorem shared_next_twice : ¬∀ s, (sys Unit Bool).Reach s → Good s := by
  intro h
  have h0 : (sys Unit Bool).Reach start := .init rfl
  have h2 := (h0.step (l := .enqueue false ()) rfl).step (l := .enqueue true ()) rfl
  obtain ⟨ls, hq, -⟩ := h _ h2
  have hf : () ∈ ls false := List.mem_of_getLast? ((hq.line false).tail.symm.trans rfl)
  have ht : () ∈ ls true := List.mem_of_getLast? ((hq.line true).tail.symm.trans rfl)
  cases hq.one false true () hf ht

end IntroSystems.Uthread.Shared
