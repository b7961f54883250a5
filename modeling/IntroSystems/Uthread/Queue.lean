import Mathlib.Data.List.Nodup
import Mathlib.Logic.Function.Basic
import Mathlib.Tactic.Common

/-!
# Queues of threads

The thread queues of `uthread.c` of assignment 10. A queue is linked through the `next` fields of
its threads. A thread has one such field, so all queues share them.

* `ThreadQueue`, `uthreadEnqueue`, `uthreadDequeue`.
* `Line`: a queue is a list of threads. **`Line.enqueue`**, **`Line.dequeue`**.
* `Queues`: so are all, and no thread is in two of them. **`Queues.enqueue`**, **`Queues.dequeue`**.
-/

set_option autoImplicit false

namespace IntroSystems.Uthread

/-- `uthread_queue_t`. `NULL` is `none`. -/
structure ThreadQueue (T : Type) where
  head : Option T
  tail : Option T
  deriving DecidableEq

variable {T : Type}

/-- `uthread_initqueue`. -/
def initqueue : ThreadQueue T := ⟨none, none⟩

/-- `uthread_queue_is_empty`. -/
def ThreadQueue.isEmpty (q : ThreadQueue T) : Bool := q.head.isNone

section Operations

variable [DecidableEq T]

def uthreadEnqueue (next : T → Option T) (q : ThreadQueue T) (t : T) :
    (T → Option T) × ThreadQueue T :=
  if next t ≠ none ∨ q.tail = some t then (next, q)  -- already enqueued
  else
    let next := Function.update next t none
    let next := match q.tail with
      | none => next
      | some u => Function.update next u (some t)
    (next, ⟨if q.head = none then some t else q.head, some t⟩)

/-- The last component is the thread that is returned. -/
def uthreadDequeue (next : T → Option T) (q : ThreadQueue T) :
    (T → Option T) × ThreadQueue T × Option T :=
  match q.head with
  | none => (next, q, none)
  | some t =>
    let head := next t
    (Function.update next t none, ⟨head, if head = none then none else q.tail⟩, some t)

end Operations

/-! ## One queue -/

/-- The `next` fields lead from `p` through `ts` to `NULL`. -/
def Path (next : T → Option T) : Option T → List T → Prop
  | p, [] => p = none
  | p, t :: ts => p = some t ∧ Path next (next t) ts

/-- The queue is the list `ts`, from head to tail. -/
structure Line (next : T → Option T) (q : ThreadQueue T) (ts : List T) : Prop where
  path : Path next q.head ts
  tail : q.tail = ts.getLast?
  nodup : ts.Nodup

variable {next next' : T → Option T} {q : ThreadQueue T} {p : Option T} {ts : List T} {t u : T}

theorem Path.head (h : Path next p ts) : p = ts.head? := by
  cases ts with
  | nil => exact h
  | cons t ts => exact h.1

theorem Path.congr (h : Path next p ts) (hsame : ∀ t ∈ ts, next' t = next t) :
    Path next' p ts := by
  induction ts generalizing p with
  | nil => exact h
  | cons t ts ih =>
    obtain ⟨rfl, hrest⟩ := h
    refine ⟨rfl, ?_⟩
    rw [hsame t List.mem_cons_self]
    exact ih hrest fun u hu => hsame u (List.mem_cons_of_mem t hu)

theorem Path.last (h : Path next p (ts ++ [u])) : next u = none := by
  induction ts generalizing p with
  | nil => exact h.2
  | cons t ts ih => exact ih h.2

theorem Line.congr (h : Line next q ts) (hsame : ∀ t ∈ ts, next' t = next t) :
    Line next' q ts := ⟨h.path.congr hsame, h.tail, h.nodup⟩

theorem Line.isEmpty_iff (h : Line next q ts) : q.isEmpty = true ↔ ts = [] := by
  rw [ThreadQueue.isEmpty, h.path.head]
  cases ts <;> simp

theorem line_initqueue : Line next (initqueue : ThreadQueue T) [] := ⟨rfl, rfl, List.nodup_nil⟩

variable [DecidableEq T]

theorem Path.snoc (h : Path next p (ts ++ [u])) (hnd : (ts ++ [u]).Nodup) (ht : next t = none)
    (hne : t ≠ u) : Path (Function.update next u (some t)) p (ts ++ [u] ++ [t]) := by
  induction ts generalizing p with
  | nil =>
    obtain ⟨rfl, -⟩ := h
    refine ⟨rfl, Function.update_self _ _ _, ?_⟩
    rw [Function.update_of_ne hne]
    exact ht
  | cons r ts ih =>
    obtain ⟨rfl, hrest⟩ := h
    have hnd' := List.nodup_cons.mp hnd
    have hru : r ≠ u := fun e => hnd'.1 (by simp [e])
    refine ⟨rfl, ?_⟩
    rw [Function.update_of_ne hru]
    exact ih hrest hnd'.2

/-- **`uthread_enqueue` puts a thread that is not queued at the end**, and touches the threads of
this queue only. -/
theorem Line.enqueue (h : Line next q ts) (hmem : t ∉ ts) (ht : next t = none) :
    Line (uthreadEnqueue next q t).1 (uthreadEnqueue next q t).2 (ts ++ [t]) ∧
      ∀ u ∉ ts, (uthreadEnqueue next q t).1 u = next u := by
  have hnd : (ts ++ [t]).Nodup := List.nodup_append_comm.mp (List.nodup_cons.mpr ⟨hmem, h.nodup⟩)
  have hup : Function.update next t none = next := by rw [← ht, Function.update_eq_self]
  have htail : q.tail ≠ some t := fun e => hmem (List.mem_of_getLast? (h.tail.symm.trans e))
  have heq : uthreadEnqueue next q t = _ := if_neg (not_or.mpr ⟨not_not.mpr ht, htail⟩)
  rw [heq, hup]
  rcases List.eq_nil_or_concat' ts with rfl | ⟨us, u, rfl⟩
  · rw [h.tail, h.path.head]
    exact ⟨⟨⟨rfl, ht⟩, rfl, List.nodup_singleton t⟩, fun _ _ => rfl⟩
  · have hlast : (us ++ [u]).getLast? = some u := List.getLast?_concat
    have htu : t ≠ u := fun e => hmem (by simp [e])
    have hhead : q.head ≠ none := by
      rw [h.path.head]
      cases us <;> simp
    rw [h.tail, hlast]
    dsimp only
    rw [if_neg hhead]
    refine ⟨⟨h.path.snoc h.nodup ht htu, List.getLast?_concat.symm, hnd⟩, fun r hr => ?_⟩
    exact Function.update_of_ne (fun e => hr (by simp [e])) _ _

theorem Line.dequeue_nil (h : Line next q []) : uthreadDequeue next q = (next, q, none) := by
  have hhead : q.head = none := h.path
  rw [uthreadDequeue, hhead]

/-- **`uthread_dequeue` takes the first thread out.** -/
theorem Line.dequeue (h : Line next q (t :: ts)) :
    ∃ q', uthreadDequeue next q = (Function.update next t none, q', some t) ∧
      Line (Function.update next t none) q' ts := by
  obtain ⟨hhead, hrest⟩ := h.path
  have hnd := List.nodup_cons.mp h.nodup
  have hsame : ∀ u ∈ ts, Function.update next t none u = next u := fun u hu => by
    have hut : u ≠ t := fun e => hnd.1 (e ▸ hu)
    exact Function.update_of_ne hut _ _
  refine ⟨_, by rw [uthreadDequeue, hhead], hrest.congr hsame, ?_, hnd.2⟩
  rw [hrest.head, h.tail]
  cases ts <;> simp

/-! ## All queues -/

variable {ι : Type} {qs : ι → ThreadQueue T} {ls : ι → List T} {i : ι}

omit [DecidableEq T] in
/-- The queues are these lists, and a thread is in one of them or has no next thread. -/
structure Queues (next : T → Option T) (qs : ι → ThreadQueue T) (ls : ι → List T) : Prop where
  line : ∀ i, Line next (qs i) (ls i)
  one : ∀ i j t, t ∈ ls i → t ∈ ls j → i = j
  free : ∀ t, (∀ i, t ∉ ls i) → next t = none

omit [DecidableEq T] in
theorem queues_initqueue : Queues (fun _ : T => none) (fun _ : ι => initqueue) fun _ => [] where
  line _ := line_initqueue
  one _ _ _ h := absurd h List.not_mem_nil
  free _ _ := rfl

variable [DecidableEq ι]

theorem Queues.enqueue (h : Queues next qs ls) (ht : ∀ j, t ∉ ls j) (i : ι) :
    Queues (uthreadEnqueue next (qs i) t).1
      (Function.update qs i (uthreadEnqueue next (qs i) t).2)
      (Function.update ls i (ls i ++ [t])) := by
  obtain ⟨hline, hother⟩ := (h.line i).enqueue (ht i) (h.free t ht)
  have hmem : ∀ j u, u ∈ Function.update ls i (ls i ++ [t]) j → u ∈ ls j ∨ (u = t ∧ j = i) := by
    intro j u hu
    by_cases hj : j = i
    · subst hj
      rw [Function.update_self, List.mem_append, List.mem_singleton] at hu
      exact hu.imp id fun e => ⟨e, rfl⟩
    · rw [Function.update_of_ne hj] at hu
      exact .inl hu
  refine ⟨fun j => ?_, fun j k u hj hk => ?_, fun u hu => ?_⟩
  · by_cases hj : j = i
    · subst hj
      rw [Function.update_self, Function.update_self]
      exact hline
    · rw [Function.update_of_ne hj, Function.update_of_ne hj]
      exact (h.line j).congr fun u hu => hother u fun hui => hj (h.one j i u hu hui)
  · rcases hmem j u hj with hj | ⟨rfl, rfl⟩ <;> rcases hmem k _ hk with hk | ⟨hk', hk''⟩
    · exact h.one j k u hj hk
    · exact absurd (hk' ▸ hj) (ht j)
    · exact absurd hk (ht k)
    · exact hk''.symm
  · have hui : u ∉ ls i := fun hm => hu i (by
      rw [Function.update_self]
      exact List.mem_append_left _ hm)
    rw [hother u hui]
    refine h.free u fun j hm => ?_
    by_cases hj : j = i
    · exact hui (hj ▸ hm)
    · exact hu j (by rwa [Function.update_of_ne hj])

theorem Queues.dequeue (h : Queues next qs ls) (hi : ls i = t :: ts) :
    ∃ next' q', uthreadDequeue next (qs i) = (next', q', some t) ∧
      Queues next' (Function.update qs i q') (Function.update ls i ts) := by
  have hline := h.line i
  rw [hi] at hline
  obtain ⟨q', heq, hline'⟩ := hline.dequeue
  have hti : t ∈ ls i := by
    rw [hi]
    exact List.mem_cons_self
  have hsub : ∀ j u, u ∈ Function.update ls i ts j → u ∈ ls j := by
    intro j u hu
    by_cases hj : j = i
    · subst hj
      rw [Function.update_self] at hu
      rw [hi]
      exact List.mem_cons_of_mem t hu
    · rwa [Function.update_of_ne hj] at hu
  refine ⟨_, q', heq, fun j => ?_, fun j k u hj hk => h.one j k u (hsub j u hj) (hsub k u hk),
    fun u hu => ?_⟩
  · by_cases hj : j = i
    · subst hj
      rw [Function.update_self, Function.update_self]
      exact hline'
    · rw [Function.update_of_ne hj, Function.update_of_ne hj]
      refine (h.line j).congr fun u hu => Function.update_of_ne ?_ _ _
      rintro rfl
      exact hj (h.one j i u hu hti)
  · by_cases hut : u = t
    · subst hut
      exact Function.update_self _ _ _
    · rw [Function.update_of_ne hut]
      refine h.free u fun j hm => ?_
      by_cases hj : j = i
      · subst hj
        rw [hi] at hm
        exact hu j (by rw [Function.update_self]; exact (List.mem_cons.mp hm).resolve_left hut)
      · exact hu j (by rwa [Function.update_of_ne hj])

end IntroSystems.Uthread
