import IntroSystems.Disk.Queue

/-!
# The queue of callbacks is first in, first out

`queue.c` of assignment 9, with all that `queue_dequeue` stores.

* `queueDequeueInto`: `queue_dequeue`; `queueDequeue_eq`: it is what the service routines call.
* `callsRun`: calls on one queue, and `fifo`: the same calls on a list.
* `Represents`: the records in line carry the list, and with the free ones they are all there are.
* **`queue_fifo`**: every sequence of calls does on the records what it does on the list.
-/

set_option autoImplicit false

namespace IntroSystems.Disk

open Recycling

variable {C : Type}

/-- What `queue_dequeue` stores at its pointers; `none` where it stores nothing. -/
structure Stored (C : Type) where
  val : Option ℕ
  arg : Option (Option ℕ)
  callback : Option (Option C)

/-- `queue_dequeue (q, &val, arg, callback)`, where `arg` and `callback` say whether these pointers
lead anywhere. An empty queue leaves `*arg` alone. -/
def queueDequeueInto (q : Queue (Item C)) (arg callback : Bool) :
    Option (Queue (Item C) × Stored C) :=
  match q.front with
  | none => some (q, ⟨none, none, if callback then some none else none⟩)
  | some p => do
    let c ← q.cells.get p
    let q ← q.dequeue
    let q ← q.clearNext
    some (q, ⟨c.val.val, if arg then some c.val.arg else none,
      if callback then some c.val.callback else none⟩)

theorem queueDequeue_eq (q : Queue (Item C)) : queueDequeue q =
    (queueDequeueInto q false true).map fun r => (r.1, r.2.val, r.2.callback.join) := by
  unfold queueDequeue queueDequeueInto
  cases q.front with
  | none => rfl
  | some p =>
    dsimp only
    cases q.cells.get p with
    | none => rfl
    | some c =>
      cases q.dequeue with
      | none => rfl
      | some q₁ => cases h : q₁.clearNext <;> simp [h]

/-! ## Calls -/

/-- A call on the queue. -/
inductive Call (C : Type)
  | enqueue (val arg : Option ℕ) (callback : Option C)
  | dequeue (arg callback : Bool)

/-- Calls, one after another, with what the dequeues store. -/
def callsRun : Queue (Item C) → List (Call C) → Option (Queue (Item C) × List (Stored C))
  | q, [] => some (q, [])
  | q, .enqueue val arg callback :: calls => do
    let q ← queueEnqueue q val arg callback
    callsRun q calls
  | q, .dequeue arg callback :: calls => do
    let (q, out) ← queueDequeueInto q arg callback
    let (q, outs) ← callsRun q calls
    some (q, out :: outs)

/-- What a dequeue takes off a list. -/
structure Taken (C : Type) where
  item : Option (Item C)
  arg : Bool
  callback : Bool

/-- How it is stored. -/
def Taken.stored (t : Taken C) : Stored C where
  val := t.item.bind Item.val
  arg := if t.arg then t.item.map Item.arg else none
  callback := if t.callback then some (t.item.bind Item.callback) else none

/-- The same calls on a list. -/
def fifo : List (Item C) → List (Call C) → List (Item C) × List (Taken C)
  | items, [] => (items, [])
  | items, .enqueue val arg callback :: calls => fifo (items ++ [⟨val, arg, callback⟩]) calls
  | items, .dequeue arg callback :: calls =>
    ((fifo items.tail calls).1, ⟨items.head?, arg, callback⟩ :: (fifo items.tail calls).2)

def Call.item : Call C → Option (Item C)
  | enqueue val arg callback => some ⟨val, arg, callback⟩
  | dequeue .. => none

/-- What has been put into the queue. -/
def enqueued (calls : List (Call C)) : List (Item C) := calls.filterMap Call.item

/-- **First in, first out**: what has been taken is the first of what has been put in. -/
theorem fifo_order (items : List (Item C)) (calls : List (Call C)) :
    (fifo items calls).2.filterMap Taken.item ++ (fifo items calls).1 = items ++ enqueued calls := by
  induction calls generalizing items with
  | nil => exact (List.append_nil items).symm
  | cons call calls ih =>
    cases call with
    | enqueue val arg callback =>
      rw [fifo, ih, List.append_assoc]
      rfl
    | dequeue arg callback =>
      have hnone : enqueued (Call.dequeue arg callback :: calls) = enqueued calls := rfl
      rw [fifo, hnone]
      cases items with
      | nil => exact ih []
      | cons x items => exact congrArg (x :: ·) (ih items)

/-! ## The records -/

/-- The records in line carry `items`; with those of the free list they are all there have been. -/
def Represents (q : Queue (Item C)) (items : List (Item C)) : Prop :=
  ∃ line spare, Recycles q line spare ∧ line.map Prod.snd = items ∧
    ∀ p, p < q.cells.size ↔ p ∈ line.map Prod.fst ++ spare

variable {q : Queue (Item C)} {items : List (Item C)}

/-- The queue holds `items`, and no record has been freed. -/
def Kept (q : Queue (Item C)) (items : List (Item C)) : Prop := Holds q items ∧ q.cells.Full

theorem Kept.represents (h : Kept q items) : Represents q items := by
  obtain ⟨⟨line, spare, hr, hline⟩, hf⟩ := h
  exact ⟨line, spare, hr, hline, fun p => hr.lt_size_iff hf⟩

theorem Kept.enqueue (h : Kept q items) (val arg : Option ℕ) (callback : Option C) :
    ∃ q', queueEnqueue q val arg callback = some q' ∧ Kept q' (items ++ [⟨val, arg, callback⟩]) := by
  obtain ⟨q', henq, hq'⟩ := queueEnqueue_spec h.1 val arg callback
  exact ⟨q', henq, hq', full_enqueue h.2 henq⟩

theorem Kept.front_eq (h : Kept q []) : q.front = none := by
  obtain ⟨⟨line, spare, hr, hline⟩, -⟩ := h
  obtain rfl := List.map_eq_nil_iff.mp hline
  exact hr.front_eq

theorem Kept.dequeue_nil (h : Kept q []) (arg callback : Bool) :
    queueDequeueInto q arg callback =
      some (q, ⟨none, none, if callback then some none else none⟩) := by
  rw [queueDequeueInto, h.front_eq]

theorem Kept.dequeue (h : Kept q items) (arg callback : Bool) :
    ∃ q', queueDequeueInto q arg callback =
        some (q', Taken.stored ⟨items.head?, arg, callback⟩) ∧ Kept q' items.tail := by
  cases items with
  | nil =>
    refine ⟨q, ?_, h⟩
    rw [h.dequeue_nil]
    cases arg <;> rfl
  | cons x items =>
    obtain ⟨⟨line, spare, hr, hline⟩, hf⟩ := h
    cases line with
    | nil => cases hline
    | cons y line =>
      obtain ⟨p, y⟩ := y
      obtain ⟨rfl, rfl⟩ := List.cons.inj hline
      obtain ⟨hfront, c, hc, rfl⟩ := hr.front_cell
      obtain ⟨q₁, hdeq, hr₁⟩ := hr.dequeue
      obtain ⟨q₂, hclear, hr₂⟩ := hr₁.clearNext
      refine ⟨q₂, ?_, ⟨line, _, hr₂, rfl⟩, full_clearNext (full_dequeue hf hdeq) hclear⟩
      unfold queueDequeueInto
      rw [hfront]
      simp only [Option.bind_eq_bind, hc, hdeq, hclear, Option.bind_some]
      rfl

theorem Kept.run (h : Kept q items) (calls : List (Call C)) :
    ∃ q', callsRun q calls = some (q', (fifo items calls).2.map Taken.stored) ∧
      Kept q' (fifo items calls).1 := by
  induction calls generalizing q items with
  | nil => exact ⟨q, rfl, h⟩
  | cons call calls ih =>
    cases call with
    | enqueue val arg callback =>
      obtain ⟨q₁, henq, h₁⟩ := h.enqueue val arg callback
      obtain ⟨q', hrun, h'⟩ := ih h₁
      refine ⟨q', ?_, h'⟩
      simp only [callsRun, henq, Option.bind_eq_bind, Option.bind_some, hrun, fifo]
    | dequeue arg callback =>
      obtain ⟨q₁, hdeq, h₁⟩ := h.dequeue arg callback
      obtain ⟨q', hrun, h'⟩ := ih h₁
      refine ⟨q', ?_, h'⟩
      simp only [callsRun, hdeq, Option.bind_eq_bind, Option.bind_some, hrun, fifo, List.map_cons]

theorem kept_empty : Kept (Queue.empty : Queue (Item C)) [] :=
  ⟨holds_empty, fun p hp => absurd hp (Nat.not_lt_zero p)⟩

/-- **The queue is first in, first out.** Whatever is called on a new queue, no pointer leads astray;
the dequeues store what they take off a list, in the order in which it was put in, and nothing twice;
an empty queue stays as it is; the records in line and the free ones do not overlap, and are all
there have ever been. -/
theorem queue_fifo (calls : List (Call C)) :
    ∃ q, callsRun Queue.empty calls = some (q, (fifo [] calls).2.map Taken.stored) ∧
      Represents q (fifo [] calls).1 ∧
      (fifo [] calls).2.filterMap Taken.item ++ (fifo [] calls).1 = enqueued calls ∧
      ((fifo [] calls).1 = [] → ∀ arg callback, queueDequeueInto q arg callback =
        some (q, ⟨none, none, if callback then some none else none⟩)) := by
  obtain ⟨q, hrun, hkept⟩ := kept_empty.run calls
  refine ⟨q, hrun, hkept.represents, fifo_order [] calls, fun hnil arg callback => ?_⟩
  rw [hnil] at hkept
  exact hkept.dequeue_nil arg callback

end IntroSystems.Disk
