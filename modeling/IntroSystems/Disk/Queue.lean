import IntroSystems.Disk.Model

/-!
# The queue of pending reads

`queue.c` of assignment 9. Its records are recycled as those of the disk are.

* `queueEnqueue`, `queueDequeue`.
* **`queueEnqueue_spec`**, **`queueDequeue_spec`**: first in, first out; an empty queue gives
  `NULL`.
-/

set_option autoImplicit false

namespace IntroSystems.Disk

open Recycling

/-- What a `struct queue_e` carries; `C` are the functions that may be called back. -/
structure Item (C : Type) where
  val : Option ℕ
  arg : Option ℕ
  callback : Option C

variable {C : Type}

def queueEnqueue (q : Queue (Item C)) (val arg : Option ℕ) (callback : Option C) :
    Option (Queue (Item C)) :=
  q.enqueue ⟨val, arg, callback⟩

/-- `queue_dequeue (q, &val, NULL, &callback)`: what is left, `val` and `callback`. -/
def queueDequeue (q : Queue (Item C)) : Option (Queue (Item C) × Option ℕ × Option C) :=
  match q.front with
  | none => some (q, none, none)
  | some p => do
    let c ← q.cells.get p
    let q ← q.dequeue
    let q ← q.clearNext
    some (q, c.val.val, c.val.callback)

/-- The queue holds these items, from the front to the back. -/
def Holds (q : Queue (Item C)) (items : List (Item C)) : Prop :=
  ∃ line spare, Recycles q line spare ∧ line.map Prod.snd = items

variable {q q' : Queue (Item C)} {items : List (Item C)}

theorem holds_empty : Holds (Queue.empty : Queue (Item C)) [] := ⟨[], [], .empty, rfl⟩

theorem queueEnqueue_spec (hq : Holds q items) (val arg : Option ℕ) (callback : Option C) :
    ∃ q', queueEnqueue q val arg callback = some q' ∧
      Holds q' (items ++ [⟨val, arg, callback⟩]) := by
  obtain ⟨line, spare, hr, rfl⟩ := hq
  obtain ⟨q', p, spare', henq, hr'⟩ := hr.enqueue ⟨val, arg, callback⟩
  exact ⟨q', henq, _, spare', hr', by simp⟩

theorem queueDequeue_nil (hq : Holds q []) : queueDequeue q = some (q, none, none) := by
  obtain ⟨line, spare, hr, hline⟩ := hq
  obtain rfl := List.map_eq_nil_iff.mp hline
  unfold queueDequeue
  rw [hr.front_eq]
  rfl

theorem queueDequeue_spec {x : Item C} (hq : Holds q (x :: items)) :
    ∃ q', queueDequeue q = some (q', x.val, x.callback) ∧ Holds q' items := by
  obtain ⟨line, spare, hr, hline⟩ := hq
  cases line with
  | nil => cases hline
  | cons y line =>
    obtain ⟨p, y⟩ := y
    obtain ⟨rfl, rfl⟩ := List.cons.inj hline
    obtain ⟨hfront, c, hc, hcy⟩ := hr.front_cell
    obtain ⟨q₁, hdeq, hr₁⟩ := hr.dequeue
    obtain ⟨q₂, hclear, hr₂⟩ := hr₁.clearNext
    refine ⟨q₂, ?_, line, _, hr₂, rfl⟩
    unfold queueDequeue
    rw [hfront]
    simp only [Option.bind_eq_bind, hc, hdeq, hclear, Option.bind_some, hcy]

end IntroSystems.Disk
