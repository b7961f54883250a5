import IntroSystems.Disk.Callbacks

/-!
# `queue_destroy`

`queue_destroy` of assignment 9. The use of a record that is not live, or no longer, is a fault.

* `destroyDrain`, `destroyFree`: its two loops; `queueDestroy`.
* `Kept.drain`: the first one leaves in line what is behind a `NULL` among the values.
* `Kept.destroy_fault`: the second one uses the first record that it has freed.
* **`queue_destroy_iff`**: all goes well exactly if nothing was ever put into the queue.
-/

set_option autoImplicit false

namespace IntroSystems.Disk

open Recycling

variable {C : Type}

/-! ## The code -/

/-- Why a loop does not end: it needs more rounds, or it uses a record that is not live. -/
inductive Stop
  | fuel
  | fault
  deriving DecidableEq

/-- `do queue_dequeue (q, &val, NULL, NULL); while (val);` -/
def destroyDrain : ℕ → Queue (Item C) → Except Stop (Queue (Item C))
  | 0, _ => .error .fuel
  | fuel + 1, q =>
    match queueDequeueInto q false false with
    | none => .error .fault
    | some (q, out) => if out.val = none then .ok q else destroyDrain fuel q

/-- `for (e = q->free; e; e = e->next) free (e);`, with the records that it has freed. -/
def destroyFree : ℕ → Heap (Cell (Item C)) → Option ℕ → Except Stop (Heap (Cell (Item C)) × List ℕ)
  | 0, _, _ => .error .fuel
  | _ + 1, cells, none => .ok (cells, [])
  | fuel + 1, cells, some e =>
    match cells.free e with
    | none => .error .fault
    | some cells =>
      -- `e->next` is read when `e` has been freed
      match cells.get e with
      | none => .error .fault
      | some c => (destroyFree fuel cells c.next).map fun r => (r.1, e :: r.2)

/-- What `queue_destroy` frees. -/
inductive Block
  | record (p : ℕ)
  | queue
  deriving DecidableEq

/-- `queue_destroy`: the records that are left, and what has been freed. -/
def queueDestroy (fuel : ℕ) (q : Queue (Item C)) :
    Except Stop (Heap (Cell (Item C)) × List Block) :=
  match destroyDrain fuel q with
  | .error stop => .error stop
  | .ok q =>
    (destroyFree fuel q.cells q.free).map fun r => (r.1, r.2.map Block.record ++ [.queue])

/-- It comes to an end without a fault, and has then freed every record there has ever been once, and
after them the queue. -/
def Destroys (q : Queue (Item C)) : Prop :=
  ∃ (fuel : ℕ) (cells : Heap (Cell (Item C))) (freed : List ℕ),
    queueDestroy fuel q = .ok (cells, freed.map Block.record ++ [.queue]) ∧
      freed.Perm (List.range q.cells.size)

variable {q q' : Queue (Item C)} {items : List (Item C)} {calls : List (Call C)}
  {outs : List (Stored C)} {fuel : ℕ}

/-! ## The records -/

theorem size_dequeueInto {arg callback : Bool} {out : Stored C}
    (h : queueDequeueInto q arg callback = some (q', out)) : q'.cells.size = q.cells.size := by
  unfold queueDequeueInto at h
  split at h
  · cases h
    rfl
  · obtain ⟨c, -, h⟩ := Option.bind_eq_some_iff.mp h
    obtain ⟨q₁, hdeq, h⟩ := Option.bind_eq_some_iff.mp h
    obtain ⟨q₂, hclear, h⟩ := Option.bind_eq_some_iff.mp h
    cases h
    rw [size_clearNext hclear, size_dequeue hdeq]

theorem Kept.length_add (h : Kept q items) :
    ∃ line spare, Recycles q line spare ∧ line.map Prod.snd = items ∧
      items.length + spare.length = q.cells.size := by
  obtain ⟨⟨line, spare, hr, rfl⟩, hf⟩ := h
  refine ⟨line, spare, hr, rfl, ?_⟩
  rw [List.length_map]
  exact hr.length_add hf

theorem Kept.length_le (h : Kept q items) : items.length ≤ q.cells.size := by
  obtain ⟨line, spare, -, -, hlen⟩ := h.length_add
  omega

theorem Kept.free_eq (h : Kept q items) (hlt : items.length < q.cells.size) :
    ∃ p c, q.free = some p ∧ q.cells.get p = some c := by
  obtain ⟨line, spare, hr, -, hlen⟩ := h.length_add
  cases spare with
  | nil =>
    rw [List.length_nil] at hlen
    omega
  | cons p spare =>
    obtain ⟨hfree, c, hc, -⟩ := hr.free
    exact ⟨p, c, hfree, hc⟩

theorem Kept.size_run (h : Kept q items) (hrun : callsRun q calls = some (q', outs)) :
    q'.cells.size = 0 ↔ q.cells.size = 0 ∧ enqueued calls = [] := by
  induction calls generalizing q items outs with
  | nil =>
    cases hrun
    exact (and_iff_left rfl).symm
  | cons call calls ih =>
    cases call with
    | enqueue val arg callback =>
      obtain ⟨q₁, henq, h₁⟩ := h.enqueue val arg callback
      have hle := h₁.length_le
      have hcons : enqueued (Call.enqueue val arg callback :: calls) =
          ⟨val, arg, callback⟩ :: enqueued calls := rfl
      rw [List.length_append, List.length_singleton] at hle
      rw [callsRun, henq] at hrun
      rw [ih h₁ hrun, hcons]
      refine iff_of_false (fun hz => ?_) fun hz => by cases hz.2
      omega
    | dequeue arg callback =>
      obtain ⟨q₁, hdeq, h₁⟩ := h.dequeue arg callback
      have hnone : enqueued (Call.dequeue arg callback :: calls) = enqueued calls := rfl
      rw [callsRun, hdeq, Option.bind_eq_bind, Option.bind_some] at hrun
      obtain ⟨⟨q₂, outs₂⟩, hrun₂, hq₂⟩ := Option.bind_eq_some_iff.mp hrun
      obtain ⟨rfl, -⟩ := Prod.mk.inj (Option.some.inj hq₂)
      rw [ih h₁ hrun₂, size_dequeueInto hdeq, hnone]

/-! ## The loops -/

/-- What a `NULL` among the values hides from the first loop. -/
def behindNull (items : List (Item C)) : List (Item C) :=
  (items.dropWhile fun x => x.val.isSome).tail

/-- **The first loop** stops at a `NULL` among the values, or when the queue is empty. -/
theorem Kept.drain (h : Kept q items) (fuel : ℕ) :
    (fuel ≤ items.length ∧ destroyDrain fuel q = .error .fuel) ∨
      ∃ q', destroyDrain fuel q = .ok q' ∧ Kept q' (behindNull items) ∧
        q'.cells.size = q.cells.size := by
  induction items generalizing q fuel with
  | nil =>
    cases fuel with
    | zero => exact .inl ⟨Nat.le_refl 0, rfl⟩
    | succ fuel =>
      refine .inr ⟨q, ?_, h, rfl⟩
      rw [destroyDrain, h.dequeue_nil]
      rfl
  | cons x items ih =>
    cases fuel with
    | zero => exact .inl ⟨Nat.zero_le _, rfl⟩
    | succ fuel =>
      obtain ⟨q₁, hdeq, h₁⟩ := h.dequeue false false
      have hsize := size_dequeueInto hdeq
      rw [destroyDrain, hdeq]
      dsimp only [Taken.stored, List.head?_cons, Option.bind_some]
      cases hval : x.val with
      | none =>
        have hbehind : behindNull (x :: items) = items := by simp [behindNull, hval]
        rw [hbehind]
        exact .inr ⟨q₁, rfl, h₁, hsize⟩
      | some v =>
        have hbehind : behindNull (x :: items) = behindNull items := by simp [behindNull, hval]
        rw [if_neg (by simp), hbehind]
        rcases ih h₁ fuel with ⟨hle, hfuel⟩ | ⟨q', hdrain, h', hsize'⟩
        · exact .inl ⟨Nat.succ_le_succ hle, hfuel⟩
        · exact .inr ⟨q', hdrain, h', hsize'.trans hsize⟩

theorem behindNull_length_lt {x : Item C} :
    (behindNull (x :: items)).length < (x :: items).length := by
  have hle : ((x :: items).dropWhile fun x => x.val.isSome).length ≤ (x :: items).length :=
    (List.dropWhile_suffix _).length_le
  rw [behindNull, List.length_tail]
  rw [List.length_cons] at hle ⊢
  omega

/-- **The second loop** comes no further than the first record. -/
theorem destroyFree_some {cells : Heap (Cell (Item C))} {e : ℕ} {c : Cell (Item C)}
    (he : cells.get e = some c) : destroyFree (fuel + 1) cells (some e) = .error .fault := by
  rw [destroyFree, Heap.free_eq he]
  dsimp only
  rw [Heap.get_put_self he]

/-- **Where there are records, one is used that has been freed.** -/
theorem Kept.destroy_fault (h : Kept q items) (hsize : q.cells.size ≠ 0) (fuel : ℕ) :
    (fuel ≤ items.length ∧ queueDestroy fuel q = .error .fuel) ∨
      queueDestroy fuel q = .error .fault := by
  unfold queueDestroy
  rcases h.drain fuel with ⟨hle, hfuel⟩ | ⟨q', hdrain, h', hsize'⟩
  · rw [hfuel]
    exact .inl ⟨hle, rfl⟩
  · have hlt : (behindNull items).length < q'.cells.size := by
      rw [hsize']
      cases items with
      | nil => exact Nat.pos_of_ne_zero hsize
      | cons x items => exact Nat.lt_of_lt_of_le behindNull_length_lt h.length_le
    obtain ⟨p, c, hfree, hc⟩ := h'.free_eq hlt
    cases fuel with
    | zero => cases hdrain
    | succ fuel =>
      rw [hdrain]
      dsimp only
      rw [hfree, destroyFree_some hc]
      exact .inr rfl

theorem Kept.destroy_nil (h : Kept q items) (hsize : q.cells.size = 0) :
    queueDestroy 1 q = .ok (q.cells, [.queue]) := by
  obtain ⟨line, spare, hr, -, hlen⟩ := h.length_add
  have hnil : items = [] := List.eq_nil_of_length_eq_zero (by omega)
  have hspare : spare = [] := List.eq_nil_of_length_eq_zero (by omega)
  subst hnil hspare
  have hfree : q.free = none := hr.free
  unfold queueDestroy destroyDrain
  rw [h.dequeue_nil]
  dsimp only
  rw [if_pos rfl]
  dsimp only
  rw [hfree]
  rfl

theorem Kept.destroys_iff (h : Kept q items) : Destroys q ↔ q.cells.size = 0 := by
  constructor
  · rintro ⟨fuel, cells, freed, hok, -⟩
    by_contra hsize
    rcases h.destroy_fault hsize fuel with ⟨-, hstop⟩ | hstop
    · rw [hstop] at hok
      cases hok
    · rw [hstop] at hok
      cases hok
  · intro hsize
    refine ⟨1, q.cells, [], h.destroy_nil hsize, ?_⟩
    rw [hsize]
    exact List.Perm.refl _

/-- **`queue_destroy` is right only for a queue into which nothing was ever put.** -/
theorem queue_destroy_iff (calls : List (Call C)) :
    ∃ q outs, callsRun Queue.empty calls = some (q, outs) ∧
      (Destroys q ↔ enqueued calls = []) := by
  have hempty : Kept (Queue.empty : Queue (Item C)) [] := kept_empty
  obtain ⟨q, hrun, hq⟩ := hempty.run calls
  refine ⟨q, _, hrun, ?_⟩
  rw [hq.destroys_iff, hempty.size_run hrun]
  exact and_iff_right rfl

/-- One entry, taken out again: its record is used when it has been freed. -/
theorem queue_destroy_freed : ¬∀ (calls : List (Call Unit)) q outs,
    callsRun Queue.empty calls = some (q, outs) → Destroys q := by
  intro h
  have hkept : Kept (Queue.empty : Queue (Item Unit)) [] := kept_empty
  obtain ⟨q, hrun, hq⟩ := hkept.run [.enqueue (some 8) none none, .dequeue false false]
  have hsize := (hq.destroys_iff).mp (h _ _ _ hrun)
  cases ((hkept.size_run hrun).mp hsize).2

/-- A `NULL` among the values: the entry behind it is still in line after the first loop. -/
example : (do
    let q ← queueEnqueue (Queue.empty : Queue (Item Unit)) none none none
    let q ← queueEnqueue q (some 8) none none
    (destroyDrain 3 q).toOption.map Queue.front) = some (some 1) := by
  decide

end IntroSystems.Disk
