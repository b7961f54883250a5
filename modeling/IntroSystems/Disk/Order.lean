import IntroSystems.Disk.Model
import Mathlib.Data.List.Perm.Basic

/-!
# The disk completes every read once, in order

* `drain_cons`, `drain_spec`: one section of the interrupt handler, on the list of waiting reads.
* `Drains`: it completes the read at the front exactly if that is due. **`drains`**.
* `Inv`: the scheduled reads are those that were completed and those that wait, in this order; of
  the completed ones each has had its interrupt, or is about to have it in one activation.
* `Inv.schedule`, `Inv.handler`: each step keeps it; **`disk_completes`**: it holds in every run.
-/

set_option autoImplicit false

namespace IntroSystems.Disk

open Recycling

variable {blocks : List (BitVec 32)} {mem : Ints} {d : Drive} {line : List (ℕ × PendingRead)}
  {spare : List ℕ} {s s' : State}

/-- What `disk_schedule_read` was asked for. -/
def PendingRead.request (r : PendingRead) : ℕ × BitVec 32 := (r.buf, r.blockNo)

variable (blocks) in
theorem drain_cons {p : ℕ} {r : PendingRead} (hr : Recycles d.prq ((p, r) :: line) spare)
    (now : Timeval) :
    ∃ prq, Recycles prq line (p :: spare) ∧ drain blocks d now =
      if tmCompare r.completeTime now ≤ 0 then
        some (⟨prq, performDMA blocks d.mem r.buf r.blockNo⟩, some r)
      else some (d, none) := by
  obtain ⟨hfront, c, hc, hcr⟩ := hr.front_cell
  obtain ⟨prq, hdeq, hrest⟩ := hr.dequeue
  have hdue : due d.prq now =
      some (if tmCompare r.completeTime now ≤ 0 then some r else none) := by
    unfold due
    rw [hfront]
    simp only [hc, Option.map_some, hcr]
  refine ⟨prq, hrest, ?_⟩
  unfold drain
  rw [hdue]
  by_cases ht : tmCompare r.completeTime now ≤ 0
  · rw [if_pos ht, if_pos ht]
    simp only [Option.bind_eq_bind, Option.bind_some, prqDequeueLockHeld, hdeq]
  · rw [if_neg ht, if_neg ht]
    rfl

variable (blocks) in
/-- **One section of the handler**: nothing is due, or the read at the front is completed. -/
theorem drain_spec (hr : Recycles d.prq line spare) (now : Timeval) :
    drain blocks d now = some (d, none) ∨
      ∃ p r rest prq, line = (p, r) :: rest ∧
        drain blocks d now = some (⟨prq, performDMA blocks d.mem r.buf r.blockNo⟩, some r) ∧
        Recycles prq rest (p :: spare) := by
  cases line with
  | nil =>
    have hdue : due d.prq now = some none := by
      unfold due
      rw [hr.front_eq]
      rfl
    refine .inl ?_
    unfold drain
    rw [hdue]
    rfl
  | cons x rest =>
    obtain ⟨p, r⟩ := x
    obtain ⟨prq, hrest, hdrain⟩ := drain_cons blocks hr now
    by_cases ht : tmCompare r.completeTime now ≤ 0
    · rw [if_pos ht] at hdrain
      exact .inr ⟨p, r, rest, prq, rfl, hdrain, hrest⟩
    · rw [if_neg ht] at hdrain
      exact .inl hdrain

/-- The handler completes the read at the front if it is due, and ends exactly if there is none or it
is not. -/
structure Drains (blocks : List (BitVec 32)) (d : Drive) (line : List (ℕ × PendingRead))
    (now : Timeval) : Prop where
  complete : ∀ p r rest, line = (p, r) :: rest → tmCompare r.completeTime now ≤ 0 →
    ∃ prq, drain blocks d now = some (⟨prq, performDMA blocks d.mem r.buf r.blockNo⟩, some r)
  done : drain blocks d now = some (d, none) ↔
    ∀ x ∈ line.head?, 0 < tmCompare x.2.completeTime now

variable (blocks) in
theorem drains (hr : Recycles d.prq line spare) (now : Timeval) : Drains blocks d line now := by
  cases line with
  | nil =>
    rcases drain_spec blocks hr now with h | ⟨p, r, rest, prq, h, -⟩
    · exact ⟨by simp, by simp [h]⟩
    · cases h
  | cons x rest =>
    obtain ⟨p, r⟩ := x
    obtain ⟨prq, -, hdrain⟩ := drain_cons blocks hr now
    refine ⟨?_, ?_⟩
    · rintro p' r' rest' ⟨⟩ ht
      exact ⟨prq, by rw [hdrain, if_pos ht]⟩
    · have hhead : (∀ x ∈ ((p, r) :: rest).head?, 0 < tmCompare x.2.completeTime now) ↔
          0 < tmCompare r.completeTime now := by simp
      rw [hdrain, hhead]
      by_cases ht : tmCompare r.completeTime now ≤ 0
      · rw [if_pos ht]
        exact iff_of_false (by simp) (by omega)
      · rw [if_neg ht]
        exact iff_of_true rfl (by omega)

theorem completed_snoc_none {log : List Event} {e : Event} (h : e.completed = none) :
    (log ++ [e]).filterMap Event.completed = log.filterMap Event.completed := by
  simp [List.filterMap_append, h]

theorem served_snoc_none {log : List Event} {e : Event} (h : e.served = none) :
    (log ++ [e]).filterMap Event.served = log.filterMap Event.served := by
  simp [List.filterMap_append, h]

theorem pending_none {pre post : List Activation} {a : Activation} (h : a.pending = none) :
    (pre ++ a :: post).filterMap Activation.pending =
      pre.filterMap Activation.pending ++ post.filterMap Activation.pending := by
  simp [List.filterMap_append, h]

theorem pending_some {pre post : List Activation} {a : Activation} {k : ℕ}
    (h : a.pending = some k) : (pre ++ a :: post).filterMap Activation.pending =
      pre.filterMap Activation.pending ++ k :: post.filterMap Activation.pending := by
  simp [List.filterMap_append, h]

/-- Interrupts come after the reads that they are for. -/
def AfterDMA (log : List Event) : Prop :=
  ∀ pre k post, log = pre ++ .isr k :: post → k < (pre.filterMap Event.completed).length

theorem AfterDMA.snoc {log : List Event} {e : Event} (h : AfterDMA log)
    (he : ∀ k, e = .isr k → k < (log.filterMap Event.completed).length) :
    AfterDMA (log ++ [e]) := by
  intro pre k post heq
  rcases List.eq_nil_or_concat post with rfl | ⟨post, x, rfl⟩
  · obtain ⟨rfl, hx⟩ := List.append_inj' heq rfl
    exact he k (List.cons.inj hx).1
  · rw [List.concat_eq_append, ← List.cons_append, ← List.append_assoc] at heq
    obtain ⟨rfl, -⟩ := List.append_inj' heq rfl
    exact h pre k post rfl

/-- The bookkeeping of a run from the memory `mem`, with the reads `line` waiting. -/
structure Inv (blocks : List (BitVec 32)) (mem : Ints) (s : State)
    (line : List (ℕ × PendingRead)) (spare : List ℕ) : Prop where
  rep : Recycles s.disk.prq line spare
  order : s.scheduled = s.completed ++ line.map fun x => x.2.request
  mem_eq : s.disk.mem = s.completed.foldl (fun m x => performDMA blocks m x.1 x.2) mem
  once : (s.served ++ s.pending).Perm (List.range s.completed.length)
  after : AfterDMA s.log

theorem inv_init : Inv blocks mem ⟨⟨Queue.empty, mem⟩, [], []⟩ [] [] where
  rep := .empty
  order := rfl
  mem_eq := rfl
  once := List.Perm.refl _
  after := fun pre k post h => by simp at h

theorem Inv.schedule (hi : Inv blocks mem s line spare) {prq : Queue PendingRead} {buf : ℕ}
    {blockNo : BitVec 32} {now : Timeval}
    (hs : diskScheduleRead s.disk.prq buf blockNo now = some prq) :
    ∃ line spare, Inv blocks mem
      { s with disk := { s.disk with prq }, log := s.log ++ [.schedule buf blockNo] }
      line spare := by
  obtain ⟨q', p, spare', henq, hrep⟩ :=
    hi.rep.enqueue ⟨buf, blockNo, tmAdd now READ_LATENCY_USEC⟩
  obtain rfl : q' = prq := Option.some.inj (henq.symm.trans hs)
  have horder := hi.order
  have hmem := hi.mem_eq
  have honce := hi.once
  refine ⟨_, spare', hrep, ?_, ?_, ?_, hi.after.snoc fun k h => by cases h⟩
  · unfold State.completed State.scheduled at horder ⊢
    rw [completed_snoc_none rfl, List.filterMap_append, horder]
    simp [Event.scheduled, PendingRead.request]
  · unfold State.completed at hmem ⊢
    rw [completed_snoc_none rfl, ← hmem]
  · unfold State.completed State.served at honce ⊢
    rw [completed_snoc_none rfl, served_snoc_none rfl]
    exact honce

theorem Inv.move (hi : Inv blocks mem s line spare) {handlers : List Activation}
    (h : handlers.filterMap Activation.pending = s.pending) :
    Inv blocks mem { s with handlers } line spare where
  rep := hi.rep
  order := hi.order
  mem_eq := hi.mem_eq
  once := by
    have := hi.once
    rw [← h] at this
    exact this
  after := hi.after

theorem Inv.complete (hi : Inv blocks mem s line spare) {pre post : List Activation}
    {now : Timeval} {disk : Drive} {r : PendingRead} (hh : s.handlers = pre ++ .test now :: post)
    (hd : drain blocks s.disk now = some (disk, some r)) :
    ∃ line spare, Inv blocks mem
      { disk, handlers := pre ++ .deliver now s.completed.length :: post,
        log := s.log ++ [.dma r.buf r.blockNo] } line spare := by
  rcases drain_spec blocks hi.rep now with hnone | ⟨p, r', rest, prq, rfl, hsome, hrep⟩
  · rw [hnone] at hd
    cases hd
  rw [hsome] at hd
  cases hd
  have horder := hi.order
  have hmem := hi.mem_eq
  have honce := hi.once
  have hcompleted : (s.log ++ [Event.dma r.buf r.blockNo]).filterMap Event.completed =
      s.completed ++ [r.request] := by
    simp [State.completed, Event.completed, PendingRead.request]
  refine ⟨rest, p :: spare, hrep, ?_, ?_, ?_, hi.after.snoc fun k h => by cases h⟩
  · unfold State.completed
    rw [hcompleted]
    unfold State.scheduled at horder ⊢
    rw [List.filterMap_append, horder]
    simp [Event.scheduled]
  · unfold State.completed
    rw [hcompleted, List.foldl_append, ← hmem]
    rfl
  · unfold State.completed
    rw [hcompleted, List.length_append, List.length_singleton, List.range_succ]
    unfold State.served State.pending at honce ⊢
    rw [hh] at honce
    rw [pending_none rfl] at honce
    rw [served_snoc_none rfl, pending_some rfl]
    -- the new one is pending in the middle, and the last of the range
    refine (List.perm_middle.append_left _).trans (List.perm_middle.trans ?_)
    exact (List.perm_append_singleton _ _).symm.trans (honce.append_right _)

theorem Inv.isr (hi : Inv blocks mem s line spare) {pre post : List Activation} {now : Timeval}
    {k : ℕ} (hh : s.handlers = pre ++ .deliver now k :: post) :
    Inv blocks mem { s with handlers := pre ++ .service now :: post, log := s.log ++ [.isr k] }
      line spare := by
  have horder := hi.order
  have hmem := hi.mem_eq
  have honce := hi.once
  have hlt : k < s.completed.length := by
    have hk : k ∈ s.served ++ s.pending := by
      refine List.mem_append_right _ (List.mem_filterMap.mpr ⟨.deliver now k, ?_, rfl⟩)
      rw [hh]
      simp
    exact List.mem_range.mp (honce.subset hk)
  refine ⟨hi.rep, ?_, ?_, ?_, hi.after.snoc fun j h => ?_⟩
  · unfold State.completed State.scheduled at horder ⊢
    rw [completed_snoc_none rfl, ← horder]
    simp [List.filterMap_append, Event.scheduled]
  · unfold State.completed at hmem ⊢
    rw [completed_snoc_none rfl, ← hmem]
  · unfold State.completed State.served State.pending at honce ⊢
    rw [completed_snoc_none rfl, pending_none rfl, List.filterMap_append]
    rw [hh, pending_some rfl] at honce
    refine List.Perm.trans ?_ honce
    have hk : [Event.isr k].filterMap Event.served = [k] := rfl
    rw [hk, List.append_assoc, List.singleton_append]
    exact List.perm_middle.symm.append_left _
  · cases h
    exact hlt

theorem Inv.step (hi : Inv blocks mem s line spare) {l : Label} (hst : Step blocks s l s') :
    ∃ line spare, Inv blocks mem s' line spare := by
  cases hst with
  | schedule buf blockNo now hs => exact hi.schedule hs
  | signal now => exact ⟨line, spare, hi.move rfl⟩
  | complete hh hd => exact hi.complete hh hd
  | done hh hd =>
    rcases drain_spec blocks hi.rep _ with hnone | ⟨p, r, rest, prq, rfl, hsome, -⟩
    · rw [hnone] at hd
      cases hd
      refine ⟨line, spare, hi.move ?_⟩
      unfold State.pending
      rw [hh, pending_none rfl, List.filterMap_append]
    · rw [hsome] at hd
      cases hd
  | isr hh => exact ⟨line, spare, hi.isr hh⟩
  | again hh =>
    refine ⟨line, spare, hi.move ?_⟩
    unfold State.pending
    rw [hh, pending_none rfl, pending_none rfl]

theorem reach_inv (hr : (diskRun blocks mem).Reach s) :
    ∃ line spare, Inv blocks mem s line spare := by
  refine Sys.Reach.invariant (I := fun s => ∃ line spare, Inv blocks mem s line spare) ?_ ?_ hr
  · rintro s rfl
    exact ⟨[], [], inv_init⟩
  · intro s l s' _ hi hst
    obtain ⟨line, spare, hi⟩ := hi
    exact hi.step hst

/-- **Every read is completed once, in order.** In every run the completed reads are the first of
those scheduled; memory is what their transfers wrote; each has had its call of the service routine
after its transfer, or is about to have it in one activation; the handler completes the next one
exactly if it is due; the records in line and the free ones are all there are, without overlap; and no
pointer leads astray. -/
theorem disk_completes (hr : (diskRun blocks mem).Reach s) :
    (∃ line spare, Recycles s.disk.prq line spare ∧
      (s.scheduled = s.completed ++ line.map fun x => x.2.request) ∧
      ∀ now, Drains blocks s.disk line now) ∧
    s.disk.mem = s.completed.foldl (fun m x => performDMA blocks m x.1 x.2) mem ∧
    (s.served ++ s.pending).Perm (List.range s.completed.length) ∧ AfterDMA s.log ∧
    (∀ buf blockNo now, (diskScheduleRead s.disk.prq buf blockNo now).isSome) ∧
    ∀ now, (drain blocks s.disk now).isSome := by
  obtain ⟨line, spare, hi⟩ := reach_inv hr
  refine ⟨⟨line, spare, hi.rep, hi.order, drains blocks hi.rep⟩, hi.mem_eq, hi.once, hi.after, ?_, ?_⟩
  · intro buf blockNo now
    obtain ⟨q', p, spare', henq, -⟩ :=
      hi.rep.enqueue ⟨buf, blockNo, tmAdd now READ_LATENCY_USEC⟩
    exact Option.isSome_of_eq_some henq
  · intro now
    rcases drain_spec blocks hi.rep now with h | ⟨p, r, rest, prq, -, h, -⟩
    · exact Option.isSome_of_eq_some h
    · exact Option.isSome_of_eq_some h

/-! ## Two reads, and a third one -/

def readOf (buf : ℕ) (blockNo : BitVec 32) (usec : BitVec 64) : PendingRead :=
  ⟨buf, blockNo, ⟨0, usec⟩⟩

def firstRead : PendingRead := readOf 7 3 20000

def secondRead : PendingRead := readOf 8 4 25000

def memFirst : Ints := performDMA story (fun _ => 0) 7 3

def memBoth : Ints := performDMA story memFirst 8 4

/-- The disk with both reads in line, with the second one, and with none. -/
def bothInLine : Queue PendingRead :=
  ⟨⟨[some ⟨firstRead, some 1, none⟩, some ⟨secondRead, none, some 0⟩]⟩, some 0, some 1, none⟩

def secondInLine : Queue PendingRead :=
  ⟨⟨[some ⟨firstRead, some 1, none⟩, some ⟨secondRead, none, some 0⟩]⟩, some 1, some 1, some 0⟩

def bothDone : Queue PendingRead :=
  ⟨⟨[some ⟨firstRead, some 1, none⟩, some ⟨secondRead, none, some 0⟩]⟩, none, none, some 1⟩

/-- Both reads have had their interrupts, in one activation, and the record of the second one is in
line again, for a read that is not due. -/
def threeReads : State where
  disk := ⟨⟨⟨[some ⟨firstRead, some 1, none⟩, some ⟨⟨9, 5, ⟨1, 20000⟩⟩, none, none⟩]⟩, some 1, some 1,
    some 0⟩, memBoth⟩
  handlers := [.service ⟨1, 0⟩]
  log := [.schedule 7 3, .schedule 8 4, .dma 7 3, .isr 0, .dma 8 4, .isr 1, .schedule 9 5]

theorem reach_bothInLine : (diskRun story fun _ => 0).Reach
    ⟨⟨bothInLine, fun _ => 0⟩, [], [.schedule 7 3, .schedule 8 4]⟩ := by
  have h0 : (diskRun story fun _ => 0).Reach ⟨⟨Queue.empty, fun _ => 0⟩, [], []⟩ := .init rfl
  have h1 := h0.step (@Step.schedule story _ ⟨⟨[some ⟨firstRead, none, none⟩]⟩, some 0, some 0, none⟩
    7 3 ⟨0, 0⟩ rfl)
  exact h1.step (@Step.schedule story _ bothInLine 8 4 ⟨0, 5000⟩ rfl)

theorem reach_threeReads : (diskRun story fun _ => 0).Reach threeReads := by
  have h1 := reach_bothInLine.step (Step.signal ⟨1, 0⟩)
  have h2 := h1.step (@Step.complete story _ [] [] ⟨1, 0⟩ ⟨secondInLine, memFirst⟩ firstRead rfl rfl)
  have h3 := h2.step (@Step.isr story _ [] [] ⟨1, 0⟩ 0 rfl)
  have h4 := h3.step (@Step.again story _ [] [] ⟨1, 0⟩ rfl)
  have h5 := h4.step (@Step.complete story _ [] [] ⟨1, 0⟩ ⟨bothDone, memBoth⟩ secondRead rfl rfl)
  have h6 := h5.step (@Step.isr story _ [] [] ⟨1, 0⟩ 1 rfl)
  exact h6.step (@Step.schedule story _ threeReads.disk.prq 9 5 ⟨1, 0⟩ rfl)

theorem disk_completes_three : threeReads.disk.mem 7 = 9 ∧ threeReads.disk.mem 8 = 5 ∧
    threeReads.served = [0, 1] ∧
    (∃ line spare, Recycles threeReads.disk.prq line spare ∧
      (threeReads.scheduled = threeReads.completed ++ line.map fun x => x.2.request) ∧
      ∀ now, Drains story threeReads.disk line now) ∧
    threeReads.disk.mem =
      threeReads.completed.foldl (fun m x => performDMA story m x.1 x.2) (fun _ => 0) ∧
    (threeReads.served ++ threeReads.pending).Perm (List.range threeReads.completed.length) ∧
    AfterDMA threeReads.log ∧
    (∀ buf blockNo now, (diskScheduleRead threeReads.disk.prq buf blockNo now).isSome) ∧
    ∀ now, (drain story threeReads.disk now).isSome :=
  ⟨rfl, rfl, rfl, disk_completes reach_threeReads⟩

end IntroSystems.Disk
