import IntroSystems.Disk.ARead
import Mathlib.Algebra.BigOperators.Group.Finset.Basic
import Mathlib.Algebra.BigOperators.Group.Finset.Piecewise

/-!
# Reads by threads

`tRead.c`. Threads run on one processor, and keep it until they block or end. Each reads its block
number from the variable `blockno` of the first loop of `main`, which is dead by then.

* `main`, `threadStep`, `dispatch`, `complete`: the steps. `none` is `uthread_unblock (NULL)`.
* `Early`: the one read that waits is not yet in `pending_read_queue`.
* `Standing`, `Inv`: where a thread can be, and what holds of all.
* **`tRead_sum_iff`**: without early interrupts the sum is that of the blocks that the threads have
  found in `blockno`; in all runs the sum is right only if there are no blocks.
-/

set_option autoImplicit false

namespace IntroSystems.Disk.TRead

open Recycling

/-! ## The code -/

/-- The threads. -/
inductive Who
  | main
  | thread (i : ℕ)
  deriving DecidableEq

/-- Where `main` is: at the test of the loop that creates, or of the loop that joins, in
`uthread_join`, or at its end. -/
inductive MainPc
  | create (blockno : ℕ)
  | join (blockno : ℕ)
  | joining (blockno : ℕ)
  | done

/-- Where a thread is: not started, in front of `queue_enqueue`, in front of `uthread_block`, in
`uthread_block`, or ended. -/
inductive ThreadPc
  | nascent
  | record
  | block
  | blocked
  | dead
  deriving DecidableEq

/-- `blockno i` and `resultBuf i` are the variables of thread `i`, and `disk` are the reads that are
not complete. -/
structure State where
  main : MainPc
  thread : ℕ → ThreadPc
  blockno : ℕ → BitVec 32
  resultBuf : Ints
  running : Option Who
  ready : List Who
  disk : List (ℕ × BitVec 32)
  pending_read_queue : Queue (Item Unit)
  sum : BitVec 32
  printed : Option (BitVec 32)

def State.goto (s : State) (i : ℕ) (pc : ThreadPc) : State :=
  { s with thread := Function.update s.thread i pc }

/-- A thread that is in the queue stays where it is. -/
def readyQueueEnqueue (ready : List Who) (w : Who) : List Who :=
  if w ∈ ready then ready else ready ++ [w]

def uthreadUnblock (s : State) : Option ℕ → Option State
  | none => none
  | some i => some { s with ready := readyQueueEnqueue s.ready (.thread i) }

/-- The next step of `main`. -/
def main (num_blocks : ℕ) (s : State) : State :=
  match s.main with
  | .create blockno =>
    if blockno < num_blocks then
      { s with
        ready := readyQueueEnqueue s.ready (.thread blockno)
        main := .create (blockno + 1) }
    else { s with main := .join 0 }
  | .join blockno =>
    if blockno < num_blocks then
      if s.thread blockno = .dead then { s with main := .join (blockno + 1) }
      else { s with main := .joining blockno, running := none }
    else { s with printed := some s.sum, main := .done }
  | .joining blockno => { s with main := .join (blockno + 1) }
  | .done => s

/-- `*blocknov`, with `v` for what a dead variable holds. -/
def fetch (v : BitVec 32) : MainPc → BitVec 32
  | .create blockno => BitVec.ofNat 32 blockno
  | _ => v

/-- The end of thread `i`, which makes `main` ready if that waits for it. -/
def startJoiner (ready : List Who) (i : ℕ) : MainPc → List Who
  | .joining blockno => if blockno = i then readyQueueEnqueue ready .main else ready
  | _ => ready

/-- The next step of `read_block` in thread `i`. The `callback` is not initialised, nor used. -/
def threadStep (s : State) (i : ℕ) (v : BitVec 32) : Option State :=
  match s.thread i with
  | .nascent =>
    let blockno := fetch v s.main
    some ({ s with
      blockno := Function.update s.blockno i blockno
      disk := s.disk ++ [(i, blockno)] }.goto i .record)
  | .record => do
    let pending_read_queue ← queueEnqueue s.pending_read_queue (some i) none none
    some ({ s with pending_read_queue }.goto i .block)
  | .block => some ({ s with running := none }.goto i .blocked)
  | .blocked =>
    some ({ s with
      sum := s.sum + s.resultBuf i
      running := none
      ready := startJoiner s.ready i s.main }.goto i .dead)
  | .dead => some s

/-- The processor is given to the next thread that is ready. -/
def dispatch (s : State) : State :=
  match s.ready with
  | [] => s
  | w :: ready => { s with running := some w, ready }

def interruptServiceRoutine (s : State) : Option State := do
  let (pending_read_queue, val, _) ← queueDequeue s.pending_read_queue
  uthreadUnblock { s with pending_read_queue } val

/-- The disk completes a read. -/
def complete (s : State) : Option State :=
  match s.disk with
  | [] => some s
  | (buf, blockno) :: disk =>
    interruptServiceRoutine
      { s with disk, resultBuf := performDMA ARead.story s.resultBuf buf blockno }

/-! ## Runs -/

inductive Label
  | main
  | thread (i : ℕ) (v : BitVec 32)
  | dispatch
  | interrupt

/-- When `main` returns, all ends. -/
def Allowed (s : State) : Label → Prop
  | .main => s.running = some .main ∧ s.main ≠ .done
  | .thread i _ => s.running = some (.thread i) ∧ s.main ≠ .done
  | .dispatch => s.running = none ∧ s.main ≠ .done
  | .interrupt => s.disk ≠ [] ∧ s.main ≠ .done

def next (num_blocks : ℕ) (s : State) : Label → Option State
  | .main => some (main num_blocks s)
  | .thread i v => threadStep s i v
  | .dispatch => some (dispatch s)
  | .interrupt => complete s

def start (blockno : ℕ → BitVec 32) (resultBuf : Ints) : State where
  main := .create 0
  thread _ := .nascent
  blockno := blockno
  resultBuf := resultBuf
  running := some .main
  ready := []
  disk := []
  pending_read_queue := Queue.empty
  sum := 0
  printed := none

def tReadRun (num_blocks : ℕ) : Sys (Option State) Label :=
  Sys.ofNext (fun s => ∃ blockno resultBuf, s = start blockno resultBuf) Allowed (next num_blocks)

/-- Only one read waits, and its thread has yet to put it into the queue. -/
def Early (s : State) : Prop :=
  (∃ i, s.running = some (.thread i) ∧ s.thread i = .record) ∧ s.disk.length = 1

/-- No interrupt comes early. -/
def InTime : Option State → Label → Prop
  | some s, .interrupt => ¬Early s
  | _, _ => True

/-- The sum of the blocks with these numbers. -/
def total (num_blocks : ℕ) (blockno : ℕ → BitVec 32) : BitVec 32 :=
  ∑ i ∈ Finset.range num_blocks, blockAt ARead.story (blockno i)

/-! ## The invariant -/

/-- Where a thread can be: if it has the processor, if it is ready, and if the disk has its read. -/
def Standing : ThreadPc → Bool → Bool → Bool → Bool
  | .nascent, cpu, ready, disk => !(cpu && ready) && !disk
  | .record, cpu, ready, disk => cpu && !ready && disk
  | .block, cpu, ready, disk => cpu && (ready != disk)
  | .blocked, cpu, ready, disk => if cpu then !ready && !disk else ready != disk
  | .dead, cpu, ready, disk => !cpu && !ready && !disk

/-- The entry for the read of thread `i`. -/
def entry (i : ℕ) : Item Unit := ⟨some i, none, none⟩

/-- The thread whose read is not in the queue yet. -/
def inFlight (s : State) : List ℕ :=
  match s.running with
  | some (.thread i) => if s.thread i = .record then [i] else []
  | _ => []

/-- What the position of `main` says. -/
def MainFits (num_blocks : ℕ) (s : State) : MainPc → Prop
  | .create b => s.running = some .main ∧ .main ∉ s.ready ∧ b ≤ num_blocks ∧
    (∀ i, s.thread i = .nascent) ∧ ∀ i, .thread i ∈ s.ready → i < b
  | .join b => s.running = some .main ∧ .main ∉ s.ready ∧ ∀ i < b, s.thread i = .dead
  | .joining b => b < num_blocks ∧ (∀ i < b, s.thread i = .dead) ∧
    (.main ∈ s.ready ∨ s.running = some .main → s.thread b = .dead)
  | .done => True

/-- What thread `i` has added to the sum. -/
def added (s : State) (i : ℕ) : BitVec 32 :=
  if s.thread i = .dead then blockAt ARead.story (s.blockno i) else 0

/-- The disk has the reads of the threads `ds`, of which `qs` are in the queue. -/
structure Inv (num_blocks : ℕ) (s : State) (ds qs : List ℕ) : Prop where
  standing : ∀ i, Standing (s.thread i) (s.running = some (.thread i)) (.thread i ∈ s.ready)
    (i ∈ ds) = true
  lt : ∀ i, s.thread i ≠ .nascent ∨ s.running = some (.thread i) ∨ .thread i ∈ s.ready →
    i < num_blocks
  readyNodup : s.ready.Nodup
  mainOnce : s.running = some .main → .main ∉ s.ready
  disk : s.disk = ds.map fun i => (i, s.blockno i)
  diskNodup : ds.Nodup
  queue : Holds s.pending_read_queue (qs.map entry)
  recorded : ds = qs ++ inFlight s
  read : ∀ i, s.thread i = .block ∨ s.thread i = .blocked → i ∉ ds →
    s.resultBuf i = blockAt ARead.story (s.blockno i)
  sum : s.sum = ∑ i ∈ Finset.range num_blocks, added s i
  main : MainFits num_blocks s s.main
  printed : ∀ x, s.printed = some x → s.main = .done ∧ x = total num_blocks s.blockno

variable {num_blocks : ℕ} {s : State} {ds qs : List ℕ} {ready : List Who} {w x : Who} {i : ℕ}

theorem mem_readyQueueEnqueue : x ∈ readyQueueEnqueue ready w ↔ x ∈ ready ∨ x = w := by
  unfold readyQueueEnqueue
  split
  case isTrue h =>
    refine ⟨.inl, ?_⟩
    rintro (h' | rfl)
    · exact h'
    · exact h
  case isFalse => rw [List.mem_append, List.mem_singleton]

theorem nodup_readyQueueEnqueue (h : ready.Nodup) : (readyQueueEnqueue ready w).Nodup := by
  unfold readyQueueEnqueue
  split
  case isTrue => exact h
  case isFalse hw => exact List.nodup_append_comm.mp (List.nodup_cons.mpr ⟨hw, h⟩)

theorem inv_start (blockno : ℕ → BitVec 32) (resultBuf : Ints) :
    Inv num_blocks (start blockno resultBuf) [] [] where
  standing i := by simp [start, Standing]
  lt i h := by simp [start] at h
  readyNodup := List.nodup_nil
  mainOnce _ := List.not_mem_nil
  disk := rfl
  diskNodup := List.nodup_nil
  queue := holds_empty
  recorded := rfl
  read i h := by simp [start] at h
  sum := by simp [start, added]
  main := ⟨rfl, List.not_mem_nil, Nat.zero_le _, fun _ => rfl, fun _ h => absurd h List.not_mem_nil⟩
  printed x h := by cases h

/-- **Every step of `main` keeps the invariant.** -/
theorem Inv.mainStep (hi : Inv num_blocks s ds qs) (hrun : s.running = some .main)
    (hmain : s.main ≠ .done) : Inv num_blocks (TRead.main num_blocks s) ds qs := by
  have hfits := hi.main
  have hnever : ∀ x, s.printed ≠ some x := fun x hx => hmain (hi.printed x hx).1
  have hcpu : ∀ i, s.running ≠ some (.thread i) := fun i h => by
    rw [hrun] at h
    cases h
  have hfl : inFlight s = [] := by
    unfold inFlight
    rw [hrun]
  unfold TRead.main
  cases hpc : s.main with
  | create b =>
    rw [hpc] at hfits
    obtain ⟨-, hmr, hb, hnas, hready⟩ := hfits
    dsimp only
    split
    case isTrue hlt =>
      refine ⟨fun i => ?_, fun i h => ?_, nodup_readyQueueEnqueue hi.readyNodup, fun _ => ?_,
        hi.disk, hi.diskNodup, hi.queue, hi.recorded, hi.read, hi.sum, ?_,
        fun x hx => absurd hx (hnever x)⟩
      · have := hi.standing i
        simp only [hnas i, hcpu i] at this ⊢
        simpa [Standing] using this
      · simp only [mem_readyQueueEnqueue, Who.thread.injEq, ← or_assoc] at h
        rcases h with h | rfl
        · exact hi.lt i (or_assoc.mp h)
        · exact hlt
      · simpa [mem_readyQueueEnqueue] using hmr
      · refine ⟨hrun, by simpa [mem_readyQueueEnqueue] using hmr, hlt, hnas, fun i h => ?_⟩
        simp only [mem_readyQueueEnqueue, Who.thread.injEq] at h
        rcases h with h | rfl
        · exact Nat.lt_succ_of_lt (hready i h)
        · exact Nat.lt_succ_self i
    case isFalse =>
      exact ⟨hi.standing, hi.lt, hi.readyNodup, hi.mainOnce, hi.disk, hi.diskNodup, hi.queue,
        hi.recorded, hi.read, hi.sum, ⟨hrun, hmr, fun i h => absurd h (Nat.not_lt_zero i)⟩,
        fun x hx => absurd hx (hnever x)⟩
  | join b =>
    rw [hpc] at hfits
    obtain ⟨-, hmr, hdead⟩ := hfits
    dsimp only
    split
    case isTrue hlt =>
      split
      case isTrue hb =>
        refine ⟨hi.standing, hi.lt, hi.readyNodup, hi.mainOnce, hi.disk, hi.diskNodup, hi.queue,
          hi.recorded, hi.read, hi.sum, ⟨hrun, hmr, fun i hib => ?_⟩,
          fun x hx => absurd hx (hnever x)⟩
        rcases Nat.lt_succ_iff_lt_or_eq.mp hib with h | rfl
        · exact hdead i h
        · exact hb
      case isFalse hb =>
        refine ⟨fun i => ?_, fun i h => ?_, hi.readyNodup, nofun, hi.disk,
          hi.diskNodup, hi.queue, ?_, hi.read, hi.sum, ⟨hlt, hdead, ?_⟩,
          fun x hx => absurd hx (hnever x)⟩
        · have := hi.standing i
          simp only [hcpu i] at this
          exact this
        · simp only [reduceCtorEq, false_or] at h
          exact hi.lt i (h.imp id .inr)
        · rw [hi.recorded, hfl]
          rfl
        · rintro (h | h)
          · exact absurd h hmr
          · cases h
    case isFalse hlt =>
      refine ⟨hi.standing, hi.lt, hi.readyNodup, hi.mainOnce, hi.disk, hi.diskNodup, hi.queue,
        hi.recorded, hi.read, hi.sum, trivial, fun x hx => ⟨rfl, ?_⟩⟩
      rw [← Option.some.inj hx, hi.sum]
      refine Finset.sum_congr rfl fun i hib => if_pos (hdead i ?_)
      exact (Finset.mem_range.mp hib).trans_le (Nat.le_of_not_lt hlt)
  | joining b =>
    rw [hpc] at hfits
    obtain ⟨-, hdead, hb⟩ := hfits
    refine ⟨hi.standing, hi.lt, hi.readyNodup, hi.mainOnce, hi.disk, hi.diskNodup, hi.queue,
      hi.recorded, hi.read, hi.sum, ⟨hrun, hi.mainOnce hrun, fun i hib => ?_⟩,
      fun x hx => absurd hx (hnever x)⟩
    rcases Nat.lt_succ_iff_lt_or_eq.mp hib with h | rfl
    · exact hdead i h
    · exact hb (.inr hrun)
  | done => exact absurd hpc hmain

/-- **So does the choice of the next thread.** -/
theorem Inv.dispatch (hi : Inv num_blocks s ds qs) (hrun : s.running = none) :
    Inv num_blocks (dispatch s) ds qs := by
  unfold TRead.dispatch
  cases hready : s.ready with
  | nil => exact hi
  | cons w ws =>
    have hnd := hi.readyNodup
    rw [hready, List.nodup_cons] at hnd
    have hcpu : ∀ i, s.running ≠ some (.thread i) := fun i h => by
      rw [hrun] at h
      cases h
    have hsub : ∀ x ∈ ws, x ∈ s.ready := fun x hx => by
      rw [hready]
      exact List.mem_cons_of_mem w hx
    have hw : w ∈ s.ready := by
      rw [hready]
      exact List.mem_cons_self
    have hst := hi.standing
    simp only [hcpu, hready, List.mem_cons] at hst
    have hpc : ∀ i, w = .thread i → s.thread i ≠ .record := fun i hwi h => by
      have := hst i
      simp [h, Standing] at this
    have hfl : inFlight { s with running := some w, ready := ws } = inFlight s := by
      unfold inFlight
      rw [hrun]
      cases w with
      | main => rfl
      | thread i => exact if_neg (hpc i rfl)
    refine ⟨fun i => ?_, fun i h => ?_, hnd.2, ?_, hi.disk, hi.diskNodup, hi.queue, ?_, hi.read,
      hi.sum, ?_, hi.printed⟩
    · have := hst i
      by_cases hwi : w = .thread i
      · subst hwi
        cases hp : s.thread i <;> simp_all [Standing]
      · have hwi' : Who.thread i ≠ w := fun h => hwi h.symm
        simpa [hwi, hwi'] using this
    · rcases h with h | h | h
      · exact hi.lt i (.inl h)
      · cases h
        exact hi.lt i (.inr (.inr hw))
      · exact hi.lt i (.inr (.inr (hsub _ h)))
    · intro h
      cases h
      exact hnd.1
    · rw [hfl]
      exact hi.recorded
    · have hfits := hi.main
      cases hm : s.main with
      | create b =>
        rw [hm] at hfits
        exact absurd (hrun.symm.trans hfits.1) nofun
      | join b =>
        rw [hm] at hfits
        exact absurd (hrun.symm.trans hfits.1) nofun
      | joining b =>
        rw [hm] at hfits
        refine ⟨hfits.1, hfits.2.1, fun h => hfits.2.2 (.inl ?_)⟩
        rcases h with h | h
        · exact hsub _ h
        · cases h
          exact hw
      | done => trivial

/-! ## The steps of a thread -/

theorem Inv.standing_running (hi : Inv num_blocks s ds qs) (hrun : s.running = some (.thread i)) :
    Standing (s.thread i) true (.thread i ∈ s.ready) (i ∈ ds) = true := by
  have hst := hi.standing i
  rwa [hrun, decide_eq_true rfl] at hst

theorem inFlight_of_running (hrun : s.running = some (.thread i)) :
    inFlight s = if s.thread i = .record then [i] else [] := by
  unfold inFlight
  rw [hrun]

theorem Inv.waiting (hi : Inv num_blocks s ds qs) (hrun : s.running = some (.thread i))
    (hmain : s.main ≠ .done) : ∃ b, s.main = .joining b ∧ b < num_blocks ∧
      (∀ j < b, s.thread j = .dead) ∧ (.main ∈ s.ready → s.thread b = .dead) := by
  have hfits := hi.main
  cases hm : s.main with
  | create b =>
    rw [hm] at hfits
    cases hrun.symm.trans hfits.1
  | join b =>
    rw [hm] at hfits
    cases hrun.symm.trans hfits.1
  | joining b =>
    rw [hm] at hfits
    exact ⟨b, rfl, hfits.1, hfits.2.1, fun h => hfits.2.2 (.inl h)⟩
  | done => exact absurd hm hmain

theorem Inv.printed_none (hi : Inv num_blocks s ds qs) (hmain : s.main ≠ .done) :
    s.printed = none := by
  cases hp : s.printed with
  | none => rfl
  | some x => exact absurd (hi.printed x hp).1 hmain

theorem thread_mem_startJoiner {j : ℕ} {m : MainPc} :
    .thread j ∈ startJoiner ready i m ↔ .thread j ∈ ready := by
  unfold startJoiner
  split
  · split
    · rw [mem_readyQueueEnqueue]
      exact or_iff_left nofun
    · rfl
  · rfl

theorem nodup_startJoiner {m : MainPc} (h : ready.Nodup) : (startJoiner ready i m).Nodup := by
  unfold startJoiner
  split
  · split
    · exact nodup_readyQueueEnqueue h
    · exact h
  · exact h

/-- **What the step of a thread leaves alone**: where the others are. -/
theorem Inv.others (s' : State) (ds' : List ℕ) (hi : Inv num_blocks s ds qs)
    (hrun : s.running = some (.thread i)) (hmain : s.main ≠ .done) (hm : s'.main = s.main)
    (hrun' : s'.running = s.running ∨ s'.running = none)
    (hthread : ∀ j, j ≠ i → s'.thread j = s.thread j)
    (hready : ∀ j, .thread j ∈ s'.ready ↔ .thread j ∈ s.ready)
    (hmr : .main ∈ s'.ready → .main ∈ s.ready ∨ (s.main = .joining i ∧ s'.thread i = .dead))
    (hds : ∀ j, j ≠ i → (j ∈ ds' ↔ j ∈ ds))
    (hself : Standing (s'.thread i) (s'.running = some (.thread i)) (.thread i ∈ s.ready)
      (i ∈ ds') = true) :
    (∀ j, Standing (s'.thread j) (s'.running = some (.thread j)) (.thread j ∈ s'.ready) (j ∈ ds') =
      true) ∧
    (∀ j, s'.thread j ≠ .nascent ∨ s'.running = some (.thread j) ∨ .thread j ∈ s'.ready →
      j < num_blocks) ∧
    (s'.running = some .main → .main ∉ s'.ready) ∧ MainFits num_blocks s' s'.main := by
  have hcpu : ∀ w, s'.running = some w → w = .thread i := fun w h => by
    rcases hrun' with h' | h' <;> rw [h'] at h
    · exact Option.some.inj (h.symm.trans hrun)
    · cases h
  have hlive : s.thread i ≠ .dead := fun h => by
    have hst := hi.standing_running hrun
    rw [h] at hst
    exact absurd hst Bool.false_ne_true
  obtain ⟨b, hjoin, hb, hdead, hmready⟩ := hi.waiting hrun hmain
  have hdead' : ∀ j, s.thread j = .dead → s'.thread j = .dead := fun j hj => by
    rwa [hthread j fun e => hlive (e ▸ hj)]
  have hnomain : s'.running ≠ some .main := fun h => by cases hcpu _ h
  refine ⟨fun j => ?_, fun j h => ?_, fun h => absurd h hnomain, ?_⟩
  · by_cases hj : j = i
    · subst hj
      simp only [hready]
      exact hself
    · have h := hi.standing j
      have hne : s.running ≠ some (.thread j) := fun h => by
        cases hrun.symm.trans h
        exact hj rfl
      have hne' : s'.running ≠ some (.thread j) := fun h => by
        cases hcpu _ h
        exact hj rfl
      simp only [hne] at h
      simp only [hne', hthread j hj, hready, hds j hj]
      exact h
  · by_cases hj : j = i
    · rw [hj]
      exact hi.lt i (.inr (.inl hrun))
    · rw [hthread j hj, hready] at h
      refine hi.lt j (h.imp id fun h => .inr (h.resolve_left fun h => ?_))
      cases hcpu _ h
      exact hj rfl
  · rw [hm, hjoin]
    refine ⟨hb, fun j hj => hdead' j (hdead j hj), fun h => ?_⟩
    rcases h with h | h
    · rcases hmr h with h | ⟨h, hi⟩
      · exact hdead' b (hmready h)
      · cases hjoin.symm.trans h
        exact hi
    · exact absurd h hnomain

theorem sum_added {s' : State} (hthread : ∀ j, j ≠ i → s'.thread j = s.thread j)
    (hblock : ∀ j, j ≠ i → s'.blockno j = s.blockno j) (h : s.thread i ≠ .dead)
    (h' : s'.thread i ≠ .dead) :
    ∑ j ∈ Finset.range num_blocks, added s j = ∑ j ∈ Finset.range num_blocks, added s' j := by
  refine Finset.sum_congr rfl fun j _ => ?_
  unfold added
  by_cases hj : j = i
  · rw [hj, if_neg h, if_neg h']
  · rw [hthread j hj, hblock j hj]

theorem Inv.fetch (hi : Inv num_blocks s ds qs) (hrun : s.running = some (.thread i))
    (hmain : s.main ≠ .done) (hpc : s.thread i = .nascent) (v : BitVec 32) :
    Inv num_blocks ({ s with
      blockno := Function.update s.blockno i v, disk := s.disk ++ [(i, v)] }.goto i .record)
      (ds ++ [i]) qs := by
  have hst := hi.standing_running hrun
  rw [hpc] at hst
  obtain ⟨hready, hds⟩ : .thread i ∉ s.ready ∧ i ∉ ds := by simpa [Standing] using hst
  let s' := { s with
      blockno := Function.update s.blockno i v, disk := s.disk ++ [(i, v)] }.goto i .record
  have hself : s'.thread i = .record := Function.update_self _ _ _
  have hne : ∀ j, j ≠ i → s'.thread j = s.thread j := fun j hj => Function.update_of_ne hj _ _
  have hblock : ∀ j, j ≠ i → s'.blockno j = s.blockno j := fun j hj => Function.update_of_ne hj _ _
  obtain ⟨hstand, hlt, honce, hfits⟩ := hi.others s' (ds ++ [i]) hrun hmain rfl
    (.inl rfl) hne (fun _ => Iff.rfl) .inl (fun j hj => by simp [hj]) (by
      rw [hself]
      change Standing _ (s.running = some (.thread i)) _ _ = _
      simp [hrun, hready, Standing])
  refine ⟨hstand, hlt, hi.readyNodup, honce, ?_, ?_, hi.queue, ?_, fun j h hj => ?_, ?_, hfits,
    fun x hx => by cases (hi.printed_none hmain).symm.trans hx⟩
  · change s.disk ++ [(i, v)] = (ds ++ [i]).map fun j => (j, Function.update s.blockno i v j)
    rw [List.map_append, List.map_singleton, Function.update_self, hi.disk]
    congr 1
    refine List.map_congr_left fun j hj => ?_
    have hji : j ≠ i := fun e => hds (e ▸ hj)
    rw [Function.update_of_ne hji]
  · exact List.nodup_append_comm.mp (List.nodup_cons.mpr ⟨hds, hi.diskNodup⟩)
  · have hfl : inFlight s = [] := by rw [inFlight_of_running hrun, hpc]; rfl
    have hfl' : inFlight s' = [i] := by rw [inFlight_of_running (s := s') hrun, hself]; rfl
    rw [hfl', hi.recorded, hfl, List.append_nil]
  · have hji : j ≠ i := fun e => hj (by simp [e])
    rw [hne j hji] at h
    rw [hblock j hji]
    exact hi.read j h fun hm => hj (List.mem_append_left _ hm)
  · exact hi.sum.trans (sum_added hne hblock (by rw [hpc]; decide) (by rw [hself]; decide))

theorem Inv.record {q : Queue (Item Unit)} (hi : Inv num_blocks s ds qs)
    (hrun : s.running = some (.thread i)) (hmain : s.main ≠ .done) (hpc : s.thread i = .record)
    (hq : Holds q ((qs ++ [i]).map entry)) :
    Inv num_blocks ({ s with pending_read_queue := q }.goto i .block) ds (qs ++ [i]) := by
  have hst := hi.standing_running hrun
  rw [hpc] at hst
  obtain ⟨hready, hds⟩ : .thread i ∉ s.ready ∧ i ∈ ds := by simpa [Standing] using hst
  let s' := { s with pending_read_queue := q }.goto i .block
  have hself : s'.thread i = .block := Function.update_self _ _ _
  have hne : ∀ j, j ≠ i → s'.thread j = s.thread j := fun j hj => Function.update_of_ne hj _ _
  obtain ⟨hstand, hlt, honce, hfits⟩ := hi.others s' ds hrun hmain rfl
    (.inl rfl) hne (fun _ => Iff.rfl) .inl (fun j _ => Iff.rfl) (by
      rw [hself]
      change Standing _ (s.running = some (.thread i)) _ _ = _
      simp [hrun, hready, hds, Standing])
  refine ⟨hstand, hlt, hi.readyNodup, honce, hi.disk, hi.diskNodup, hq, ?_, fun j h hj => ?_, ?_,
    hfits, fun x hx => by cases (hi.printed_none hmain).symm.trans hx⟩
  · have hfl : inFlight s = [i] := by rw [inFlight_of_running hrun, hpc]; rfl
    have hfl' : inFlight s' = [] := by rw [inFlight_of_running (s := s') hrun, hself]; rfl
    rw [hfl', hi.recorded, hfl, List.append_nil]
  · have hji : j ≠ i := fun e => hj (e ▸ hds)
    rw [hne j hji] at h
    exact hi.read j h hj
  · exact hi.sum.trans
      (sum_added hne (fun _ _ => rfl) (by rw [hpc]; decide) (by rw [hself]; decide))

theorem Inv.block (hi : Inv num_blocks s ds qs) (hrun : s.running = some (.thread i))
    (hmain : s.main ≠ .done) (hpc : s.thread i = .block) :
    Inv num_blocks ({ s with running := none }.goto i .blocked) ds qs := by
  have hst := hi.standing_running hrun
  rw [hpc] at hst
  let s' := { s with running := none }.goto i .blocked
  have hself : s'.thread i = .blocked := Function.update_self _ _ _
  have hne : ∀ j, j ≠ i → s'.thread j = s.thread j := fun j hj => Function.update_of_ne hj _ _
  obtain ⟨hstand, hlt, honce, hfits⟩ := hi.others s' ds hrun hmain rfl
    (.inr rfl) hne (fun _ => Iff.rfl) .inl (fun j _ => Iff.rfl) (by
      rw [hself]
      change Standing _ ((none : Option Who) = some (.thread i)) _ _ = _
      simpa [Standing] using hst)
  refine ⟨hstand, hlt, hi.readyNodup, honce, hi.disk, hi.diskNodup, hi.queue, ?_, fun j h hj => ?_,
    ?_, hfits, fun x hx => by cases (hi.printed_none hmain).symm.trans hx⟩
  · have hfl : inFlight s = [] := by rw [inFlight_of_running hrun, hpc]; rfl
    rw [hi.recorded, hfl]
    rfl
  · by_cases hji : j = i
    · rw [hji]
      exact hi.read i (.inl hpc) (hji ▸ hj)
    · rw [hne j hji] at h
      exact hi.read j h hj
  · exact hi.sum.trans
      (sum_added hne (fun _ _ => rfl) (by rw [hpc]; decide) (by rw [hself]; decide))

/-- **It ends**, and has added its block. -/
theorem Inv.finish (hi : Inv num_blocks s ds qs) (hrun : s.running = some (.thread i))
    (hmain : s.main ≠ .done) (hpc : s.thread i = .blocked) :
    Inv num_blocks ({ s with
      sum := s.sum + s.resultBuf i
      running := none
      ready := startJoiner s.ready i s.main }.goto i .dead) ds qs := by
  have hst := hi.standing_running hrun
  rw [hpc] at hst
  obtain ⟨hready, hds⟩ : .thread i ∉ s.ready ∧ i ∉ ds := by simpa [Standing] using hst
  let s' := { s with
      sum := s.sum + s.resultBuf i
      running := none
      ready := startJoiner s.ready i s.main }.goto i .dead
  have hself : s'.thread i = .dead := Function.update_self _ _ _
  have hne : ∀ j, j ≠ i → s'.thread j = s.thread j := fun j hj => Function.update_of_ne hj _ _
  have hmr : .main ∈ s'.ready → .main ∈ s.ready ∨ (s.main = .joining i ∧ s'.thread i = .dead) := by
    change .main ∈ startJoiner s.ready i s.main → _
    unfold startJoiner
    split
    case h_1 b hm =>
      split
      case isTrue hb => exact fun _ => .inr ⟨by rw [hm, hb], hself⟩
      case isFalse => exact .inl
    case h_2 => exact .inl
  obtain ⟨hstand, hlt, honce, hfits⟩ := hi.others s' ds hrun hmain rfl
    (.inr rfl) hne (fun _ => thread_mem_startJoiner) hmr (fun j _ => Iff.rfl) (by
      rw [hself]
      change Standing _ ((none : Option Who) = some (.thread i)) _ _ = _
      simp [hready, hds, Standing])
  refine ⟨hstand, hlt, nodup_startJoiner hi.readyNodup, honce, hi.disk, hi.diskNodup, hi.queue, ?_,
    fun j h hj => ?_, ?_, hfits, fun x hx => by cases (hi.printed_none hmain).symm.trans hx⟩
  · have hfl : inFlight s = [] := by rw [inFlight_of_running hrun, hpc]; rfl
    rw [hi.recorded, hfl]
    rfl
  · have hji : j ≠ i := fun e => by
      rw [e, hself] at h
      rcases h with h | h <;> cases h
    rw [hne j hji] at h
    exact hi.read j h hj
  · have hin := hi.lt i (.inr (.inl hrun))
    change s.sum + s.resultBuf i = ∑ j ∈ Finset.range num_blocks, added s' j
    have hold : added s i = 0 := if_neg (by rw [hpc]; decide)
    have hnew : added s' i = s.resultBuf i := (if_pos hself).trans (hi.read i (.inr hpc) hds).symm
    have hrest : ∀ j ∈ (Finset.range num_blocks).erase i, added s j = added s' j := fun j hj => by
      unfold added
      rw [hne j (Finset.ne_of_mem_erase hj)]
      rfl
    rw [hi.sum, ← Finset.sum_erase_add _ _ (Finset.mem_range.mpr hin), hold, add_zero,
      Finset.sum_congr rfl hrest, ← hnew, Finset.sum_erase_add _ _ (Finset.mem_range.mpr hin)]

/-- **Every step of a thread is defined, and keeps the invariant.** -/
theorem Inv.threadStep (hi : Inv num_blocks s ds qs) (hrun : s.running = some (.thread i))
    (hmain : s.main ≠ .done) (v : BitVec 32) :
    ∃ s' ds' qs', TRead.threadStep s i v = some s' ∧ Inv num_blocks s' ds' qs' := by
  unfold TRead.threadStep
  cases hpc : s.thread i with
  | nascent => exact ⟨_, _, _, rfl, hi.fetch hrun hmain hpc _⟩
  | record =>
    obtain ⟨q, henq, hq⟩ := queueEnqueue_spec hi.queue (some i) none none
    have hmap : qs.map entry ++ [⟨some i, none, none⟩] = (qs ++ [i]).map entry := by
      rw [List.map_append]
      rfl
    rw [hmap] at hq
    simp only [Option.bind_eq_bind, henq, Option.bind_some]
    exact ⟨_, _, _, rfl, hi.record hrun hmain hpc hq⟩
  | block => exact ⟨_, _, _, rfl, hi.block hrun hmain hpc⟩
  | blocked => exact ⟨_, _, _, rfl, hi.finish hrun hmain hpc⟩
  | dead => exact ⟨_, _, _, rfl, hi⟩

/-! ## Interrupts -/

theorem Inv.standing_disk (hi : Inv num_blocks s (i :: ds) (i :: qs)) :
    s.thread i ≠ .nascent ∧ s.thread i ≠ .record ∧
      Standing (s.thread i) (s.running = some (.thread i)) true false = true := by
  have hst := hi.standing i
  have hnd := List.nodup_cons.mp hi.diskNodup
  have hrec : s.thread i ≠ .record := fun h => by
    simp only [h, Standing, Bool.and_eq_true, decide_eq_true_eq] at hst
    have hfl : inFlight s = [i] := by rw [inFlight_of_running hst.1.1, if_pos h]
    have hds := (List.cons.inj hi.recorded).2
    rw [hfl] at hds
    exact hnd.1 (by simp [hds])
  cases hpc : s.thread i <;> simp_all [Standing]

/-- **An interrupt that finds its entry.** -/
theorem Inv.complete (hi : Inv num_blocks s ds qs) (hd : s.disk ≠ []) (he : ¬Early s) :
    ∃ s' ds' qs', complete s = some s' ∧ Inv num_blocks s' ds' qs' := by
  cases qs with
  | nil =>
    have hds := hi.recorded
    rw [List.nil_append] at hds
    unfold inFlight at hds
    split at hds
    case h_1 i hrun =>
      split at hds
      case isTrue hpc => exact absurd ⟨⟨i, hrun, hpc⟩, by rw [hi.disk, hds]; rfl⟩ he
      case isFalse => exact absurd (by rw [hi.disk, hds]; rfl) hd
    case h_2 => exact absurd (by rw [hi.disk, hds]; rfl) hd
  | cons i qs =>
    have hrec := hi.recorded
    obtain ⟨ds, rfl⟩ : ∃ ds', ds = i :: ds' := ⟨_, hrec⟩
    have hnd := List.nodup_cons.mp hi.diskNodup
    obtain ⟨hnas, -, hst⟩ := hi.standing_disk
    obtain ⟨q, hdeq, hq⟩ := queueDequeue_spec hi.queue
    let s' : State := { s with
      disk := ds.map fun j => (j, s.blockno j)
      resultBuf := performDMA ARead.story s.resultBuf i (s.blockno i)
      pending_read_queue := q
      ready := readyQueueEnqueue s.ready (.thread i) }
    have hmem : ∀ w, w ≠ .thread i → (w ∈ s'.ready ↔ w ∈ s.ready) := fun w hw =>
      mem_readyQueueEnqueue.trans (or_iff_left hw)
    have hmain' : .main ∈ s'.ready ↔ .main ∈ s.ready := hmem .main nofun
    refine ⟨s', ds, qs, ?_, fun j => ?_, fun j h => ?_, nodup_readyQueueEnqueue hi.readyNodup,
      fun h => ?_, rfl, hnd.2, hq, (List.cons.inj hrec).2, fun j h hj => ?_, hi.sum, ?_, hi.printed⟩
    · unfold TRead.complete
      rw [hi.disk, List.map_cons]
      simp only [interruptServiceRoutine, Option.bind_eq_bind, hdeq, Option.bind_some]
      rfl
    · by_cases hj : j = i
      · subst hj
        have hr : .thread j ∈ s'.ready := mem_readyQueueEnqueue.mpr (.inr rfl)
        simp only [hr, hnd.1, decide_true, decide_false]
        exact hst
      · have h := hi.standing j
        have hji : Who.thread j ≠ .thread i := fun e => by
          cases e
          exact hj rfl
        simpa only [hmem _ hji, List.mem_cons, hj, false_or] using h
    · by_cases hj : j = i
      · subst hj
        exact hi.lt j (.inl hnas)
      · have hji : Who.thread j ≠ .thread i := fun e => by
          cases e
          exact hj rfl
        rw [hmem _ hji] at h
        exact hi.lt j h
    · rw [hmain']
      exact hi.mainOnce h
    · by_cases hji : j = i
      · subst hji
        exact Function.update_self _ _ _
      · refine (Function.update_of_ne hji _ _).trans (hi.read j h ?_)
        exact fun hm => hj ((List.mem_cons.mp hm).resolve_left hji)
    · have hfits := hi.main
      change MainFits num_blocks s' s.main
      cases hm : s.main with
      | create b =>
        rw [hm] at hfits
        exact absurd (hfits.2.2.2.1 i) hnas
      | join b =>
        rw [hm] at hfits
        exact ⟨hfits.1, fun h => hfits.2.1 (hmain'.mp h), hfits.2.2⟩
      | joining b =>
        rw [hm] at hfits
        exact ⟨hfits.1, hfits.2.1, fun h => hfits.2.2 (h.imp hmain'.mp id)⟩
      | done => trivial

/-! ## Runs -/

theorem reach_inv {o : Option State} (h : ((tReadRun num_blocks).restrict InTime).Reach o) :
    ∃ s, o = some s ∧ ∃ ds qs, Inv num_blocks s ds qs := by
  refine Sys.Reach.defined ?_ ?_ h
  · rintro s ⟨blockno, resultBuf, rfl⟩
    exact ⟨[], [], inv_start blockno resultBuf⟩
  · rintro s l ⟨ds, qs, hi⟩ ha ht
    cases l with
    | main => exact ⟨_, rfl, ds, qs, hi.mainStep ha.1 ha.2⟩
    | thread i v =>
      obtain ⟨s', ds', qs', hs, hi'⟩ := hi.threadStep ha.1 ha.2 v
      exact ⟨s', hs, ds', qs', hi'⟩
    | dispatch => exact ⟨_, rfl, ds, qs, hi.dispatch ha.1⟩
    | interrupt =>
      obtain ⟨s', ds', qs', hs, hi'⟩ := hi.complete ha.1 ht
      exact ⟨s', hs, ds', qs', hi'⟩

theorem reach_create (blockno : ℕ → BitVec 32) (resultBuf : Ints) {b : ℕ} (hb : b ≤ num_blocks) :
    ∃ ready, (tReadRun num_blocks).Reach (some { start blockno resultBuf with
      main := .create b, ready }) ∧ (b = 0 → ready = []) ∧
      (0 < b → ∃ ws, ready = .thread 0 :: ws) := by
  induction b with
  | zero =>
    exact ⟨[], .init ⟨_, rfl, blockno, resultBuf, rfl⟩, fun _ => rfl,
      fun h => absurd h (Nat.lt_irrefl 0)⟩
  | succ b ih =>
    obtain ⟨ready, hr, hnil, hhead⟩ := ih (Nat.le_of_succ_le hb)
    refine ⟨readyQueueEnqueue ready (.thread b), hr.step (l := .main) ⟨_, rfl, ⟨rfl, nofun⟩, ?_⟩,
      nofun, fun _ => ?_⟩
    · exact congrArg some (if_pos hb)
    · cases b with
      | zero =>
        rw [hnil rfl]
        exact ⟨[], rfl⟩
      | succ b =>
        obtain ⟨ws, rfl⟩ := hhead (Nat.succ_pos b)
        unfold readyQueueEnqueue
        split
        · exact ⟨ws, rfl⟩
        · exact ⟨ws ++ [.thread (b + 1)], rfl⟩

theorem reach_next {o : Option State} (l : Label) (h : (tReadRun num_blocks).Reach (some s))
    (ha : Allowed s l) (hn : next num_blocks s l = o) : (tReadRun num_blocks).Reach o :=
  h.step ⟨s, rfl, ha, hn⟩

/-- **Some run is undefined**, as soon as there is a block: the first read is complete before its
thread is in the queue. -/
theorem reach_none (h : 0 < num_blocks) : (tReadRun num_blocks).Reach none := by
  obtain ⟨ready, hr, -, hhead⟩ := reach_create (fun _ => 0) (fun _ => 0) (le_refl num_blocks)
  obtain ⟨ws, rfl⟩ := hhead h
  have h₁ := reach_next .main hr ⟨rfl, nofun⟩ (congrArg some (if_neg (lt_irrefl _)))
  have h₂ := reach_next .main h₁ ⟨rfl, nofun⟩
    (congrArg some ((if_pos h).trans (if_neg (show ThreadPc.nascent ≠ .dead by decide))))
  have h₃ := reach_next .dispatch h₂ ⟨rfl, nofun⟩ rfl
  have h₄ := reach_next (.thread 0 0) h₃ ⟨rfl, nofun⟩ rfl
  exact reach_next .interrupt h₄ ⟨List.cons_ne_nil _ _, nofun⟩ rfl

theorem reach_zero {o : Option State} (h : (tReadRun 0).Reach o) :
    ((tReadRun 0).restrict InTime).Reach o := by
  induction h with
  | init h => exact .init h
  | step hr hst ih =>
    refine ih.step_restrict ?_ hst
    obtain ⟨s, rfl, ds, qs, hi⟩ := reach_inv ih
    unfold InTime
    split
    · rename_i s' hs
      cases hs
      rintro ⟨⟨i, hrun, -⟩, -⟩
      exact absurd (hi.lt i (.inr (.inl hrun))) (Nat.not_lt_zero i)
    · trivial

/-- The sum is right. -/
def Right (num_blocks : ℕ) (s : State) : Prop :=
  ∀ x, s.printed = some x → x = total num_blocks fun b => BitVec.ofNat 32 b

/-- **What the sum is.** Without early interrupts it is that of the blocks that the threads have
found in `blockno`. In all runs it is right only if there are no blocks. -/
theorem tRead_sum_iff (num_blocks : ℕ) :
    (∀ o, ((tReadRun num_blocks).restrict InTime).Reach o → ∃ s, o = some s ∧
      ∀ x, s.printed = some x → x = total num_blocks s.blockno) ∧
    ((∀ o, (tReadRun num_blocks).Reach o → ∃ s, o = some s ∧ Right num_blocks s) ↔
      num_blocks = 0) := by
  refine ⟨fun o h => ?_, fun hall => ?_, ?_⟩
  · obtain ⟨s, rfl, ds, qs, hi⟩ := reach_inv h
    exact ⟨s, rfl, fun x hx => (hi.printed x hx).2⟩
  · by_contra hne
    obtain ⟨s, hs, -⟩ := hall none (reach_none (Nat.pos_of_ne_zero hne))
    cases hs
  · rintro rfl o h
    obtain ⟨s, rfl, ds, qs, hi⟩ := reach_inv (reach_zero h)
    refine ⟨s, rfl, fun x hx => (hi.printed x hx).2.trans ?_⟩
    unfold total
    rw [Finset.range_zero, Finset.sum_empty, Finset.sum_empty]

/-- The only thread finds `1` in `blockno`, which the first loop has left there, and reads block 1
in place of block 0. -/
theorem tRead_stale : ∃ s, (tReadRun 1).Reach (some s) ∧ s.printed = some 22 ∧ ¬Right 1 s := by
  have h₀ : (tReadRun 1).Reach (some (start (fun _ => 0) fun _ => 0)) := .init ⟨_, rfl, _, _, rfl⟩
  have h₁ := reach_next .main h₀ ⟨rfl, nofun⟩ rfl
  have h₂ := reach_next .main h₁ ⟨rfl, nofun⟩ rfl
  have h₃ := reach_next .main h₂ ⟨rfl, nofun⟩ rfl
  have h₄ := reach_next .dispatch h₃ ⟨rfl, nofun⟩ rfl
  have h₅ := reach_next (.thread 0 1) h₄ ⟨rfl, nofun⟩ rfl
  have h₆ := reach_next (.thread 0 1) h₅ ⟨rfl, nofun⟩ rfl
  have h₇ := reach_next (.thread 0 1) h₆ ⟨rfl, nofun⟩ rfl
  have h₈ := reach_next .interrupt h₇ ⟨List.cons_ne_nil _ _, nofun⟩ rfl
  have h₉ := reach_next .dispatch h₈ ⟨rfl, nofun⟩ rfl
  have h₁₀ := reach_next (.thread 0 1) h₉ ⟨rfl, nofun⟩ rfl
  have h₁₁ := reach_next .dispatch h₁₀ ⟨rfl, nofun⟩ rfl
  have h₁₂ := reach_next .main h₁₁ ⟨rfl, nofun⟩ rfl
  have h₁₃ := reach_next .main h₁₂ ⟨rfl, nofun⟩ rfl
  exact ⟨_, h₁₃, rfl, fun h => absurd (h 22 rfl) (by decide)⟩

end IntroSystems.Disk.TRead
