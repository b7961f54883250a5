import IntroSystems.Disk.Queue
import Mathlib.Algebra.BigOperators.Group.List.Basic
import Mathlib.Data.BitVec

/-!
# Asynchronous reads

`aRead_matthew.c`. The disk completes the oldest read at any time after `disk_schedule_read`, and
`main` goes on when the interrupt has been served.

* `main`, `complete`: the steps of `main` and of the disk. `none` is a call of a `NULL` callback or
  a read from a `NULL` pointer.
* `Early`: the one read that waits is not yet in `pending_read_queue`.
* `Inv`, `Inv.main`, `Inv.complete`: the disk and the queue hold the same reads, but for an early
  one.
* **`aRead_pairs_iff`**: every interrupt gets its own entry exactly if it does not come early.
-/

set_option autoImplicit false

namespace IntroSystems.Disk.ARead

open Recycling

/-! ## The code -/

/-- The functions that are called back. -/
inductive Function
  | handleRead
  deriving DecidableEq

/-- Where `main` is: at the test of its loop, in front of `queue_enqueue`, at the polling loop, at
its end. -/
inductive Pc
  | loop (blockno : ℕ)
  | record (blockno : ℕ)
  | poll
  | done
  deriving DecidableEq

/-- `result[k]` is the `int` at `k`; `disk` are the reads that are not complete. `taken` is what the
interrupts have dequeued. -/
structure State where
  pc : Pc
  pending_read_queue : Queue (Item Function)
  disk : List (ℕ × BitVec 32)
  mem : Ints
  sum : BitVec 32
  pending_reads : ℤ
  printed : Option (BitVec 32)
  taken : List (Option ℕ × Option Function)

/-- The blocks of the disk of `aRead` and `tRead`. -/
def story : List (BitVec 32) :=
  [10, 22, 40, 30, 17, 3, 19, 20, 15, 31, 3, 4, 5, 7, 2, 7, 5, 15, 12, 8, 13, 17, 19, 20, 41, 32,
    41, 12, 1, 0, 30]

def handleRead (s : State) (resultv : Option ℕ) : Option State := do
  let p ← resultv
  some { s with sum := s.sum + s.mem p, pending_reads := s.pending_reads - 1 }

/-- `callback (val, NULL)`. -/
def call (s : State) (val : Option ℕ) : Option Function → Option State
  | none => none
  | some .handleRead => handleRead s val

def interruptServiceRoutine (s : State) : Option State := do
  let (pending_read_queue, val, callback) ← queueDequeue s.pending_read_queue
  call { s with pending_read_queue, taken := s.taken ++ [(val, callback)] } val callback

/-- The disk completes a read. -/
def complete (s : State) : Option State :=
  match s.disk with
  | [] => some s
  | (buf, blockno) :: disk =>
    interruptServiceRoutine { s with disk, mem := performDMA story s.mem buf blockno }

/-- The next step of `main`. -/
def main (num_blocks : ℤ) (s : State) : Option State :=
  match s.pc with
  | .loop blockno =>
    if blockno < num_blocks then
      some { s with disk := s.disk ++ [(blockno, BitVec.ofNat 32 blockno)], pc := .record blockno }
    else some { s with pc := .poll }
  | .record blockno => do
    let pending_read_queue ←
      queueEnqueue s.pending_read_queue (some blockno) none (some .handleRead)
    some { s with pending_read_queue, pc := .loop (blockno + 1) }
  | .poll =>
    if 0 < s.pending_reads then some s else some { s with printed := some s.sum, pc := .done }
  | .done => some s

/-! ## Runs -/

inductive Label
  | main
  | interrupt
  deriving DecidableEq

def Allowed (s : State) : Label → Prop
  | .main => s.pc ≠ .done
  | .interrupt => s.disk ≠ []

def next (num_blocks : ℤ) (s : State) : Label → Option State
  | .main => main num_blocks s
  | .interrupt => complete s

def start (num_blocks : ℤ) (mem : Ints) : State where
  pc := .loop 0
  pending_read_queue := Queue.empty
  disk := []
  mem := mem
  sum := 0
  pending_reads := num_blocks
  printed := none
  taken := []

def aReadRun (num_blocks : ℤ) : Sys (Option State) Label :=
  Sys.ofNext (fun s => ∃ mem, s = start num_blocks mem) Allowed (next num_blocks)

/-- Only one read waits, and `main` has yet to put it into the queue. -/
def Early (s : State) : Prop := (∃ blockno, s.pc = .record blockno) ∧ s.disk.length = 1

/-- No interrupt comes early. -/
def InTime : Option State → Label → Prop
  | some s, .interrupt => ¬Early s
  | _, _ => True

/-- The sum of the first `n` blocks. -/
def total (n : ℕ) : BitVec 32 :=
  ((List.range n).map fun b => blockAt story (BitVec.ofNat 32 b)).sum

/-- The `k`-th interrupt has taken the `k`-th entry, the reads that are left are counted, and the sum
is printed in the end. -/
structure Pairs (num_blocks : ℤ) (s : State) : Prop where
  taken : s.taken = (List.range s.taken.length).map fun k => (some k, some .handleRead)
  pending : s.pending_reads = num_blocks - s.taken.length
  printed : ∀ v, s.printed = some v → v = total num_blocks.toNat

/-! ## The invariant -/

/-- How many reads have been scheduled, and how many have been recorded in the queue. -/
def Pc.scheduled (n : ℕ) : Pc → ℕ
  | .loop b => b
  | .record b => b + 1
  | _ => n

def Pc.recorded (n : ℕ) : Pc → ℕ
  | .loop b => b
  | .record b => b
  | _ => n

/-- The entry for the `k`-th read. -/
def entry (k : ℕ) : Item Function := ⟨some k, none, some .handleRead⟩

/-- The state after `c` interrupts. -/
structure Inv (num_blocks : ℤ) (s : State) (c : ℕ) : Prop where
  le : c ≤ s.pc.recorded num_blocks.toNat
  bound : s.pc.scheduled num_blocks.toNat ≤ num_blocks.toNat
  disk : s.disk = (List.range' c (s.pc.scheduled num_blocks.toNat - c)).map fun b =>
    (b, BitVec.ofNat 32 b)
  queue : Holds s.pending_read_queue
    ((List.range' c (s.pc.recorded num_blocks.toNat - c)).map entry)
  sum : s.sum = total c
  pending : s.pending_reads = num_blocks - c
  taken : s.taken = (List.range c).map fun k => (some k, some .handleRead)
  printed : ∀ v, s.printed = some v → v = total num_blocks.toNat

variable {num_blocks : ℤ} {s : State} {c : ℕ}

theorem total_succ (n : ℕ) : total (n + 1) = total n + blockAt story (BitVec.ofNat 32 n) := by
  simp [total, List.range_succ]

theorem inv_start (mem : Ints) : Inv num_blocks (start num_blocks mem) 0 where
  le := Nat.zero_le _
  bound := Nat.zero_le _
  disk := rfl
  queue := holds_empty
  sum := rfl
  pending := by simp [start]
  taken := rfl
  printed := fun v h => by cases h

theorem Inv.pairs (hi : Inv num_blocks s c) : Pairs num_blocks s := by
  have hlen : s.taken.length = c := by rw [hi.taken]; simp
  exact ⟨by rw [hlen]; exact hi.taken, by rw [hlen]; exact hi.pending, hi.printed⟩

theorem Inv.main (hi : Inv num_blocks s c) :
    ∃ s', main num_blocks s = some s' ∧ Inv num_blocks s' c := by
  have hle := hi.le
  have hbound := hi.bound
  have hdisk := hi.disk
  have hqueue := hi.queue
  unfold ARead.main
  cases hpc : s.pc with
  | loop b =>
    rw [hpc] at hle hbound hdisk hqueue
    change c ≤ b at hle
    change b ≤ num_blocks.toNat at hbound
    dsimp only
    by_cases hb : (b : ℤ) < num_blocks
    · rw [if_pos hb]
      refine ⟨_, rfl, hle, ?_, ?_, hqueue, hi.sum, hi.pending, hi.taken, hi.printed⟩
      · change b + 1 ≤ num_blocks.toNat
        omega
      · change s.disk ++ [(b, BitVec.ofNat 32 b)] =
          (List.range' c (b + 1 - c)).map fun b => (b, BitVec.ofNat 32 b)
        have hlast : c + (b - c) = b := by omega
        rw [hdisk, show b + 1 - c = b - c + 1 by omega, List.range'_1_concat, List.map_append,
          hlast]
        rfl
    · -- the loop ends with `blockno` equal to the number of blocks, or that is negative
      rw [if_neg hb]
      obtain rfl : b = num_blocks.toNat := by omega
      exact ⟨_, rfl, hle, le_refl _, hdisk, hqueue, hi.sum, hi.pending, hi.taken, hi.printed⟩
  | record b =>
    rw [hpc] at hle hbound hdisk hqueue
    change c ≤ b at hle
    obtain ⟨q', henq, hq'⟩ := queueEnqueue_spec hqueue (some b) none (some .handleRead)
    simp only [Option.bind_eq_bind, henq, Option.bind_some]
    refine ⟨_, rfl, Nat.le_succ_of_le hle, hbound, hdisk, ?_, hi.sum, hi.pending, hi.taken,
      hi.printed⟩
    change Holds q' ((List.range' c (b + 1 - c)).map entry)
    have hlast : c + (b - c) = b := by omega
    rw [show b + 1 - c = b - c + 1 by omega, List.range'_1_concat, List.map_append, hlast]
    exact hq'
  | poll =>
    rw [hpc] at hle hbound hdisk hqueue
    dsimp only
    by_cases hp : 0 < s.pending_reads
    · rw [if_pos hp]
      exact ⟨s, rfl, hi⟩
    · rw [if_neg hp]
      refine ⟨_, rfl, hle, hbound, hdisk, hqueue, hi.sum, hi.pending, hi.taken, fun v hv => ?_⟩
      have hc : c = num_blocks.toNat := by
        have hpend := hi.pending
        change c ≤ num_blocks.toNat at hle
        omega
      rw [← Option.some.inj hv, hi.sum, hc]
  | done => exact ⟨s, rfl, hi⟩

/-- **An interrupt that finds its entry.** -/
theorem Inv.complete (hi : Inv num_blocks s c) (hd : s.disk ≠ []) (he : ¬Early s) :
    ∃ s', complete s = some s' ∧ Inv num_blocks s' (c + 1) := by
  have hle := hi.le
  have hdisk := hi.disk
  have hqueue := hi.queue
  have hlt : c < s.pc.recorded num_blocks.toNat := by
    have hlen : s.disk.length = s.pc.scheduled num_blocks.toNat - c := by rw [hdisk]; simp
    have hpos : 0 < s.disk.length := List.length_pos_iff.mpr hd
    cases hpc : s.pc with
    | record b =>
      have hone : s.disk.length ≠ 1 := fun h => he ⟨⟨b, hpc⟩, h⟩
      rw [hpc] at hlen hle
      change c < b
      change s.disk.length = b + 1 - c at hlen
      omega
    | loop b | poll | done =>
      rw [hpc] at hlen
      simp only [Pc.scheduled, Pc.recorded] at hlen ⊢
      omega
  have hsched : s.pc.recorded num_blocks.toNat ≤ s.pc.scheduled num_blocks.toNat := by
    cases s.pc <;> simp [Pc.scheduled, Pc.recorded]
  obtain ⟨k, hk⟩ := Nat.exists_eq_add_of_lt (hlt.trans_le hsched)
  obtain ⟨j, hj⟩ := Nat.exists_eq_add_of_lt hlt
  have hk' : s.pc.scheduled num_blocks.toNat - c = k + 1 := by omega
  have hj' : s.pc.recorded num_blocks.toNat - c = j + 1 := by omega
  rw [hk', List.range'_succ, List.map_cons] at hdisk
  rw [hj', List.range'_succ, List.map_cons] at hqueue
  obtain ⟨q', hdeq, hq'⟩ := queueDequeue_spec hqueue
  unfold ARead.complete
  rw [hdisk]
  simp only [interruptServiceRoutine, Option.bind_eq_bind, hdeq, Option.bind_some, entry, call,
    handleRead]
  refine ⟨_, rfl, hlt, hi.bound, ?_, ?_, ?_, ?_, ?_, hi.printed⟩
  · rw [show s.pc.scheduled num_blocks.toNat - (c + 1) = k by omega]
  · rw [show s.pc.recorded num_blocks.toNat - (c + 1) = j by omega]
    exact hq'
  · rw [total_succ, ← hi.sum]
    simp [performDMA]
  · change s.pending_reads - 1 = num_blocks - ((c + 1 : ℕ) : ℤ)
    rw [hi.pending]
    push_cast
    omega
  · rw [List.range_succ, List.map_append, ← hi.taken]
    rfl

/-- **An early interrupt** finds the queue empty, and calls `NULL`. -/
theorem Inv.complete_early (hi : Inv num_blocks s c) (he : Early s) : ARead.complete s = none := by
  obtain ⟨⟨b, hpc⟩, hone⟩ := he
  have hle := hi.le
  have hdisk := hi.disk
  have hqueue := hi.queue
  rw [hpc] at hle hdisk hqueue
  change c ≤ b at hle
  have hlen : s.disk.length = b + 1 - c := by rw [hdisk]; simp [Pc.scheduled]
  obtain rfl : c = b := by omega
  simp only [Pc.recorded, Nat.sub_self, List.range'_zero, List.map_nil] at hqueue
  simp only [Pc.scheduled, Nat.add_sub_cancel_left, List.range'_succ, List.map_cons] at hdisk
  unfold ARead.complete
  rw [hdisk]
  simp only [interruptServiceRoutine, Option.bind_eq_bind, queueDequeue_nil hqueue,
    Option.bind_some, call]

/-! ## Runs -/

theorem reach_inv {o : Option State} (h : ((aReadRun num_blocks).restrict InTime).Reach o) :
    ∃ s, o = some s ∧ ∃ c, Inv num_blocks s c := by
  refine Sys.Reach.defined ?_ ?_ h
  · rintro s ⟨mem, rfl⟩
    exact ⟨0, inv_start mem⟩
  · rintro s l ⟨c, hi⟩ hallowed hp
    cases l with
    | main =>
      obtain ⟨s', hs, hi'⟩ := hi.main
      exact ⟨s', hs, c, hi'⟩
    | interrupt =>
      obtain ⟨s', hs, hi'⟩ := hi.complete hallowed hp
      exact ⟨s', hs, c + 1, hi'⟩

/-- **When interrupts and requests pair up.** In every run without an early interrupt they do; and
an early interrupt that ends such a run calls `NULL`. -/
theorem aRead_pairs_iff (num_blocks : ℤ) :
    (∀ o, ((aReadRun num_blocks).restrict InTime).Reach o → ∃ s, o = some s ∧ Pairs num_blocks s) ∧
      ∀ s, ((aReadRun num_blocks).restrict InTime).Reach (some s) → s.disk ≠ [] →
        ((∃ s', complete s = some s' ∧ Pairs num_blocks s') ↔ ¬Early s) := by
  constructor
  · intro o h
    obtain ⟨s, rfl, c, hi⟩ := reach_inv h
    exact ⟨s, rfl, hi.pairs⟩
  · intro s h hd
    obtain ⟨_, hs, c, hi⟩ := reach_inv h
    cases hs
    constructor
    · rintro ⟨s', hs, -⟩ he
      rw [hi.complete_early he] at hs
      cases hs
    · intro he
      obtain ⟨s', hs, hi'⟩ := hi.complete hd he
      exact ⟨s', hs, hi'.pairs⟩

/-- The only block is read before `main` has recorded that it waits for it. -/
theorem aRead_calls_null : (aReadRun 1).Reach none ∧
    ¬ ∀ (num_blocks : ℤ) o, (aReadRun num_blocks).Reach o →
      ∃ s, o = some s ∧ Pairs num_blocks s := by
  have h0 : (aReadRun 1).Reach (some (start 1 fun _ => 0)) := .init ⟨_, rfl, _, rfl⟩
  have h1 := h0.step (l := .main) ⟨_, rfl, Pc.noConfusion, rfl⟩
  have h2 : (aReadRun 1).Reach none := h1.step (l := .interrupt) ⟨_, rfl, List.cons_ne_nil _ _, rfl⟩
  refine ⟨h2, fun h => ?_⟩
  obtain ⟨s, hs, -⟩ := h 1 none h2
  cases hs

end IntroSystems.Disk.ARead
