import IntroSystems.Disk.ARead
import IntroSystems.Disk.Polling

/-!
# Synchronous reads

`sRead.c`, and `treasureHunt.c` with the `disk.c` of their directories.

* `SRead.main`, `TreasureHunt.main`: what they read and what they do with it.
* `SRead.sync_iterate`, `TreasureHunt.sync_iterate`: the same on a disk without latency.
* **`synchronous_reads`**: whenever the timer goes off, each read is used only when it is complete,
  and the sum of the blocks and the end of the chain are printed.
-/

set_option autoImplicit false

namespace IntroSystems.Disk

open Polling

namespace SRead

/-- `sRead/disk.c` has the blocks of `aRead/disk.c`. -/
def device : Device := ⟨ARead.story, 10 * 1000⟩

structure Locals where
  blockno : ℕ
  sum : BitVec 32
  deriving DecidableEq

def main (num_blocks : ℤ) : Program Locals where
  start := ⟨0, 0⟩
  next l _ := if l.blockno < num_blocks then some (BitVec.ofNat 32 l.blockno) else none
  resume l result := ⟨l.blockno + 1, l.sum + result⟩
  print l _ := l.sum

variable {num_blocks : ℤ} {r : BitVec 32} {k : ℕ}

theorem sync_iterate (num_blocks : ℤ) (r : BitVec 32) (k : ℕ) :
    ((sync device.story (main num_blocks))^[k] ((main num_blocks).start, r)).1 =
      ⟨min k num_blocks.toNat, ARead.total (min k num_blocks.toNat)⟩ := by
  induction k with
  | zero =>
    rw [Nat.zero_min]
    rfl
  | succ k ih =>
    rw [Function.iterate_succ_apply']
    generalize (sync device.story (main num_blocks))^[k] ((main num_blocks).start, r) = x at ih ⊢
    obtain ⟨l, v⟩ := x
    obtain rfl : l = _ := ih
    unfold sync
    dsimp only [main]
    by_cases hk : k < num_blocks.toNat
    · have hmin : min k num_blocks.toNat = k := Nat.min_eq_left (Nat.le_of_lt hk)
      rw [hmin, Nat.min_eq_left hk, if_pos (by omega), ARead.total_succ]
      rfl
    · rw [if_neg (by omega), Nat.min_eq_right (by omega), Nat.min_eq_right (by omega)]

theorem next_none_iff : (main num_blocks).next
      ((sync device.story (main num_blocks))^[k] ((main num_blocks).start, r)).1
      ((sync device.story (main num_blocks))^[k] ((main num_blocks).start, r)).2 = none ↔
    num_blocks.toNat ≤ k := by
  rw [sync_iterate]
  simp only [main, ite_eq_right_iff, reduceCtorEq, imp_false]
  omega

end SRead

namespace TreasureHunt

def device : Device := ⟨story, READ_LATENCY_USEC⟩

/-- `main` is before its first read, or at its loop. -/
inductive Locals
  | first
  | others (counter : ℤ) (readno : ℕ)
  deriving DecidableEq

def main (starting_block_number : BitVec 32) : Program Locals where
  start := .first
  next
    | .first, _ => some starting_block_number
    | .others counter readno, result => if readno < counter then some result else none
  resume
    | .first, result => .others result.toInt 0
    | .others counter readno, _ => .others counter (readno + 1)
  print _ result := result

/-- The value of the block with the number `b`. -/
abbrev follow : BitVec 32 → BitVec 32 := blockAt story

variable {b r : BitVec 32} {k : ℕ}

theorem sync_iterate (b r : BitVec 32) (k : ℕ) :
    (sync device.story (main b))^[k + 1] ((main b).start, r) =
      (.others (follow b).toInt (min k (follow b).toInt.toNat),
        follow^[min k (follow b).toInt.toNat] (follow b)) := by
  induction k with
  | zero =>
    rw [Nat.zero_min]
    rfl
  | succ k ih =>
    rw [Function.iterate_succ_apply', ih]
    unfold sync
    dsimp only [main]
    by_cases hk : k < (follow b).toInt.toNat
    · have hmin : min k (follow b).toInt.toNat = k := Nat.min_eq_left (Nat.le_of_lt hk)
      rw [hmin, Nat.min_eq_left hk, if_pos (by omega), Function.iterate_succ_apply']
      rfl
    · rw [if_neg (by omega), Nat.min_eq_right (by omega), Nat.min_eq_right (by omega)]

theorem next_none_iff : (main b).next
      ((sync device.story (main b))^[k + 1] ((main b).start, r)).1
      ((sync device.story (main b))^[k + 1] ((main b).start, r)).2 = none ↔
    (follow b).toInt.toNat ≤ k := by
  rw [sync_iterate]
  simp only [main, ite_eq_right_iff, reduceCtorEq, imp_false]
  omega

end TreasureHunt

/-- **Reads are used when they are complete.** For every number of blocks and every block to start
from, wherever `result` is, and whenever the timer goes off, `sRead` prints the sum of the blocks, and
`treasureHunt` the end of the chain of as many blocks as the first one says. -/
theorem synchronous_reads (result : ℕ) :
    (∀ num_blocks o, (pollingRun SRead.device (SRead.main num_blocks) result).Reach o →
      ∃ s, o = some s ∧ Prints SRead.device (SRead.main num_blocks) result
        (ARead.total num_blocks.toNat) s) ∧
    ∀ starting_block_number o,
      (pollingRun TreasureHunt.device (TreasureHunt.main starting_block_number) result).Reach o →
      ∃ s, o = some s ∧ Prints TreasureHunt.device (TreasureHunt.main starting_block_number) result
        (TreasureHunt.follow^[(TreasureHunt.follow starting_block_number).toInt.toNat]
          (TreasureHunt.follow starting_block_number)) s := by
  constructor
  · intro num_blocks o h
    refine polling_prints (fun r => ⟨num_blocks.toNat, SRead.next_none_iff.mpr (le_refl _)⟩)
      (fun r k hnone => ?_) h
    have hk := SRead.next_none_iff.mp hnone
    rw [SRead.sync_iterate, Nat.min_eq_right hk]
    rfl
  · intro b o h
    refine polling_prints
      (fun r => ⟨_ + 1, TreasureHunt.next_none_iff.mpr (le_refl _)⟩) (fun r k hnone => ?_) h
    cases k with
    | zero => cases hnone
    | succ k =>
      have hk := TreasureHunt.next_none_iff.mp hnone
      rw [TreasureHunt.sync_iterate, Nat.min_eq_right hk]
      rfl

/-- A read, up to its DMA and to its end, with a timer interrupt while `main` polls. -/
def dmaLabels : List Polling.Label :=
  [.main ⟨0, 0⟩, .main ⟨0, 0⟩, .main ⟨0, 0⟩, .timer ⟨1, 0⟩, .handler [] (.test ⟨1, 0⟩) [],
    .main ⟨0, 0⟩]

def readLabels : List Polling.Label :=
  dmaLabels ++ [.handler [] (.deliver ⟨1, 0⟩) [], .main ⟨0, 0⟩, .handler [] (.service ⟨1, 0⟩) [],
    .main ⟨0, 0⟩, .handler [] (.test ⟨1, 0⟩) []]

/-- `sRead` polls for the second of two blocks, between its DMA and its interrupt. `treasureHunt` has
read block 20, which is 1, and block 1, which is 21. -/
theorem synchronous_reads_two :
    (∃ s, (pollingRun SRead.device (SRead.main 2) 5).Reach (some s) ∧
      s.pc = .poll ∧ s.log = round 5 0 ++ [.scheduled 1, .dma 5 1] ∧
      Prints SRead.device (SRead.main 2) 5 (ARead.total 2) s) ∧
    ∃ s, (pollingRun TreasureHunt.device (TreasureHunt.main 20) 5).Reach (some s) ∧
      s.log = round 5 20 ++ round 5 1 ∧ s.printed = some 21 ∧ Synchronous 5 s ∧
      TreasureHunt.follow^[(TreasureHunt.follow 20).toInt.toNat] (TreasureHunt.follow 20) = 21 := by
  obtain ⟨hsum, hchain⟩ := synchronous_reads 5
  constructor
  · obtain ⟨s, hs, hpc, hlog⟩ : ∃ s, (pollingRun SRead.device (SRead.main 2) 5).Reach (some s) ∧
        s.pc = .poll ∧ s.log = round 5 0 ++ [.scheduled 1, .dma 5 1] :=
      Sys.Reach.of_follow ⟨fun _ => 7, rfl⟩ (readLabels ++ dmaLabels) (by decide +kernel)
    obtain ⟨_, ⟨⟩, hprints⟩ := hsum 2 _ hs
    exact ⟨s, hs, hpc, hlog, hprints⟩
  · obtain ⟨s, hs, hlog, hprinted⟩ :
        ∃ s, (pollingRun TreasureHunt.device (TreasureHunt.main 20) 5).Reach (some s) ∧
        s.log = round 5 20 ++ round 5 1 ∧ s.printed = some 21 :=
      Sys.Reach.of_follow ⟨fun _ => 7, rfl⟩ (readLabels ++ readLabels ++ [.main ⟨0, 0⟩]) (by decide +kernel)
    obtain ⟨_, ⟨⟩, hprints⟩ := hchain 20 _ hs
    exact ⟨s, hs, hlog, hprinted, hprints.synchronous, (hprints.printed 21 hprinted).symm⟩

end IntroSystems.Disk
