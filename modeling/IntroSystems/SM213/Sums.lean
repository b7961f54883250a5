import IntroSystems.SM213.Assembled

/-!
# A loop, and the same loop unrolled

`S5-loop.s` and `S5a-loop-unrolled.s`: the sum of ten words.

* `Looping.program`, `Unrolled.program`: the code, with the labels resolved.
* `partialSum`; `Looping.turn_runs`, `Unrolled.turn_runs`: one more word.
* **`unrolled_agrees`**: both programs halt, with the same sum, and write nothing else but `i`.
-/

set_option autoImplicit false

namespace IntroSystems.SM213.Sums

open Reg

/-- The globals. -/
def sWord : ℕ := 0x1000 / 4
def iWord : ℕ := 0x1004 / 4
def aWord : ℕ := 0x1008 / 4

def Looping.loop : ℕ := 0x118
def Looping.end_loop : ℕ := 0x126

/-- `S5-loop.s`. -/
def Looping.program : Program where
  code :=
    [(0x100, [.ldi 0 r0, .ldi (addr aWord) r1, .ldi 0 r2, .ldi 0xfffffff6 r4]),
      (loop, [.mov r0 r5, .add r4 r5, .beq r5 end_loop, .ldx r1 r0 r3, .add r3 r2, .inc r0, .br loop]),
      (end_loop, [.ldi (addr sWord) r1, .st r2 0 r1, .st r0 1 r1, .halt])]
  lo := 0x100
  hi := 0x132
  hi_le := by decide
  fits := by decide

/-- The ten copies of the loop's body. -/
def Unrolled.copies : List Ins := (List.replicate 10 [.ldx r1 r0 r3, .add r3 r2, .inc r0]).flatten

/-- `S5a-loop-unrolled.s`. -/
def Unrolled.program : Program where
  code :=
    [(0x100, [.ldi 0 r0, .ldi (addr aWord) r1, .ldi 0 r2] ++ copies ++
      [.ldi (addr sWord) r0, .st r2 0 r0, .halt])]
  lo := 0x100
  hi := 0x158
  hi_le := by decide
  fits := by decide

variable (mem : ℕ → BitVec 32) {x : Registers} {k : ℕ}

/-- The sum of the first `k` words of `a`. -/
def partialSum (k : ℕ) : BitVec 32 := ((List.range k).map fun j => mem (aWord + j)).sum

theorem partialSum_succ (k : ℕ) : mem (aWord + k) + partialSum mem k = partialSum mem (k + 1) := by
  rw [partialSum, partialSum, List.range_succ, List.map_append, List.sum_append, List.map_singleton,
    List.sum_singleton, BitVec.add_comm]

/-- What both programs keep in registers. -/
structure Summed (k : ℕ) (x : Registers) : Prop where
  r0 : x.r0 = BitVec.ofNat 32 k
  r1 : x.r1 = addr aWord
  r2 : x.r2 = partialSum mem k

theorem inBounds (hk : k < 10) : aWord + k < memSize / 4 := by
  unfold aWord memSize
  omega

/-! ## The loop -/

namespace Looping

theorem start_runs (x : Registers) : ∃ x', Summed mem 0 x' ∧ x'.r4 = -BitVec.ofNat 32 10 ∧
    program.Runs ⟨0x100, x, mem⟩ ⟨loop, x', mem⟩ := by
  obtain ⟨r0, r1, r2, r3, r4, r5, r6, r7⟩ := x
  refine ⟨⟨0, addr aWord, 0, r3, 0xfffffff6, r5, r6, r7⟩, ⟨rfl, rfl, rfl⟩, rfl, ?_⟩
  exact .steps 4 _ rfl (.refl _)

theorem turn_runs (hk : k < 10) (hx : Summed mem k x) (h4 : x.r4 = -BitVec.ofNat 32 10) :
    ∃ x', Summed mem (k + 1) x' ∧ x'.r4 = -BitVec.ofNat 32 10 ∧
      program.Runs ⟨loop, x, mem⟩ ⟨loop, x', mem⟩ := by
  obtain ⟨r0, r1, r2, r3, r4, r5, r6, r7⟩ := x
  obtain ⟨rfl, rfl, rfl⟩ := hx
  obtain rfl : r4 = -BitVec.ofNat 32 10 := h4
  have hmore : -BitVec.ofNat 32 10 + BitVec.ofNat 32 k ≠ 0 := fun h =>
    absurd ((neg_add_eq_zero (le_of_lt hk) (by decide)).mp h) (ne_of_lt hk)
  -- what changes from one instruction to the next
  let state (pc : ℕ) (r3 r5 : BitVec 32) : Core :=
    ⟨pc, ⟨BitVec.ofNat 32 k, addr aWord, partialSum mem k, r3, -BitVec.ofNat 32 10, r5, r6, r7⟩, mem⟩
  let a := mem (aWord + k)
  refine ⟨⟨BitVec.ofNat 32 k + 1, addr aWord, a + partialSum mem k, a, -BitVec.ofNat 32 10,
    -BitVec.ofNat 32 10 + BitVec.ofNat 32 k, r6, r7⟩,
    ⟨ofNat_inc k, rfl, partialSum_succ mem k⟩, rfl, ?_⟩
  refine .steps 2 (state 0x11c r3 (-BitVec.ofNat 32 10 + BitVec.ofNat 32 k)) rfl ?_
  refine .beq_next rfl hmore ?_
  refine .ldx (state 0x120 a (-BitVec.ofNat 32 10 + BitVec.ofNat 32 k)) rfl rfl rfl (inBounds hk)
    rfl rfl ?_
  exact .steps 3 _ rfl (.refl _)

/-- **The loop**, with `count` words to go. -/
theorem loop_runs (count : ℕ) (hk : k + count = 10) (hx : Summed mem k x)
    (h4 : x.r4 = -BitVec.ofNat 32 10) :
    ∃ x', Summed mem 10 x' ∧ program.Runs ⟨loop, x, mem⟩ ⟨end_loop, x', mem⟩ := by
  induction count generalizing k x with
  | zero =>
    obtain rfl : k = 10 := hk
    obtain ⟨r0, r1, r2, r3, r4, r5, r6, r7⟩ := x
    obtain ⟨rfl, rfl, rfl⟩ := hx
    obtain rfl : r4 = -BitVec.ofNat 32 10 := h4
    refine ⟨⟨BitVec.ofNat 32 10, addr aWord, partialSum mem 10, r3, -BitVec.ofNat 32 10,
      -BitVec.ofNat 32 10 + BitVec.ofNat 32 10, r6, r7⟩, ⟨rfl, rfl, rfl⟩, ?_⟩
    refine .steps 2 ⟨0x11c, _, _⟩ rfl ?_
    exact .beq_taken rfl ((neg_add_eq_zero (le_refl 10) (by decide)).mpr rfl) (.refl _)
  | succ count ih =>
    obtain ⟨x₁, hx₁, h4₁, h₁⟩ := turn_runs mem (by omega) hx h4
    obtain ⟨x₂, hx₂, h₂⟩ := ih (by omega) hx₁ h4₁
    exact ⟨x₂, hx₂, h₁.trans h₂⟩

theorem end_runs (hx : Summed mem 10 x) : ∃ x', program.Runs ⟨end_loop, x, mem⟩
    ⟨0x130, x', Function.update (Function.update mem sWord (partialSum mem 10)) iWord 10⟩ := by
  obtain ⟨r0, r1, r2, r3, r4, r5, r6, r7⟩ := x
  obtain ⟨rfl, rfl, rfl⟩ := hx
  refine ⟨⟨BitVec.ofNat 32 10, addr sWord, partialSum mem 10, r3, r4, r5, r6, r7⟩, ?_⟩
  refine .steps 1 ⟨0x12c, _, _⟩ rfl ?_
  refine .st _ rfl rfl (by decide) (by decide) rfl ?_
  exact .st _ rfl rfl (by decide) (by decide) rfl (.refl _)

theorem program_runs (x : Registers) : ∃ x', program.Runs ⟨0x100, x, mem⟩
    ⟨0x130, x', Function.update (Function.update mem sWord (partialSum mem 10)) iWord 10⟩ := by
  obtain ⟨x₁, hx₁, h4, h₁⟩ := start_runs mem x
  obtain ⟨x₂, hx₂, h₂⟩ := loop_runs mem 10 rfl hx₁ h4
  obtain ⟨x₃, h₃⟩ := end_runs mem hx₂
  exact ⟨x₃, h₁.trans (h₂.trans h₃)⟩

end Looping

/-! ## The unrolled loop -/

namespace Unrolled

/-- Where the copy for word `k` begins. -/
def copy (k : ℕ) : ℕ := 0x112 + 6 * k

theorem ins_copy : ∀ k < 10, program.ins (copy k) = some (.ldx r1 r0 r3) ∧
    program.ins (copy k + 2) = some (.add r3 r2) ∧ program.ins (copy k + 4) = some (.inc r0) := by
  decide

theorem start_runs (x : Registers) : ∃ x', Summed mem 0 x' ∧
    program.Runs ⟨0x100, x, mem⟩ ⟨copy 0, x', mem⟩ := by
  obtain ⟨r0, r1, r2, r3, r4, r5, r6, r7⟩ := x
  refine ⟨⟨0, addr aWord, 0, r3, r4, r5, r6, r7⟩, ⟨rfl, rfl, rfl⟩, ?_⟩
  exact .steps 3 _ rfl (.refl _)

theorem turn_runs (hk : k < 10) (hx : Summed mem k x) : ∃ x', Summed mem (k + 1) x' ∧
    program.Runs ⟨copy k, x, mem⟩ ⟨copy (k + 1), x', mem⟩ := by
  obtain ⟨r0, r1, r2, r3, r4, r5, r6, r7⟩ := x
  obtain ⟨rfl, rfl, rfl⟩ := hx
  obtain ⟨hload, hadd, hinc⟩ := ins_copy k hk
  let a := mem (aWord + k)
  let state (pc : ℕ) (r0 r2 : BitVec 32) : Core := ⟨pc, ⟨r0, addr aWord, r2, a, r4, r5, r6, r7⟩, mem⟩
  refine ⟨⟨BitVec.ofNat 32 k + 1, addr aWord, a + partialSum mem k, a, r4, r5, r6, r7⟩,
    ⟨ofNat_inc k, rfl, partialSum_succ mem k⟩, ?_⟩
  refine .ldx (state (copy k + 2) (BitVec.ofNat 32 k) (partialSum mem k)) hload rfl rfl (inBounds hk)
    rfl rfl ?_
  refine .ins (state (copy k + 4) (BitVec.ofNat 32 k) (a + partialSum mem k)) hadd rfl ?_
  exact .ins _ hinc rfl (.refl _)

/-- **The copies**, with `count` of them to go. -/
theorem copies_run (count : ℕ) (hk : k + count = 10) (hx : Summed mem k x) :
    ∃ x', Summed mem 10 x' ∧ program.Runs ⟨copy k, x, mem⟩ ⟨copy 10, x', mem⟩ := by
  induction count generalizing k x with
  | zero =>
    obtain rfl : k = 10 := hk
    exact ⟨x, hx, .refl _⟩
  | succ count ih =>
    obtain ⟨x₁, hx₁, h₁⟩ := turn_runs mem (by omega) hx
    obtain ⟨x₂, hx₂, h₂⟩ := ih (by omega) hx₁
    exact ⟨x₂, hx₂, h₁.trans h₂⟩

theorem program_runs (x : Registers) : ∃ x', program.Runs ⟨0x100, x, mem⟩
    ⟨0x156, x', Function.update mem sWord (partialSum mem 10)⟩ := by
  obtain ⟨x₁, hx₁, h₁⟩ := start_runs mem x
  obtain ⟨x₂, hx₂, h₂⟩ := copies_run mem 10 rfl hx₁
  obtain ⟨r0, r1, r2, r3, r4, r5, r6, r7⟩ := x₂
  obtain ⟨rfl, rfl, rfl⟩ := hx₂
  refine ⟨⟨addr sWord, addr aWord, partialSum mem 10, r3, r4, r5, r6, r7⟩, h₁.trans (h₂.trans ?_)⟩
  refine .steps 1 ⟨0x154, _, _⟩ rfl ?_
  exact .st _ rfl rfl (by decide) (by decide) rfl (.refl _)

end Unrolled

/-! ## In the simulator -/

variable {W : Type}

/-- **The unrolled loop agrees with the loop**: both programs halt, with the same sum in `s`, and
write nothing but `s`, and the loop `i`. -/
theorem unrolled_agrees (ext : Externals memSize W) (m m' : Machine memSize W)
    (hpc : m.pc = 0x100) (hpc' : m'.pc = 0x100)
    (hcode : Loaded Looping.program m.mem) (hcode' : Loaded Unrolled.program m'.mem)
    (ha : ∀ k < 10, word m'.mem (aWord + k) = word m.mem (aWord + k)) :
    ∃ n n', Switch.Compute ext m n ∧ Switch.Compute ext m' n' ∧
      word n.mem = Function.update (Function.update (word m.mem) sWord
        (partialSum (word m.mem) 10)) iWord 10 ∧
      word n'.mem = Function.update (word m'.mem) sWord (partialSum (word m.mem) 10) := by
  have hsum : partialSum (word m'.mem) 10 = partialSum (word m.mem) 10 := by
    unfold partialSum
    exact congrArg List.sum (List.map_congr_left fun k hk => ha k (List.mem_range.mp hk))
  obtain ⟨n, hn, hmem⟩ := Program.computes ext hpc hcode (Looping.program_runs (word m.mem)) rfl
  obtain ⟨n', hn', hmem'⟩ := Program.computes ext hpc' hcode' (Unrolled.program_runs (word m'.mem)) rfl
  rw [hsum] at hmem'
  exact ⟨n, n', hn, hn', hmem, hmem'⟩

/-- The machine with a program, and the words of the files from `a` on. -/
def machineWith (P : Program) (ws : List (BitVec 32)) : Machine memSize Unit :=
  { Machine.initial () with
    pc := 0x100
    mem := P.image fun k => if k < aWord then 0 else ws.getD (k - aWord) 0 }

/-- The numbers of the files. -/
def fileNumbers : List (BitVec 32) := [2, 4, 6, 8, 10, 12, 14, 16, 18, 20]

theorem unrolled_agrees_files : ∃ n n',
    Switch.Compute noCalls (machineWith Looping.program fileNumbers) n ∧
    Switch.Compute noCalls (machineWith Unrolled.program fileNumbers) n' ∧
    word n.mem sWord = 110 ∧ word n'.mem sWord = 110 := by
  obtain ⟨n, n', hn, hn', hmem, hmem'⟩ := unrolled_agrees noCalls
    (machineWith Looping.program fileNumbers) (machineWith Unrolled.program fileNumbers)
    rfl rfl (by decide +kernel) (by decide +kernel) (by decide +kernel)
  have hsum : partialSum (word (machineWith Looping.program fileNumbers).mem) 10 = 110 := by
    decide +kernel
  refine ⟨n, n', hn, hn', ?_, ?_⟩
  · rw [hmem, Function.update_of_ne (by decide), Function.update_self, hsum]
  · rw [hmem', Function.update_self, hsum]

end IntroSystems.SM213.Sums
