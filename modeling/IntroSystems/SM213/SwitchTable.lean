import IntroSystems.SM213.Assembled

/-!
# A switch statement, compiled with a jump table

`SB-switch.s` of assignment 8, and the three functions of `SB-switch.c`.

* `foo`, `foo_using_if`, `foo_using_jumptable`: what each function leaves in `j`.
* `program`: the code; `Table`: the jump table in memory.
* `lower_iff`, `upper_iff`: the comparisons wrap around, but not for a number that both let pass.
* **`switch_agrees`**: for every `i` the program computes what the functions do.
-/

set_option autoImplicit false

namespace IntroSystems.SM213.SwitchTable

open Reg

/-! ## The functions -/

def foo (i : BitVec 32) : BitVec 32 :=
  match i.toInt with
  | 20 => 10
  | 21 => 11
  | 23 => 13
  | _ => 14

def foo_using_if (i : BitVec 32) : BitVec 32 :=
  if i.toInt = 20 then 10
  else if i.toInt = 21 then 11
  else if i.toInt = 22 then 14
  else if i.toInt = 23 then 13
  else 14

/-- The labels of `foo_using_jumptable`. -/
inductive Label
  | L20
  | L21
  | L23
  | DEFAULT
  deriving DecidableEq

def jumpTable : Fin 4 → Label := ![.L20, .L21, .DEFAULT, .L23]

def Label.value : Label → BitVec 32
  | .L20 => 10
  | .L21 => 11
  | .L23 => 13
  | .DEFAULT => 14

/-- An index out of bounds is undefined. -/
def foo_using_jumptable (i : BitVec 32) : Option (BitVec 32) :=
  if i.toInt < 20 ∨ 23 < i.toInt then some Label.DEFAULT.value
  else if h : 0 ≤ i.toInt - 20 ∧ i.toInt - 20 < 4 then
    some (jumpTable ⟨(i.toInt - 20).toNat, by omega⟩).value
  else none

/-! ## The code -/

/-- The globals, and the jump table. -/
def jmptableWord : ℕ := 0x800 / 4
def iWord : ℕ := 0x1000 / 4
def jWord : ℕ := 0x1004 / 4

def l0 : ℕ := 0x114
def cont : ℕ := 0x130
def case20 : ℕ := 0x140
def case21 : ℕ := 0x148
def case23 : ℕ := 0x150
def default : ℕ := 0x158
def done : ℕ := 0x160

def program : Program where
  code :=
    [(0x100, [.ldi (addr iWord) r0, .ld 0 r0 r0, .ldi 0xffffffed r1, .add r0 r1, .bgt r1 l0,
        .br default]),
      (l0, [.ldi 0xffffffe9 r1, .add r0 r1, .bgt r1 default, .ldi 0xffffffec r1, .add r1 r0,
        .ldi (addr jmptableWord) r1, .ldx r1 r0 r1, .jr r1]),
      (cont, [.halt]),
      (case20, [.ldi 0xa r1, .br done]),
      (case21, [.ldi 0xb r1, .br done]),
      (case23, [.ldi 0xd r1, .br done]),
      (default, [.ldi 0xe r1, .br done]),
      (done, [.ldi (addr jWord) r0, .st r1 0 r0, .j cont])]
  lo := 0x100
  hi := 0x16e
  hi_le := by decide
  fits := by decide

def jmptable : List ℕ := [case20, case21, default, case23]

/-- The jump table is in memory. -/
def Table (mem : ℕ → BitVec 32) : Prop :=
  ∀ k < 4, mem (jmptableWord + k) = BitVec.ofNat 32 (jmptable.getD k 0)

/-! ## The runs -/

variable {mem : ℕ → BitVec 32} {x : Registers}

theorem done_runs (mem : ℕ → BitVec 32) (x : Registers) : ∃ x', program.Runs ⟨done, x, mem⟩
    ⟨cont, x', Function.update mem jWord x.r1⟩ := by
  obtain ⟨r0, r1, r2, r3, r4, r5, r6, r7⟩ := x
  refine ⟨⟨addr jWord, r1, r2, r3, r4, r5, r6, r7⟩, ?_⟩
  refine .steps 1 ⟨0x166, _, _⟩ rfl ?_
  refine .st _ rfl rfl (by decide) (by decide) rfl ?_
  exact .steps 1 _ rfl (.refl _)

theorem case_runs (mem : ℕ → BitVec 32) (x : Registers) {l : ℕ} {v : BitVec 32}
    (hload : program.ins l = some (.ldi v r1)) (hbr : program.ins (l + 6) = some (.br done)) :
    ∃ x', program.Runs ⟨l, x, mem⟩ ⟨cont, x', Function.update mem jWord v⟩ := by
  obtain ⟨x', h⟩ := done_runs mem (x.set v .r1)
  refine ⟨x', .ins ⟨l + 6, x.set v .r1, mem⟩ hload rfl ?_⟩
  exact .ins ⟨done, x.set v .r1, mem⟩ hbr rfl h

theorem default_runs (mem : ℕ → BitVec 32) (x : Registers) :
    ∃ x', program.Runs ⟨default, x, mem⟩ ⟨cont, x', Function.update mem jWord 14⟩ :=
  case_runs mem x rfl rfl

theorem label_runs (mem : ℕ → BitVec 32) (x : Registers) : ∀ k : Fin 4, ∃ x',
    program.Runs ⟨jmptable.getD k 0, x, mem⟩ ⟨cont, x', Function.update mem jWord (jumpTable k).value⟩
  | 0 => case_runs mem x rfl rfl
  | 1 => case_runs mem x rfl rfl
  | 2 => case_runs mem x rfl rfl
  | 3 => case_runs mem x rfl rfl

/-! ## The comparisons -/

variable {i : BitVec 32}

theorem toInt_sub_19 (i : BitVec 32) :
    (i + 0xffffffed).toInt = (i.toInt - 19).bmod (2 ^ 32) := by
  rw [BitVec.toInt_add]
  rfl

theorem toInt_sub_23 (i : BitVec 32) :
    (i + 0xffffffe9).toInt = (i.toInt - 23).bmod (2 ^ 32) := by
  rw [BitVec.toInt_add]
  rfl

theorem lower_iff (i : BitVec 32) :
    0 < (i + 0xffffffed).toInt ↔ 20 ≤ i.toInt ∨ i.toInt < -2 ^ 31 + 19 := by
  have h0 := BitVec.le_toInt i
  have h1 := BitVec.toInt_lt (x := i)
  rw [toInt_sub_19, Int.bmod_def]
  omega

theorem upper_iff (i : BitVec 32) :
    0 < (i + 0xffffffe9).toInt ↔ 24 ≤ i.toInt ∨ i.toInt < -2 ^ 31 + 23 := by
  have h0 := BitVec.le_toInt i
  have h1 := BitVec.toInt_lt (x := i)
  rw [toInt_sub_23, Int.bmod_def]
  omega

/-- **Only the four cases come to the jump table**, although the differences may wrap around. -/
theorem exists_case (h1 : 0 < (i + 0xffffffed).toInt) (h2 : ¬0 < (i + 0xffffffe9).toInt) :
    ∃ k : Fin 4, i = BitVec.ofNat 32 (20 + k) := by
  rw [lower_iff] at h1
  rw [upper_iff] at h2
  refine ⟨⟨(i.toInt - 20).toNat, by omega⟩, BitVec.eq_of_toInt_eq ?_⟩
  rw [BitVec.toInt_ofNat', Int.bmod_def]
  push_cast
  omega

theorem foo_of_out (h : i.toInt < 20 ∨ 23 < i.toInt) : foo i = 14 := by
  unfold foo
  split
  · omega
  · omega
  · omega
  · rfl

theorem foo_case : ∀ k : Fin 4, foo (BitVec.ofNat 32 (20 + k)) = (jumpTable k).value := by decide

theorem index_case : ∀ k : Fin 4, 0xffffffec + BitVec.ofNat 32 (20 + k) = BitVec.ofNat 32 k := by
  decide

theorem toNat_label : ∀ k : Fin 4,
    (BitVec.ofNat 32 (jmptable.getD k 0)).toNat = jmptable.getD k 0 := by
  decide

theorem functions_agree (i : BitVec 32) :
    foo_using_if i = foo i ∧ foo_using_jumptable i = some (foo i) := by
  by_cases h : i.toInt < 20 ∨ 23 < i.toInt
  · rw [foo_of_out h]
    refine ⟨?_, if_pos h⟩
    unfold foo_using_if
    split_ifs <;> first | omega | rfl
  · obtain ⟨k, rfl⟩ : ∃ k : Fin 4, i = BitVec.ofNat 32 (20 + k) :=
      exists_case ((lower_iff i).mpr (by omega)) (mt (upper_iff i).mp (by omega))
    rw [foo_case]
    revert k
    decide

/-! ## The program -/

/-- **The code computes what the switch statement does.** -/
theorem program_runs (htable : Table mem) (x : Registers) : ∃ x', program.Runs ⟨0x100, x, mem⟩
    ⟨cont, x', Function.update mem jWord (foo (mem iWord))⟩ := by
  obtain ⟨r0, r1, r2, r3, r4, r5, r6, r7⟩ := x
  -- what changes from one instruction to the next
  let state (pc : ℕ) (r0 r1 : BitVec 32) : Core := ⟨pc, ⟨r0, r1, r2, r3, r4, r5, r6, r7⟩, mem⟩
  let i := mem iWord
  have hload : program.Runs (state 0x100 r0 r1) (state 0x110 i (i + 0xffffffed)) := by
    refine .steps 1 (state 0x106 (addr iWord) r1) rfl ?_
    refine .ld (state 0x108 i r1) rfl rfl (by decide) rfl rfl ?_
    exact .steps 2 _ rfl (.refl _)
  suffices h : ∃ x', program.Runs (state 0x110 i (i + 0xffffffed))
      ⟨cont, x', Function.update mem jWord (foo i)⟩ by
    obtain ⟨x', h⟩ := h
    exact ⟨x', hload.trans h⟩
  by_cases h1 : 0 < (i + 0xffffffed).toInt
  · have hupper : program.Runs (state 0x110 i (i + 0xffffffed)) (state 0x11c i (i + 0xffffffe9)) := by
      refine .bgt_taken rfl h1 ?_
      exact .steps 2 _ rfl (.refl _)
    by_cases h2 : 0 < (i + 0xffffffe9).toInt
    · have hout := (upper_iff i).mp h2
      rw [foo_of_out (by omega)]
      obtain ⟨x', h⟩ := default_runs mem ⟨i, i + 0xffffffe9, r2, r3, r4, r5, r6, r7⟩
      exact ⟨x', hupper.trans (.bgt_taken rfl h2 h)⟩
    · obtain ⟨k, hk⟩ := exists_case h1 h2
      have hindex : 0xffffffec + i = BitVec.ofNat 32 k := by
        rw [hk, index_case]
      have hfoo : foo i = (jumpTable k).value := by
        rw [hk, foo_case]
      rw [hfoo]
      obtain ⟨x', h⟩ := label_runs mem ⟨BitVec.ofNat 32 k, BitVec.ofNat 32 (jmptable.getD k 0),
        r2, r3, r4, r5, r6, r7⟩ k
      refine ⟨x', hupper.trans (.bgt_next rfl h2 ?_)⟩
      refine .steps 3 (state 0x12c (0xffffffec + i) (addr jmptableWord)) rfl ?_
      rw [hindex]
      refine .ldx (state 0x12e (BitVec.ofNat 32 k) (BitVec.ofNat 32 (jmptable.getD k 0))) rfl rfl rfl ?_
        (htable k k.isLt) rfl ?_
      · unfold jmptableWord memSize
        omega
      · refine .step ?_ h
        have hjump : program.step (state 0x12e (BitVec.ofNat 32 k)
            (BitVec.ofNat 32 (jmptable.getD k 0))) = some { state 0x12e (BitVec.ofNat 32 k)
              (BitVec.ofNat 32 (jmptable.getD k 0)) with
              pc := (BitVec.ofNat 32 (jmptable.getD k 0)).toNat } := rfl
        rw [toNat_label] at hjump
        exact hjump
  · have hout := mt (lower_iff i).mpr h1
    rw [foo_of_out (by omega)]
    obtain ⟨x', h⟩ := default_runs mem ⟨i, i + 0xffffffed, r2, r3, r4, r5, r6, r7⟩
    exact ⟨x', .bgt_next rfl h1 (.steps 1 _ rfl h)⟩

/-! ## In the simulator -/

variable {W : Type} {m : Machine memSize W}

/-- **The compiled switch statement agrees with the functions** for every `i`: the program halts with
their value in `j`, and writes nothing else. -/
theorem switch_agrees (ext : Externals memSize W) (hpc : m.pc = 0x100) (hcode : Loaded program m.mem)
    (htable : Table (word m.mem)) :
    (∃ m', Switch.Compute ext m m' ∧
      word m'.mem = Function.update (word m.mem) jWord (foo (word m.mem iWord))) ∧
      foo_using_if (word m.mem iWord) = foo (word m.mem iWord) ∧
      foo_using_jumptable (word m.mem iWord) = some (foo (word m.mem iWord)) :=
  ⟨Program.computes ext hpc hcode (program_runs htable) rfl, functions_agree _⟩

/-- The machine with the program, its jump table, and `i`. -/
def machineWith (i : BitVec 32) : Machine memSize Unit :=
  { Machine.initial () with
    pc := 0x100
    mem := program.image fun k =>
      if k = iWord then i else BitVec.ofNat 32 (jmptable.getD (k - jmptableWord) 0) }

/-- The smallest `i`, for which both differences wrap around. -/
theorem switch_agrees_smallest : ∃ m', Switch.Compute noCalls (machineWith 0x80000000) m' ∧
    word m'.mem jWord = 14 := by
  obtain ⟨⟨m', hm', hmem⟩, -⟩ := switch_agrees noCalls (m := machineWith 0x80000000) rfl
    (by decide +kernel) (by unfold Table; decide +kernel)
  refine ⟨m', hm', ?_⟩
  rw [hmem, Function.update_self]
  decide +kernel

end IntroSystems.SM213.SwitchTable
