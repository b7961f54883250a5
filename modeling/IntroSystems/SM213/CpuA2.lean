import IntroSystems.SM213.CpuA6
import Mathlib.Data.Fin.VecNotation
import Mathlib.Tactic.IntervalCases

/-!
# The CPU of assignment 2

`execute` of `a2/A2code/CPU.java`, a part of the one of assignment 6.

* `Supports`: the instructions it has.
* `execute_eq`: on those, all but opcode 2 are executed as in assignment 6.
* `Scaled`: when opcode 2 is, although the register number is shifted where its content should be.
* `outcome_eq_iff`: exactly then a cycle has the outcome it has in assignment 6.
-/

set_option autoImplicit false

namespace IntroSystems.SM213.Java.A2

variable {n : ℕ}

/-- The inner switch, on the function of an ALU instruction. -/
def executeAlu (B : Base n) (s : CPU n) : Except Exn (CPU n) :=
  match s.insOp0.toNat with
  | 0x0 => do s.setReg B s.insOp2.toNat (← s.getReg B s.insOp1.toNat)
  | 0x1 => do
    s.setReg B s.insOp2.toNat ((← s.getReg B s.insOp1.toNat) + (← s.getReg B s.insOp2.toNat))
  | 0x2 => do
    s.setReg B s.insOp2.toNat ((← s.getReg B s.insOp1.toNat) &&& (← s.getReg B s.insOp2.toNat))
  | 0x3 => do s.setReg B s.insOp2.toNat ((← s.getReg B s.insOp2.toNat) + 1)
  | 0x4 => do s.setReg B s.insOp2.toNat ((← s.getReg B s.insOp2.toNat) + 4)
  | 0x5 => do s.setReg B s.insOp2.toNat ((← s.getReg B s.insOp2.toNat) - 1)
  | 0x6 => do s.setReg B s.insOp2.toNat ((← s.getReg B s.insOp2.toNat) - 4)
  | 0x7 => do s.setReg B s.insOp2.toNat (~~~(← s.getReg B s.insOp2.toNat))
  | _ => .error .invalidInstruction

def execute (B : Base n) (s : CPU n) : Except Exn (CPU n) :=
  match s.insOpCode.toNat with
  | 0x0 => s.setReg B s.insOp0.toNat s.insOpExt
  | 0x1 => do
    let a := (s.insOp0.setWidth 32 <<< 2) + (← s.getReg B s.insOp1.toNat)
    s.setReg B s.insOp2.toNat (← s.readInteger B a)
  | 0x2 => do
    -- the shift is inside `reg.get`
    let a := (← s.getReg B s.insOp0.toNat) + (← s.getReg B (s.insOp1.toNat <<< 2))
    s.setReg B s.insOp2.toNat (← s.readInteger B a)
  | 0x3 => do
    let a := (s.insOp1.setWidth 32 <<< 2) + (← s.getReg B s.insOp2.toNat)
    s.writeInteger B a (← s.getReg B s.insOp0.toNat)
  | 0x4 => do
    let a := (← s.getReg B s.insOp1.toNat) + ((← s.getReg B s.insOp2.toNat) <<< 2)
    s.writeInteger B a (← s.getReg B s.insOp0.toNat)
  | 0x6 => executeAlu B s
  | 0x7 => do
    let r ← s.getReg B s.insOp0.toNat
    if 0 < s.insOpImm.toInt then
      s.setReg B s.insOp0.toNat (shl r (s.insOpImm.signExtend 32))
    else
      s.setReg B s.insOp0.toNat (shr r (-s.insOpImm.signExtend 32))
  | 0xf => if s.insOp0 = 0 then .error .machineHalt else .ok s
  | _ => .error .invalidInstruction

/-- The instructions that `execute` has: their opcodes, and the functions of opcode 6. -/
def Supports (opCode op0 : ℕ) : Prop :=
  opCode ∈ [0x0, 0x1, 0x2, 0x3, 0x4, 0x7, 0xf] ∨ opCode = 0x6 ∧ op0 ≤ 0x7

theorem executeAlu_eq (B : Base n) {s : CPU n} (h : s.insOp0.toNat ≤ 0x7) :
    executeAlu B s = A6.executeAlu B s := by
  unfold executeAlu A6.executeAlu
  generalize s.insOp0.toNat = k at h
  interval_cases k <;> rfl

theorem execute_eq (B : Base n) {s : CPU n} (h : Supports s.insOpCode.toNat s.insOp0.toNat)
    (h2 : s.insOpCode.toNat ≠ 0x2) : execute B s = A6.execute B s := by
  unfold execute A6.execute
  rcases h with h | ⟨h6, h0⟩
  · generalize s.insOpCode.toNat = k at h h2
    simp only [List.mem_cons, List.not_mem_nil, or_false] at h
    rcases h with rfl | rfl | rfl | rfl | rfl | rfl | rfl
    all_goals first | rfl | exact absurd rfl h2
  · rw [h6]
    exact executeAlu_eq B h0

/-! ## Opcode 2 -/

/-- The end of a load from `a` into register `d`. -/
def loadInto (B : Base n) (s : CPU n) (d : ℕ) (a : BitVec 32) : Except Exn (CPU n) := do
  s.setReg B d (← s.readInteger B a)

/-- An integer can be read at `a`. -/
def Readable (B : Base n) (m : Memory n) (a : BitVec 32) : Prop := ∃ v, B.readInteger m a = .ok v

/-- **When opcode 2 is executed right**: if its operands are registers, then the content of the
register that is taken for the index leads to the same integer, or to the same exception. -/
def Scaled (B : Base n) (s : CPU n) (op0 op1 op2 : ℕ) : Prop :=
  ∀ r0 r1, s.reg.get op0 = some r0 → s.reg.get op1 = some r1 →
    match s.reg.get (op1 <<< 2) with
    | some rx =>
      B.readInteger s.mem (r0 + rx) = B.readInteger s.mem (r0 + (r1 <<< 2)) ∨
        8 ≤ op2 ∧ Readable B s.mem (r0 + rx) ∧ Readable B s.mem (r0 + (r1 <<< 2))
    | none => 8 ≤ op2 ∧ Readable B s.mem (r0 + (r1 <<< 2))

section

variable {B : Base n} {s : CPU n} {d : ℕ} {a a' v : BitVec 32}

theorem loadInto_error {e : MemoryExn} (h : B.readInteger s.mem a = .error e) :
    loadInto B s d a = .error (.memory e) := by
  rw [loadInto, CPU.readInteger, h]
  rfl

theorem loadInto_ok (hB : B.Documented) (h : B.readInteger s.mem a = .ok v) (hd : d < 8) :
    loadInto B s d a = .ok { s with reg := Function.update s.reg ⟨d, hd⟩ v } := by
  rw [loadInto, CPU.readInteger, h]
  change CPU.setReg B s d v = _
  rw [CPU.setReg, hB.setReg, Regs.set_of_lt hd]
  rfl

theorem loadInto_invalid (hB : B.Documented) (h : B.readInteger s.mem a = .ok v) (hd : 8 ≤ d) :
    loadInto B s d a = .error .invalidRegisterNumber := by
  rw [loadInto, CPU.readInteger, h]
  change CPU.setReg B s d v = _
  rw [CPU.setReg, hB.setReg, Regs.set_of_le hd]
  rfl

theorem outcome_loadInto_invalid_iff (hB : B.Documented) :
    outcome (finish s (loadInto B s d a)) = .error .invalidRegisterNumber ↔
      8 ≤ d ∧ Readable B s.mem a := by
  cases h : B.readInteger s.mem a with
  | error e => simp [loadInto_error h, finish, outcome, Readable, h]
  | ok v =>
    rcases Nat.lt_or_ge d 8 with hd | hd
    · simp [loadInto_ok hB h hd, finish, outcome, Readable, h, hd]
    · simp [loadInto_invalid hB h hd, finish, outcome, Readable, h, hd]

theorem outcome_loadInto_eq_iff (hB : B.Documented) :
    outcome (finish s (loadInto B s d a)) = outcome (finish s (loadInto B s d a')) ↔
      B.readInteger s.mem a = B.readInteger s.mem a' ∨
        8 ≤ d ∧ Readable B s.mem a ∧ Readable B s.mem a' := by
  have hne (e : MemoryExn) : outcome (n := n) (finish s (.error (.memory e))) ≠
      .error .invalidRegisterNumber := by simp [finish, outcome]
  cases h : B.readInteger s.mem a with
  | error e =>
    cases h' : B.readInteger s.mem a' with
    | error e' => simp [loadInto_error h, loadInto_error h', finish, outcome, Readable, h]
    | ok v' =>
      rcases Nat.lt_or_ge d 8 with hd | hd
      · simp [loadInto_error h, loadInto_ok hB h' hd, finish, outcome, Readable, h]
      · simp [loadInto_error h, loadInto_invalid hB h' hd, finish, outcome, Readable, h]
  | ok v =>
    cases h' : B.readInteger s.mem a' with
    | error e' =>
      rcases Nat.lt_or_ge d 8 with hd | hd
      · simp [loadInto_error h', loadInto_ok hB h hd, finish, outcome, Readable, h']
      · simp [loadInto_error h', loadInto_invalid hB h hd, finish, outcome, Readable, h']
    | ok v' =>
      rcases Nat.lt_or_ge d 8 with hd | hd
      · have hinj := Function.update_injective s.reg (⟨d, hd⟩ : Fin 8)
        simp [loadInto_ok hB h hd, loadInto_ok hB h' hd, finish, outcome, hinj.eq_iff, hd]
      · simp [loadInto_invalid hB h hd, loadInto_invalid hB h' hd, finish, outcome, Readable, h,
          h', hd]

end

/-! ## Cycles -/

/-- Opcode 2, in the two CPUs, up to the load. -/
theorem execute_two (B : Base n) {s : CPU n} (h : s.insOpCode.toNat = 0x2) :
    execute B s = (do
      let r0 ← s.getReg B s.insOp0.toNat
      let rx ← s.getReg B (s.insOp1.toNat <<< 2)
      loadInto B s s.insOp2.toNat (r0 + rx)) := by
  rw [execute, h]
  rfl

theorem execute_two_a6 (B : Base n) {s : CPU n} (h : s.insOpCode.toNat = 0x2) :
    A6.execute B s = (do
      let r0 ← s.getReg B s.insOp0.toNat
      let r1 ← s.getReg B s.insOp1.toNat
      loadInto B s s.insOp2.toNat (r0 + (r1 <<< 2))) := by
  rw [A6.execute, h]
  rfl

theorem getReg_of_get {B : Base n} (hB : B.Documented) {s : CPU n} {i : ℕ} {r : BitVec 32}
    (h : s.reg.get i = some r) : s.getReg B i = .ok r := by
  rw [CPU.getReg, hB.getReg, h]
  rfl

theorem getReg_of_none {B : Base n} (hB : B.Documented) {s : CPU n} {i : ℕ}
    (h : s.reg.get i = none) : s.getReg B i = .error .invalidRegisterNumber := by
  rw [CPU.getReg, hB.getReg, h]
  rfl

/-- **Opcode 2 is executed as in assignment 6 exactly when its index is right.** -/
theorem outcome_two_iff {B : Base n} (hB : B.Documented) {s : CPU n}
    (h : s.insOpCode.toNat = 0x2) :
    outcome (finish s (execute B s)) = outcome (finish s (A6.execute B s)) ↔
      Scaled B s s.insOp0.toNat s.insOp1.toNat s.insOp2.toNat := by
  rw [execute_two B h, execute_two_a6 B h]
  cases h0 : s.reg.get s.insOp0.toNat with
  | none =>
    rw [getReg_of_none hB h0]
    exact iff_of_true rfl (by simp [Scaled, h0])
  | some r0 =>
    rw [getReg_of_get hB h0]
    cases h1 : s.reg.get s.insOp1.toNat with
    | none =>
      have hx : s.reg.get (s.insOp1.toNat <<< 2) = none := by
        rw [Regs.get_eq_none] at h1 ⊢
        rw [Nat.shiftLeft_eq]
        omega
      rw [getReg_of_none hB h1, getReg_of_none hB hx]
      exact iff_of_true rfl (by simp [Scaled, h1])
    | some r1 =>
      rw [getReg_of_get hB h1]
      cases hx : s.reg.get (s.insOp1.toNat <<< 2) with
      | none =>
        rw [getReg_of_none hB hx]
        have hS : Scaled B s s.insOp0.toNat s.insOp1.toNat s.insOp2.toNat ↔
            8 ≤ s.insOp2.toNat ∧ Readable B s.mem (r0 + (r1 <<< 2)) := by
          simp [Scaled, h0, h1, hx]
        rw [hS]
        exact eq_comm.trans (outcome_loadInto_invalid_iff hB)
      | some rx =>
        rw [getReg_of_get hB hx]
        have hS : Scaled B s s.insOp0.toNat s.insOp1.toNat s.insOp2.toNat ↔
            B.readInteger s.mem (r0 + rx) = B.readInteger s.mem (r0 + (r1 <<< 2)) ∨
              8 ≤ s.insOp2.toNat ∧ Readable B s.mem (r0 + rx) ∧
                Readable B s.mem (r0 + (r1 <<< 2)) := by
          simp [Scaled, h0, h1, hx]
        rw [hS]
        exact outcome_loadInto_eq_iff hB

/-- **A cycle has the outcome it has in assignment 6** exactly when the instruction is not opcode 2,
or opcode 2 with the right index. -/
theorem outcome_eq_iff {B : Base n} (hB : B.Documented) {s : CPU n} {b0 b1 : BitVec 8}
    (found : B.read s.mem s.pc 2 = .ok [b0, b1])
    (supports : Supports (b0 >>> 4).toNat (b0 &&& 0xf).toNat) :
    outcome (cycle execute B s) = outcome (cycle A6.execute B s) ↔
      ((b0 >>> 4).toNat = 0x2 →
        Scaled B s (b0 &&& 0xf).toNat (b1 >>> 4).toNat (b1 &&& 0xf).toNat) := by
  have hop : (decode s b0 b1).insOpCode.toNat = (b0 >>> 4).toNat := toNat_high b0
  have hop0 : (decode s b0 b1).insOp0.toNat = (b0 &&& 0xf).toNat := toNat_low b0
  rw [cycle, cycle, fetch_of_read found]
  by_cases h2 : (b0 >>> 4).toNat = 0x2
  · rw [fetchExt_of_ne B (by rw [hop, h2]; decide)]
    have := outcome_two_iff hB (s := { decode s b0 b1 with insOpExt := 0, pc := s.pc + 2 })
      (hop.trans h2)
    rw [imp_iff_right h2, ← toNat_low b0, ← toNat_low b1, ← toNat_high b1]
    exact this
  · refine iff_of_true ?_ fun h => absurd h h2
    cases hf : fetchExt B (decode s b0 b1) with
    | error e => rfl
    | ok s' =>
      obtain ⟨hcode, h0, -⟩ := fetchExt_insOp hf
      have heq : execute B s' = A6.execute B s' := by
        apply execute_eq
        · rwa [hcode, h0, hop, hop0]
        · rwa [hcode, hop]
      change outcome (finish s' (execute B s')) = outcome (finish s' (A6.execute B s'))
      rw [heq]

/-! ## An index that is not scaled -/

/-- `ld (r0, r1, 4), r2` at 0, and the integer 5 at 4. -/
def indexMemory : Memory 8 := ![0x20, 0x12, 0, 0, 0, 0, 0, 5]

/-- Registers with 1 in `r1`. -/
def indexCPU (r4 : BitVec 32) : CPU 8 where
  reg := ![0, 1, 0, 0, r4, 0, 0, 0]
  mem := indexMemory
  pc := 0
  insOpCode := 0
  insOp0 := 0
  insOp1 := 0
  insOp2 := 0
  insOpImm := 0
  insOpExt := 0

/-- The load takes `r4` for the index, and reads the instruction itself. -/
theorem index_not_scaled : ¬ ∀ (s : CPU 8) (b0 b1 : BitVec 8),
    (Base.student 8).read s.mem s.pc 2 = .ok [b0, b1] →
      Supports (b0 >>> 4).toNat (b0 &&& 0xf).toNat →
        outcome (cycle execute (Base.student 8) s) =
          outcome (cycle A6.execute (Base.student 8) s) := by
  intro h
  have h2 := h (indexCPU 0) 0x20 0x12 (by rfl) (by simp [Supports])
  have h5 := congrArg (fun o => o.toOption.map fun x => x.1 2) h2
  revert h5
  decide

/-- With 4 in `r4` the load is right. -/
theorem index_four : outcome (cycle execute (Base.student 8) (indexCPU 4)) =
    outcome (cycle A6.execute (Base.student 8) (indexCPU 4)) := by
  have found : (Base.student 8).read (indexCPU 4).mem (indexCPU 4).pc 2 = .ok [0x20, 0x12] := by
    rfl
  refine (outcome_eq_iff (student_documented 8) found (by simp [Supports])).2 fun _ => ?_
  intro r0 r1 h0 h1
  cases h0
  cases h1
  exact .inl rfl

end IntroSystems.SM213.Java.A2
