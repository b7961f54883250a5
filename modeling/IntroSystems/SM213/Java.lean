import IntroSystems.SM213.MainMemory

/-!
# The Simple Machine in Java

The CPU classes of assignments 2 and 6 extend classes of the simulator. What they call there is a
parameter.

* `Base`: the calls; `Base.Documented`: what the simulator promises of them.
* `Base.student`: the memory of `MainMemory.java`, which keeps the promise (`student_documented`).
* `CPU`, `fetch`, `cycle`: the registers of a CPU, its fetch stage, and a cycle around an execution
  stage; `outcome`: what a cycle shows.
-/

set_option autoImplicit false

namespace IntroSystems.SM213.Java

/-- What an instruction can throw. -/
inductive Exn
  | memory (e : MemoryExn)
  | invalidRegisterNumber
  | invalidInstruction
  | machineHalt
  deriving DecidableEq

/-- `get` and `set` of `RegisterSet`, where `none` is an `InvalidRegisterNumberException`, and the
methods of `AbstractMainMemory`. -/
structure Base (n : ℕ) where
  getReg : Regs → ℕ → Option (BitVec 32)
  setReg : Regs → ℕ → BitVec 32 → Option Regs
  read : Memory n → BitVec 32 → ℕ → Except MemoryExn (List (BitVec 8))
  readInteger : Memory n → BitVec 32 → Except MemoryExn (BitVec 32)
  readIntegerUnaligned : Memory n → BitVec 32 → Except MemoryExn (BitVec 32)
  writeInteger : Memory n → BitVec 32 → BitVec 32 → Except MemoryExn (Memory n)

open MainMemory

variable {n : ℕ}

/-- `v` is the integer at `a`. -/
def IntegerAt (m : Memory n) (a v : BitVec 32) : Prop :=
  ∃ b0 b1 b2 b3, m.bytes a 4 = some [b0, b1, b2, b3] ∧ v = bytesToInteger b0 b1 b2 b3

/-- **The documented behaviour of the base classes**: eight registers, and big-endian integers,
which `readInteger` and `writeInteger` want aligned. -/
structure Base.Documented (B : Base n) : Prop where
  getReg : ∀ r i, B.getReg r i = r.get i
  setReg : ∀ r i v, B.setReg r i v = r.set i v
  read : ∀ {m a l bs}, B.read m a l = .ok bs → m.bytes a l = some bs
  readInteger : ∀ {m a v}, B.readInteger m a = .ok v → isAccessAligned a 4 ∧ IntegerAt m a v
  readIntegerUnaligned : ∀ {m a v}, B.readIntegerUnaligned m a = .ok v → IntegerAt m a v
  writeInteger : ∀ {m a v m'}, B.writeInteger m a v = .ok m' →
    isAccessAligned a 4 ∧ m.setBytes a (integerToBytes v) = some m'

/-- The registers of a CPU and its memory. -/
structure CPU (n : ℕ) where
  reg : Regs
  mem : Memory n
  pc : BitVec 32
  insOpCode : BitVec 4
  insOp0 : BitVec 4
  insOp1 : BitVec 4
  insOp2 : BitVec 4
  insOpImm : BitVec 8
  insOpExt : BitVec 32

/-- An access to memory inside an instruction. -/
def memory {α : Type} : Except MemoryExn α → Except Exn α
  | .ok x => .ok x
  | .error e => .error (.memory e)

/-- An access to a register. -/
def register {α : Type} : Option α → Except Exn α
  | some x => .ok x
  | none => .error .invalidRegisterNumber

namespace CPU

/-- `reg.get (i)`. -/
def getReg (B : Base n) (s : CPU n) (i : ℕ) : Except Exn (BitVec 32) := register (B.getReg s.reg i)

/-- `reg.set (i, v)`. -/
def setReg (B : Base n) (s : CPU n) (i : ℕ) (v : BitVec 32) : Except Exn (CPU n) := do
  let reg ← register (B.setReg s.reg i v)
  .ok { s with reg }

/-- `mem.readInteger (a)`. -/
def readInteger (B : Base n) (s : CPU n) (a : BitVec 32) : Except Exn (BitVec 32) :=
  memory (B.readInteger s.mem a)

/-- `mem.writeInteger (a, v)`. -/
def writeInteger (B : Base n) (s : CPU n) (a v : BitVec 32) : Except Exn (CPU n) := do
  let mem ← memory (B.writeInteger s.mem a v)
  .ok { s with mem }

/-- `pc.set (pc.get() + k*2)`. -/
def branch (s : CPU n) (k : BitVec 32) : CPU n := { s with pc := s.pc + k * 2 }

end CPU

/-- `r << k`: Java takes the last five bits of `k`. -/
def shl (r k : BitVec 32) : BitVec 32 := r <<< (k &&& 31).toNat

/-- `r >> k`. -/
def shr (r k : BitVec 32) : BitVec 32 := r.sshiftRight (k &&& 31).toNat

/-- The assignments of `fetch` to the fields of an instruction. -/
def decode (s : CPU n) (ins0 ins1 : BitVec 8) : CPU n :=
  { s with
    insOpCode := (ins0 >>> 4).setWidth 4
    insOp0 := (ins0 &&& 0x0f).setWidth 4
    insOp1 := (ins1 >>> 4).setWidth 4
    insOp2 := (ins1 &&& 0x0f).setWidth 4
    insOpImm := ins1 }

/-- The rest of `fetch`, from `pcVal += 2` on. -/
def fetchExt (B : Base n) (s : CPU n) : Except Exn (CPU n) :=
  let pcVal := s.pc + 2
  match s.insOpCode.toNat with
  | 0x0 | 0xb => do
    let opExt ← memory (B.readIntegerUnaligned s.mem pcVal)
    .ok { s with insOpExt := opExt, pc := pcVal + 4 }
  | _ => .ok { s with insOpExt := 0, pc := pcVal }

/-- `fetch`, the same in both CPUs. -/
def fetch (B : Base n) (s : CPU n) : Except Exn (CPU n) := do
  let ins ← memory (B.read s.mem s.pc 2)
  let ins0 ← memory (checked ins[0]?)
  let ins1 ← memory (checked ins[1]?)
  fetchExt B (decode s ins0 ins1)

/-- What a cycle comes to that fetched into `s`. The flag is false when the execution stage throws
`MachineHaltException`. -/
def finish (s : CPU n) : Except Exn (CPU n) → Except Exn (CPU n × Bool)
  | .ok s' => .ok (s', true)
  | .error .machineHalt => .ok (s, false)
  | .error e => .error e

/-- A cycle: the fetch stage, and the execution stage of one of the CPUs. -/
def cycle (execute : Base n → CPU n → Except Exn (CPU n)) (B : Base n) (s : CPU n) :
    Except Exn (CPU n × Bool) := do
  let s ← fetch B s
  finish s (execute B s)

/-- What a cycle shows: registers, memory, pc and whether the machine goes on, or the exception. -/
def outcome : Except Exn (CPU n × Bool) → Except Exn (Regs × Memory n × BitVec 32 × Bool)
  | .ok (s, cont) => .ok (s.reg, s.mem, s.pc, cont)
  | .error e => .error e

theorem toNat_high (b : BitVec 8) : ((b >>> 4).setWidth 4).toNat = (b >>> 4).toNat := by
  rw [BitVec.toNat_setWidth, BitVec.toNat_ushiftRight, Nat.shiftRight_eq_div_pow]
  have := b.isLt
  exact Nat.mod_eq_of_lt (by omega)

theorem toNat_low (b : BitVec 8) : ((b &&& 0xf).setWidth 4).toNat = (b &&& 0xf).toNat := by
  rw [BitVec.toNat_setWidth]
  apply Nat.mod_eq_of_lt
  rw [BitVec.toNat_and]
  exact Nat.and_lt_two_pow _ (by decide)

theorem fetch_of_read {B : Base n} {s : CPU n} {b0 b1 : BitVec 8}
    (h : B.read s.mem s.pc 2 = .ok [b0, b1]) : fetch B s = fetchExt B (decode s b0 b1) := by
  rw [fetch, h]
  rfl

theorem fetchExt_of_eq (B : Base n) {s : CPU n}
    (h : s.insOpCode.toNat = 0x0 ∨ s.insOpCode.toNat = 0xb) : fetchExt B s = (do
      let opExt ← memory (B.readIntegerUnaligned s.mem (s.pc + 2))
      .ok { s with insOpExt := opExt, pc := s.pc + 2 + 4 }) := by
  unfold fetchExt
  rcases h with h | h
  · rw [h]
    rfl
  · rw [h]
    rfl

theorem fetchExt_of_ne (B : Base n) {s : CPU n}
    (h : ¬ (s.insOpCode.toNat = 0x0 ∨ s.insOpCode.toNat = 0xb)) :
    fetchExt B s = .ok { s with insOpExt := 0, pc := s.pc + 2 } := by
  unfold fetchExt
  split
  · exact absurd (.inl (by assumption)) h
  · exact absurd (.inr (by assumption)) h
  · rfl

theorem fetchExt_insOp {B : Base n} {s s' : CPU n} (h : fetchExt B s = .ok s') :
    s'.insOpCode = s.insOpCode ∧ s'.insOp0 = s.insOp0 ∧ s'.insOpImm = s.insOpImm := by
  unfold fetchExt at h
  split at h
  iterate 2
    cases hext : B.readIntegerUnaligned s.mem (s.pc + 2) with
    | error e =>
      simp only [hext] at h
      cases h
    | ok opExt =>
      simp only [hext] at h
      cases h
      exact ⟨rfl, rfl, rfl⟩
  · cases h
    exact ⟨rfl, rfl, rfl⟩

/-! ## The memory of assignment 2 -/

/-- The integer of four bytes. -/
def toInteger : List (BitVec 8) → Except MemoryExn (BitVec 32)
  | [b0, b1, b2, b3] => .ok (bytesToInteger b0 b1 b2 b3)
  | _ => .error .arrayIndexOutOfBounds

/-- The base classes around `MainMemory.java`. -/
def Base.student (n : ℕ) : Base n where
  getReg := Regs.get
  setReg := Regs.set
  read := MainMemory.get
  readInteger m a :=
    if isAccessAligned a 4 then do toInteger (← MainMemory.get m a 4) else .error .invalidAddress
  readIntegerUnaligned m a := do toInteger (← MainMemory.get m a 4)
  writeInteger m a v :=
    if isAccessAligned a 4 then MainMemory.set m a (integerToBytes v) else .error .invalidAddress

theorem integerAt_of_toInteger {m : Memory n} {a v : BitVec 32}
    (h : (do toInteger (← MainMemory.get m a 4)) = .ok v) : IntegerAt m a v := by
  cases hb : MainMemory.get m a 4 with
  | error e =>
    rw [hb] at h
    cases h
  | ok bs =>
    rw [hb] at h
    change toInteger bs = .ok v at h
    unfold toInteger at h
    split at h
    · cases h
      exact ⟨_, _, _, _, bytes_of_get hb, rfl⟩
    · cases h

/-- **`MainMemory.java` keeps the promise.** -/
theorem student_documented (n : ℕ) : (Base.student n).Documented where
  getReg _ _ := rfl
  setReg _ _ _ := rfl
  read := bytes_of_get
  readInteger {m a v} h := by
    change (if isAccessAligned a 4 then do toInteger (← MainMemory.get m a 4) else _) = _ at h
    split at h
    · exact ⟨by assumption, integerAt_of_toInteger h⟩
    · cases h
  readIntegerUnaligned h := integerAt_of_toInteger h
  writeInteger {m a v m'} h := by
    change (if isAccessAligned a 4 then MainMemory.set m a (integerToBytes v) else _) = _ at h
    split at h
    · exact ⟨by assumption, setBytes_of_set h⟩
    · cases h

end IntroSystems.SM213.Java
