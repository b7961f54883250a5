import IntroSystems.SM213.Java

/-!
# The CPU of assignment 6

`execute` of `a6/CPU.java`.
-/

set_option autoImplicit false

namespace IntroSystems.SM213.Java.A6

variable {n : ℕ}

/-- The inner switch, on the function of an ALU instruction. -/
def executeAlu (B : Base n) (s : CPU n) : Except Exn (CPU n) :=
  match s.insOp0.toNat with
  | 0x0 => do s.setReg B s.insOp2.toNat (← s.getReg B s.insOp1.toNat)
  | 0x1 => do
    s.setReg B s.insOp2.toNat ((← s.getReg B s.insOp1.toNat) + (← s.getReg B s.insOp2.toNat))
  | 0x2 => do
    s.setReg B s.insOp2.toNat ((← s.getReg B s.insOp1.toNat) &&& (← s.getReg B s.insOp2.toNat))
  | 0x3 => do s.setReg B s.insOp2.toNat ((← s.getReg B s.insOp2.toNat) + 1)
  | 0x4 => do s.setReg B s.insOp2.toNat ((← s.getReg B s.insOp2.toNat) + 4)
  | 0x5 => do s.setReg B s.insOp2.toNat ((← s.getReg B s.insOp2.toNat) - 1)
  | 0x6 => do s.setReg B s.insOp2.toNat ((← s.getReg B s.insOp2.toNat) - 4)
  | 0x7 => do s.setReg B s.insOp2.toNat (~~~(← s.getReg B s.insOp2.toNat))
  | 0xf => s.setReg B s.insOp2.toNat (s.pc + (s.insOp1.setWidth 32 <<< 1))
  | _ => .error .invalidInstruction

def execute (B : Base n) (s : CPU n) : Except Exn (CPU n) :=
  match s.insOpCode.toNat with
  | 0x0 => s.setReg B s.insOp0.toNat s.insOpExt
  | 0x1 => do
    let a := (s.insOp0.setWidth 32 <<< 2) + (← s.getReg B s.insOp1.toNat)
    s.setReg B s.insOp2.toNat (← s.readInteger B a)
  | 0x2 => do
    let a := (← s.getReg B s.insOp0.toNat) + ((← s.getReg B s.insOp1.toNat) <<< 2)
    s.setReg B s.insOp2.toNat (← s.readInteger B a)
  | 0x3 => do
    let a := (s.insOp1.setWidth 32 <<< 2) + (← s.getReg B s.insOp2.toNat)
    s.writeInteger B a (← s.getReg B s.insOp0.toNat)
  | 0x4 => do
    let a := (← s.getReg B s.insOp1.toNat) + ((← s.getReg B s.insOp2.toNat) <<< 2)
    s.writeInteger B a (← s.getReg B s.insOp0.toNat)
  | 0x6 => executeAlu B s
  | 0x7 => do
    let r ← s.getReg B s.insOp0.toNat
    if 0 < s.insOpImm.toInt then
      s.setReg B s.insOp0.toNat (shl r (s.insOpImm.signExtend 32))
    else
      s.setReg B s.insOp0.toNat (shr r (-s.insOpImm.signExtend 32))
  | 0x8 => .ok (s.branch (s.insOpImm.signExtend 32))
  | 0x9 => do
    let r ← s.getReg B s.insOp0.toNat
    .ok (if r = 0 then s.branch (s.insOpImm.signExtend 32) else s)
  | 0xa => do
    let r ← s.getReg B s.insOp0.toNat
    .ok (if 0 < r.toInt then s.branch (s.insOpImm.signExtend 32) else s)
  | 0xb => .ok { s with pc := s.insOpExt }
  | 0xc => do
    let r ← s.getReg B s.insOp0.toNat
    .ok { s with pc := r + (s.insOpImm.setWidth 32 <<< 1) }
  | 0xf => if s.insOp0 = 0 then .error .machineHalt else .ok s
  | _ => .error .invalidInstruction

end IntroSystems.SM213.Java.A6
