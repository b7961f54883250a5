import IntroSystems.Lib.Loop
import IntroSystems.SM213.CMachine

/-!
# The simulator with switches

`fetch`, `exec` and `compute` of `sm.c`. The inner switch, on the function of an ALU instruction,
is `execAlu`.
-/

set_option autoImplicit false

namespace IntroSystems.SM213.Switch

variable {n : ℕ} {W : Type}

/-- The switch of `fetch`. -/
def fetchSwitch (m : Machine n W) : Option (Machine n W) :=
  match m.insOpCode.toNat with
  | 0x0 | 0xb => fetchExt m
  | _ => some m

def fetch (m : Machine n W) : Option (Machine n W) := do fetchSwitch (← decode m)

theorem fetchSwitch_of_eq {m : Machine n W} (h : m.insOpCode.toNat = 0x0 ∨ m.insOpCode.toNat = 0xb) :
    fetchSwitch m = fetchExt m := by
  unfold fetchSwitch
  rcases h with h | h
  · rw [h]
    rfl
  · rw [h]
    rfl

theorem fetchSwitch_of_ne {m : Machine n W}
    (h : ¬ (m.insOpCode.toNat = 0x0 ∨ m.insOpCode.toNat = 0xb)) : fetchSwitch m = some m := by
  unfold fetchSwitch
  split
  · exact absurd (.inl (by assumption)) h
  · exact absurd (.inr (by assumption)) h
  · rfl

def execAlu (m : Machine n W) : Option (Machine n W) :=
  match m.insOp0.toNat with
  | 0x0 => do m.setReg m.insOp2 (← m.getReg m.insOp1)
  | 0x1 => do m.setReg m.insOp2 ((← m.getReg m.insOp1) + (← m.getReg m.insOp2))
  | 0x2 => do m.setReg m.insOp2 ((← m.getReg m.insOp1) &&& (← m.getReg m.insOp2))
  | 0x3 => do m.setReg m.insOp2 ((← m.getReg m.insOp2) + 1)
  | 0x4 => do m.setReg m.insOp2 ((← m.getReg m.insOp2) + 4)
  | 0x5 => do m.setReg m.insOp2 ((← m.getReg m.insOp2) - 1)
  | 0x6 => do m.setReg m.insOp2 ((← m.getReg m.insOp2) - 4)
  | 0x7 => do m.setReg m.insOp2 (~~~(← m.getReg m.insOp2))
  | 0xf => m.setReg m.insOp2 (m.pc + (m.insOp1.setWidth 32 <<< 1))
  | _ => some (m.printf "Illegal ALU instruction: pc=0x%x fun=0x%x\n"
      [.int m.pc, .int (m.insOp0.setWidth 32)])

def exec (ext : Externals n W) (m : Machine n W) : Option (Outcome n W) :=
  match m.insOpCode.toNat with
  | 0x0 => goOn (m.setReg m.insOp0 m.insOpExt)
  | 0x1 => goOn do
    let addr := (m.insOp0.setWidth 32 <<< 2) + (← m.getReg m.insOp1)
    m.setReg m.insOp2 (← load m.mem addr)
  | 0x2 => goOn do
    let addr := (← m.getReg m.insOp0) + ((← m.getReg m.insOp1) <<< 2)
    m.setReg m.insOp2 (← load m.mem addr)
  | 0x3 => goOn do
    let addr := (m.insOp1.setWidth 32 <<< 2) + (← m.getReg m.insOp2)
    m.setWord addr (← m.getReg m.insOp0)
  | 0x4 => goOn do
    let addr := (← m.getReg m.insOp1) + ((← m.getReg m.insOp2) <<< 2)
    m.setWord addr (← m.getReg m.insOp0)
  | 0x6 => goOn (execAlu m)
  | 0x7 => goOn do
    let r ← m.getReg m.insOp0
    if 0 < m.insOpImm.toInt then
      m.setReg m.insOp0 (← shl r m.insOpImm)
    else
      m.setReg m.insOp0 (← shr r m.insOpImm)
  | 0x8 => goOn (some (m.branch m.insOpImm))
  | 0x9 => goOn do
    let r ← m.getReg m.insOp0
    some (if r = 0 then m.branch m.insOpImm else m)
  | 0xa => goOn do
    let r ← m.getReg m.insOp0
    some (if 0 < r.toInt then m.branch m.insOpImm else m)
  | 0xb => goOn (some { m with pc := m.insOpExt })
  | 0xc => goOn do
    let r ← m.getReg m.insOp0
    some { m with pc := jumpOffset m.insOpImm + r }
  | 0xf =>
    if m.insOp0 = 0 then some (m, false)
    else if m.insOp0 = 1 then goOn (sys ext m)
    else goOn (some m)
  | _ => goOn (some (m.printf "Illegal  instruction: pc=0x%x opCode=0x%x\n"
      [.int m.pc, .int (m.insOpCode.setWidth 32)]))

/-- The body of the loop in `compute`. -/
def cycle (ext : Externals n W) : Loop.Body (Machine n W) := fun m => do exec ext (← fetch m)

/-- `compute`, entered in `m`, returns in `m'`. -/
def Compute (ext : Externals n W) (m m' : Machine n W) : Prop := Loop.Stops (cycle ext) m m'

end IntroSystems.SM213.Switch
