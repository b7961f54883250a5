import IntroSystems.SM213.Switch
import Mathlib.Tactic.IntervalCases

/-!
# The simulator with jump tables

`fetch`, `exec` and `compute` of `sm-jt.c`. A label is a function of the machine (and of `cont`
where that is not 1), a `goto` calls it, and a computed `goto` takes it from its table.

* `jumpTable`, `jumpTable2`: the tables of opcodes and of ALU functions.
* `fetch_eq`, `exec_eq`: they do what the switches of `sm.c` do.
* `runs_as_switch`: so the two programs run alike.
-/

set_option autoImplicit false

namespace IntroSystems.SM213.JumpTable

variable {n : ℕ} {W : Type}

/-! ## `fetch` -/

/-- `L20` of `fetch`. -/
def L20 (m : Machine n W) : Option (Machine n W) := fetchExt m

def fetch (m : Machine n W) : Option (Machine n W) := do
  let m ← decode m
  if m.insOpCode = 0x0 ∨ m.insOpCode = 0xb then L20 m else some m

/-! ## `exec` -/

def CONT (m : Machine n W) (cont : Bool) : Option (Outcome n W) := some (m, cont)

def CONT2 (m : Machine n W) : Option (Outcome n W) := CONT m true

/-- `goto *table[i]`. -/
def jump (table : List (Machine n W → Option (Outcome n W))) (i : BitVec 8) (m : Machine n W) :
    Option (Outcome n W) :=
  table[i.toNat]?.bind fun label => label m

def L0 (m : Machine n W) : Option (Outcome n W) := do
  let m ← m.setReg m.insOp0 m.insOpExt
  CONT m true

def L1 (m : Machine n W) : Option (Outcome n W) := do
  let addr := (m.insOp0.setWidth 32 <<< 2) + (← m.getReg m.insOp1)
  let m ← m.setReg m.insOp2 (← load m.mem addr)
  CONT m true

def L2 (m : Machine n W) : Option (Outcome n W) := do
  let addr := (← m.getReg m.insOp0) + ((← m.getReg m.insOp1) <<< 2)
  let m ← m.setReg m.insOp2 (← load m.mem addr)
  CONT m true

def L3 (m : Machine n W) : Option (Outcome n W) := do
  let addr := (m.insOp1.setWidth 32 <<< 2) + (← m.getReg m.insOp2)
  let m ← m.setWord addr (← m.getReg m.insOp0)
  CONT m true

def L4 (m : Machine n W) : Option (Outcome n W) := do
  let addr := (← m.getReg m.insOp1) + ((← m.getReg m.insOp2) <<< 2)
  let m ← m.setWord addr (← m.getReg m.insOp0)
  CONT m true

def L60 (m : Machine n W) : Option (Outcome n W) := do
  let m ← m.setReg m.insOp2 (← m.getReg m.insOp1)
  CONT2 m

def L61 (m : Machine n W) : Option (Outcome n W) := do
  let m ← m.setReg m.insOp2 ((← m.getReg m.insOp1) + (← m.getReg m.insOp2))
  CONT2 m

def L62 (m : Machine n W) : Option (Outcome n W) := do
  let m ← m.setReg m.insOp2 ((← m.getReg m.insOp1) &&& (← m.getReg m.insOp2))
  CONT2 m

def L63 (m : Machine n W) : Option (Outcome n W) := do
  let m ← m.setReg m.insOp2 ((← m.getReg m.insOp2) + 1)
  CONT2 m

def L64 (m : Machine n W) : Option (Outcome n W) := do
  let m ← m.setReg m.insOp2 ((← m.getReg m.insOp2) + 4)
  CONT2 m

def L65 (m : Machine n W) : Option (Outcome n W) := do
  let m ← m.setReg m.insOp2 ((← m.getReg m.insOp2) - 1)
  CONT2 m

def L66 (m : Machine n W) : Option (Outcome n W) := do
  let m ← m.setReg m.insOp2 ((← m.getReg m.insOp2) - 4)
  CONT2 m

def L67 (m : Machine n W) : Option (Outcome n W) := do
  let m ← m.setReg m.insOp2 (~~~(← m.getReg m.insOp2))
  CONT2 m

def L6F (m : Machine n W) : Option (Outcome n W) := do
  let m ← m.setReg m.insOp2 (m.pc + (m.insOp1.setWidth 32 <<< 1))
  CONT2 m

def DEFAULT2 (m : Machine n W) : Option (Outcome n W) :=
  CONT2 (m.printf "Illegal ALU instruction: pc=0x%x fun=0x%x\n"
    [.int m.pc, .int (m.insOp0.setWidth 32)])

def jumpTable2 : List (Machine n W → Option (Outcome n W)) :=
  [L60, L61, L62, L63, L64, L65, L66, L67,
    DEFAULT2, DEFAULT2, DEFAULT2, DEFAULT2, DEFAULT2, DEFAULT2,
    DEFAULT2, L6F]

def L6 (m : Machine n W) : Option (Outcome n W) :=
  if m.insOp0.toNat > 0xf then DEFAULT2 m else jump jumpTable2 m.insOp0 m

def L7 (m : Machine n W) : Option (Outcome n W) := do
  let r ← m.getReg m.insOp0
  if 0 < m.insOpImm.toInt then
    let m ← m.setReg m.insOp0 (← shl r m.insOpImm)
    CONT m true
  else
    let m ← m.setReg m.insOp0 (← shr r m.insOpImm)
    CONT m true

def L8 (m : Machine n W) : Option (Outcome n W) := CONT (m.branch m.insOpImm) true

def L9 (m : Machine n W) : Option (Outcome n W) := do
  let r ← m.getReg m.insOp0
  CONT (if r = 0 then m.branch m.insOpImm else m) true

def LA (m : Machine n W) : Option (Outcome n W) := do
  let r ← m.getReg m.insOp0
  CONT (if 0 < r.toInt then m.branch m.insOpImm else m) true

def LB (m : Machine n W) : Option (Outcome n W) := CONT { m with pc := m.insOpExt } true

def LC (m : Machine n W) : Option (Outcome n W) := do
  let r ← m.getReg m.insOp0
  CONT { m with pc := jumpOffset m.insOpImm + r } true

def LF (ext : Externals n W) (m : Machine n W) : Option (Outcome n W) :=
  if m.insOp0 = 0 then CONT m false
  else if m.insOp0 = 1 then do
    let m ← sys ext m
    CONT m true
  else CONT m true

def DEFAULT (m : Machine n W) : Option (Outcome n W) :=
  CONT (m.printf "Illegal  instruction: pc=0x%x opCode=0x%x\n"
    [.int m.pc, .int (m.insOpCode.setWidth 32)]) true

def jumpTable (ext : Externals n W) : List (Machine n W → Option (Outcome n W)) :=
  [L0, L1, L2, L3, L4, DEFAULT, L6, L7,
    L8, L9, LA, LB, LC, DEFAULT, DEFAULT, LF ext]

def exec (ext : Externals n W) (m : Machine n W) : Option (Outcome n W) :=
  if m.insOpCode.toNat > 0xf then DEFAULT m else jump (jumpTable ext) m.insOpCode m

/-- The body of the loop in `compute`. -/
def cycle (ext : Externals n W) : Loop.Body (Machine n W) := fun m => do exec ext (← fetch m)

/-- `compute`, entered in `m`, returns in `m'`. -/
def Compute (ext : Externals n W) (m m' : Machine n W) : Prop := Loop.Stops (cycle ext) m m'

/-! ## The switches and the tables -/

theorem eq_ofNat_iff {x : BitVec 8} {k : ℕ} (hk : k < 2 ^ 8) :
    x = BitVec.ofNat 8 k ↔ x.toNat = k := by
  rw [← BitVec.toNat_inj, BitVec.toNat_ofNat, Nat.mod_eq_of_lt hk]

theorem fetch_eq (m : Machine n W) : fetch m = Switch.fetch m := by
  unfold fetch Switch.fetch
  congr 1
  funext m
  have h0 : m.insOpCode = 0x0 ↔ m.insOpCode.toNat = 0x0 := eq_ofNat_iff (by decide)
  have hb : m.insOpCode = 0xb ↔ m.insOpCode.toNat = 0xb := eq_ofNat_iff (by decide)
  by_cases h : m.insOpCode.toNat = 0x0 ∨ m.insOpCode.toNat = 0xb
  · rw [if_pos (h.imp h0.2 hb.2), Switch.fetchSwitch_of_eq h, L20]
  · rw [if_neg (mt (Or.imp h0.1 hb.1) h), Switch.fetchSwitch_of_ne h]

/-! A block that ends in `goto CONT` goes on, as a case of the switch does. -/

theorem CONT_true (m : Machine n W) : CONT m true = goOn (some m) := rfl

theorem CONT_false (m : Machine n W) : CONT m false = some (m, false) := rfl

theorem goOn_bind {α : Type} (o : Option α) (f : α → Option (Machine n W)) :
    goOn (o >>= f) = o >>= fun x => goOn (f x) := by
  cases o <;> rfl

theorem goOn_ite (p : Prop) [Decidable p] (a b : Option (Machine n W)) :
    goOn (if p then a else b) = if p then goOn a else goOn b := apply_ite goOn p a b

theorem bind_goOn_some (o : Option (Machine n W)) : (o >>= fun m => goOn (some m)) = goOn o := by
  cases o <;> rfl

/-- **The table of the ALU functions is the inner switch.** -/
theorem L6_eq (m : Machine n W) : L6 m = goOn (Switch.execAlu m) := by
  unfold L6 jump Switch.execAlu
  generalize m.insOp0.toNat = k
  by_cases hk : k > 0xf
  · rw [if_pos hk]
    split <;> first | omega | rfl
  · rw [if_neg hk]
    interval_cases k <;>
      simp only [jumpTable2, List.getElem?_cons_zero, List.getElem?_cons_succ, Option.bind_some,
        L60, L61, L62, L63, L64, L65, L66, L67, L6F, DEFAULT2, CONT2, CONT_true, bind_goOn_some,
        goOn_bind]

/-- **The table of the opcodes is the outer switch.** -/
theorem exec_eq (ext : Externals n W) (m : Machine n W) : exec ext m = Switch.exec ext m := by
  unfold exec jump Switch.exec
  generalize m.insOpCode.toNat = k
  by_cases hk : k > 0xf
  · rw [if_pos hk]
    split <;> first | omega | rfl
  · rw [if_neg hk]
    interval_cases k <;>
      simp only [jumpTable, List.getElem?_cons_zero, List.getElem?_cons_succ, Option.bind_some,
        L0, L1, L2, L3, L4, L6_eq, L7, L8, L9, LA, LB, LC, LF, DEFAULT, CONT_true, CONT_false,
        bind_goOn_some, goOn_bind, goOn_ite]

theorem cycle_eq (ext : Externals n W) : cycle ext = Switch.cycle ext := by
  funext m
  simp only [cycle, Switch.cycle, fetch_eq, exec_eq]

/-- **The two simulators do the same**, cycle by cycle, and `compute` returns in the one when it
returns in the other. -/
theorem runs_as_switch (ext : Externals n W) (m : Machine n W) :
    (∀ k, Loop.trace (cycle ext) k m = Loop.trace (Switch.cycle ext) k m) ∧
      ∀ m', Compute ext m m' ↔ Switch.Compute ext m m' := by
  refine ⟨fun k => ?_, fun m' => ?_⟩
  · rw [cycle_eq]
  · rw [Compute, Switch.Compute, cycle_eq]

end IntroSystems.SM213.JumpTable
