import IntroSystems.SM213.Switch
import IntroSystems.SM213.Words

/-!
# Programs in assembly language

The instructions that the assembly programs use, their encoding, and what they do to the registers
and to memory as words.

* `Ins`, `Ins.encode`; `Program`: instructions at addresses, with labels resolved.
* `Core`, `Ins.run`, `Program.step`: one instruction. A program does not write to its own code.
* `Runs`: instructions, one after another. **`Runs.steps`**, **`Runs.ld`**, **`Runs.ldx`**,
  **`Runs.st`**, **`Runs.beq_taken`**, **`Runs.bgt_taken`**: the rules for a block.
* `Program.target`: the word that an instruction writes. `RunsIn`: runs that write to some words
  only, with the same rules.
-/

set_option autoImplicit false

namespace IntroSystems.SM213

/-! ## Instructions -/

inductive Reg
  | r0 | r1 | r2 | r3 | r4 | r5 | r6 | r7
  deriving DecidableEq

def Reg.index : Reg → ℕ
  | r0 => 0
  | r1 => 1
  | r2 => 2
  | r3 => 3
  | r4 => 4
  | r5 => 5
  | r6 => 6
  | r7 => 7

theorem Reg.index_lt (r : Reg) : r.index < 8 := by
  cases r <;> decide

/-- The place in `reg`. -/
def Reg.num (r : Reg) : Fin 8 := ⟨r.index, r.index_lt⟩

instance neZero_sixteen : NeZero 16 := ⟨by decide⟩

instance neZero_thirtyTwo : NeZero 32 := ⟨by decide⟩

/-- `t` is the address of a label. The offset of `ld` and `st` is `4 * o`, that of `gpc` is
`2 * o`, and the index of `ldx` and `stx` is in `i`. -/
inductive Ins
  | ldi (v : BitVec 32) (d : Reg)
  | ld (o : Fin 16) (s d : Reg)
  | ldx (s i d : Reg)
  | st (s : Reg) (o : Fin 16) (d : Reg)
  | stx (s d i : Reg)
  | mov (s d : Reg)
  | add (s d : Reg)
  | and (s d : Reg)
  | not (r : Reg)
  | inc (r : Reg)
  | inca (r : Reg)
  | dec (r : Reg)
  | deca (r : Reg)
  | gpc (o : Fin 16) (d : Reg)
  | shl (k : Fin 32) (r : Reg)
  | shr (k : Fin 32) (r : Reg)
  | br (t : ℕ)
  | beq (r : Reg) (t : ℕ)
  | bgt (r : Reg) (t : ℕ)
  | j (t : ℕ)
  | jr (r : Reg)
  | halt
  deriving DecidableEq

/-- Two nibbles. -/
def nibbles (a b : Fin 16) : BitVec 8 := BitVec.ofNat 8 (16 * a + b)

def Reg.nibble (r : Reg) : Fin 16 := ⟨r.num, by omega⟩

/-- The bytes of a word. -/
def bytesOf (v : BitVec 32) : List (BitVec 8) := [byteOf v 0, byteOf v 1, byteOf v 2, byteOf v 3]

/-- The last byte of a branch at `pc` to `t`. -/
def branchOffset (pc t : ℕ) : BitVec 8 := BitVec.ofInt 8 (((t : ℤ) - (pc + 2)) / 2)

namespace Ins

/-- The bytes of an instruction at `pc`. -/
def encode (pc : ℕ) : Ins → List (BitVec 8)
  | ldi v d => nibbles 0 d.nibble :: 0 :: bytesOf v
  | ld o s d => [nibbles 1 o, nibbles s.nibble d.nibble]
  | ldx s i d => [nibbles 2 s.nibble, nibbles i.nibble d.nibble]
  | st s o d => [nibbles 3 s.nibble, nibbles o d.nibble]
  | stx s d i => [nibbles 4 s.nibble, nibbles d.nibble i.nibble]
  | mov s d => [nibbles 6 0, nibbles s.nibble d.nibble]
  | add s d => [nibbles 6 1, nibbles s.nibble d.nibble]
  | and s d => [nibbles 6 2, nibbles s.nibble d.nibble]
  | not r => [nibbles 6 7, nibbles 0 r.nibble]
  | inc r => [nibbles 6 3, nibbles 0 r.nibble]
  | inca r => [nibbles 6 4, nibbles 0 r.nibble]
  | dec r => [nibbles 6 5, nibbles 0 r.nibble]
  | deca r => [nibbles 6 6, nibbles 0 r.nibble]
  | gpc o d => [nibbles 6 0xf, nibbles o d.nibble]
  | shl k r => [nibbles 7 r.nibble, BitVec.ofNat 8 k]
  | shr k r => [nibbles 7 r.nibble, -BitVec.ofNat 8 k]
  | br t => [nibbles 8 0, branchOffset pc t]
  | beq r t => [nibbles 9 r.nibble, branchOffset pc t]
  | bgt r t => [nibbles 0xa r.nibble, branchOffset pc t]
  | j t => nibbles 0xb 0 :: 0 :: bytesOf (BitVec.ofNat 32 t)
  | jr r => [nibbles 0xc r.nibble, 0]
  | halt => [nibbles 0xf 0, 0]

/-- The number of bytes. -/
def length : Ins → ℕ
  | ldi _ _ | j _ => 6
  | _ => 2

/-- A label is an address, near enough for a branch, and `shl` shifts. -/
def Fits (pc : ℕ) : Ins → Prop
  | br t | beq _ t | bgt _ t => t % 2 = pc % 2 ∧ t ≤ pc + 256 ∧ pc ≤ t + 254
  | j t => t < 2 ^ 32
  | shl k _ => 0 < k
  | _ => True

instance (pc : ℕ) (i : Ins) : Decidable (i.Fits pc) := by
  unfold Fits
  split <;> infer_instance

end Ins

/-- Instructions from `pc` on. -/
def layout : ℕ → List Ins → List (ℕ × Ins)
  | _, [] => []
  | pc, i :: is => (pc, i) :: layout (pc + i.length) is

/-- Blocks of instructions at addresses from `lo` to `hi`. -/
structure Program where
  code : List (ℕ × List Ins)
  lo : ℕ
  hi : ℕ
  hi_le : hi ≤ memSize
  fits : ∀ x ∈ code.flatMap fun b => layout b.1 b.2,
    lo ≤ x.1 ∧ x.1 + x.2.length ≤ hi ∧ x.2.Fits x.1

namespace Program

variable (P : Program)

def listing : List (ℕ × Ins) := P.code.flatMap fun b => layout b.1 b.2

/-- The instruction at `pc`. -/
def ins (pc : ℕ) : Option Ins := P.listing.lookup pc

/-- The word `k` has no code. -/
def Writable (k : ℕ) : Prop := 4 * k + 4 ≤ P.lo ∨ P.hi ≤ 4 * k

instance (k : ℕ) : Decidable (P.Writable k) := by
  unfold Writable
  infer_instance

end Program

/-! ## What they do -/

/-- The registers, one by one. -/
structure Registers where
  r0 : BitVec 32
  r1 : BitVec 32
  r2 : BitVec 32
  r3 : BitVec 32
  r4 : BitVec 32
  r5 : BitVec 32
  r6 : BitVec 32
  r7 : BitVec 32

namespace Registers

def get (x : Registers) : Reg → BitVec 32
  | .r0 => x.r0
  | .r1 => x.r1
  | .r2 => x.r2
  | .r3 => x.r3
  | .r4 => x.r4
  | .r5 => x.r5
  | .r6 => x.r6
  | .r7 => x.r7

def set (x : Registers) (v : BitVec 32) : Reg → Registers
  | .r0 => { x with r0 := v }
  | .r1 => { x with r1 := v }
  | .r2 => { x with r2 := v }
  | .r3 => { x with r3 := v }
  | .r4 => { x with r4 := v }
  | .r5 => { x with r5 := v }
  | .r6 => { x with r6 := v }
  | .r7 => { x with r7 := v }

def ofRegs (f : Regs) : Registers :=
  ⟨f Reg.r0.num, f Reg.r1.num, f Reg.r2.num, f Reg.r3.num, f Reg.r4.num, f Reg.r5.num,
    f Reg.r6.num, f Reg.r7.num⟩

theorem ofRegs_update (f : Regs) (v : BitVec 32) (r : Reg) :
    ofRegs (Function.update f r.num v) = (ofRegs f).set v r := by
  cases r <;> rfl

end Registers

/-- `mem` is memory as words. -/
structure Core where
  pc : ℕ
  reg : Registers
  mem : ℕ → BitVec 32

/-- The word at an address. -/
def wordIndex (a : BitVec 32) : Option ℕ :=
  if a.toNat % 4 = 0 ∧ a.toNat / 4 < memSize / 4 then some (a.toNat / 4) else none

/-- A result in a register. -/
def Core.put (c : Core) (v : BitVec 32) (r : Reg) : Core :=
  { c with pc := c.pc + 2, reg := c.reg.set v r }

/-- One instruction. It is undefined to halt, to use an address that is not that of a word, and to
write to the code. -/
def Ins.run (P : Program) (c : Core) : Ins → Option Core
  | ldi v d => some { c with pc := c.pc + 6, reg := c.reg.set v d }
  | ld o s d => (wordIndex ((BitVec.ofNat 32 o <<< 2) + c.reg.get s)).map fun k => c.put (c.mem k) d
  | ldx s i d => (wordIndex (c.reg.get s + (c.reg.get i <<< 2))).map fun k => c.put (c.mem k) d
  | st s o d => (wordIndex ((BitVec.ofNat 32 o <<< 2) + c.reg.get d)).bind fun k =>
    if P.Writable k then
      some { c with pc := c.pc + 2, mem := Function.update c.mem k (c.reg.get s) }
    else none
  | stx s d i => (wordIndex (c.reg.get d + (c.reg.get i <<< 2))).bind fun k =>
    if P.Writable k then
      some { c with pc := c.pc + 2, mem := Function.update c.mem k (c.reg.get s) }
    else none
  | mov s d => some (c.put (c.reg.get s) d)
  | add s d => some (c.put (c.reg.get s + c.reg.get d) d)
  | and s d => some (c.put (c.reg.get s &&& c.reg.get d) d)
  | not r => some (c.put (~~~c.reg.get r) r)
  | inc r => some (c.put (c.reg.get r + 1) r)
  | inca r => some (c.put (c.reg.get r + 4) r)
  | dec r => some (c.put (c.reg.get r - 1) r)
  | deca r => some (c.put (c.reg.get r - 4) r)
  | gpc o d => some (c.put (BitVec.ofNat 32 (c.pc + 2) + (BitVec.ofNat 32 o <<< 1)) d)
  | shl k r => some (c.put (c.reg.get r <<< (k : ℕ)) r)
  | shr k r => some (c.put ((c.reg.get r).sshiftRight k) r)
  | br t => some { c with pc := t }
  | beq r t => some { c with pc := if c.reg.get r = 0 then t else c.pc + 2 }
  | bgt r t => some { c with pc := if 0 < (c.reg.get r).toInt then t else c.pc + 2 }
  | j t => some { c with pc := t }
  | jr r => some { c with pc := (c.reg.get r).toNat }
  | halt => none

/-- The word that an instruction writes. -/
def Ins.target (c : Core) : Ins → Option ℕ
  | st _ o d => wordIndex ((BitVec.ofNat 32 o <<< 2) + c.reg.get d)
  | stx _ d i => wordIndex (c.reg.get d + (c.reg.get i <<< 2))
  | _ => none

namespace Program

variable (P : Program)

def step (c : Core) : Option Core := (P.ins c.pc).bind fun i => i.run P c

/-- Some steps. -/
def steps : ℕ → Core → Option Core
  | 0, c => some c
  | k + 1, c => (P.step c).bind (steps k)

/-- From one state to another. -/
def Runs : Core → Core → Prop := Relation.ReflTransGen fun c c' => P.step c = some c'

/-- The word that the next instruction writes. -/
def target (c : Core) : Option ℕ := (P.ins c.pc).bind fun i => i.target c

/-- From one state to another, without a write outside `R`. -/
def RunsIn (R : ℕ → Prop) : Core → Core → Prop :=
  Relation.ReflTransGen fun c c' => P.step c = some c' ∧ ∀ k, P.target c = some k → R k

/-- Some steps that write nothing. -/
def quietSteps : ℕ → Core → Option Core
  | 0, c => some c
  | k + 1, c => if P.target c = none then (P.step c).bind (quietSteps k) else none

end Program

/-! ## Rules -/

variable {P : Program} {c c' c'' : Core} {k : ℕ}

namespace Program.Runs

theorem refl (c : Core) : P.Runs c c := Relation.ReflTransGen.refl

theorem trans (h : P.Runs c c') (h' : P.Runs c' c'') : P.Runs c c'' :=
  Relation.ReflTransGen.trans h h'

theorem step (h : P.step c = some c') (rest : P.Runs c' c'') : P.Runs c c'' :=
  Relation.ReflTransGen.head h rest

theorem ins {i : Ins} (c' : Core) (hi : P.ins c.pc = some i) (hc : i.run P c = some c')
    (rest : P.Runs c' c'') : P.Runs c c'' :=
  step ((congrArg (Option.bind · _) hi).trans hc) rest

/-- **Some steps**, to be evaluated. -/
theorem steps (k : ℕ) (c' : Core) (h : P.steps k c = some c') (rest : P.Runs c' c'') :
    P.Runs c c'' := by
  induction k generalizing c with
  | zero =>
    cases h
    exact rest
  | succ k ih =>
    obtain ⟨c₁, h₁, h₂⟩ := Option.bind_eq_some_iff.mp h
    exact step h₁ (ih h₂)

end Program.Runs

theorem wordIndex_addr (hk : k < memSize / 4) : wordIndex (addr k) = some k := by
  unfold memSize at hk
  have hnat : (addr k).toNat = 4 * k := by
    rw [addr, BitVec.toNat_ofNat]
    omega
  unfold wordIndex
  rw [hnat, if_pos (by unfold memSize; omega)]
  congr 1
  omega

/-- The offset is counted in words. -/
theorem offset_addr (o : Fin 16) (k : ℕ) : (BitVec.ofNat 32 o <<< 2) + addr k = addr (k + o) := by
  have hshift : BitVec.ofNat 32 o <<< 2 = addr o := by
    revert o
    decide
  rw [hshift, addr_add, Nat.add_comm]

theorem index_addr (k j : ℕ) : addr k + (BitVec.ofNat 32 j <<< 2) = addr (k + j) := by
  have hshift : BitVec.ofNat 32 j <<< 2 = addr j := by
    apply BitVec.eq_of_toNat_eq
    unfold addr
    rw [BitVec.toNat_shiftLeft, BitVec.toNat_ofNat, BitVec.toNat_ofNat, Nat.shiftLeft_eq]
    omega
  rw [hshift, addr_add]

namespace Program

variable {o : Fin 16} {s d i r : Reg} {j t : ℕ} {v : BitVec 32}

section Step

theorem step_ld (hi : P.ins c.pc = some (.ld o s d)) (hs : c.reg.get s = addr k)
    (hk : k + o < memSize / 4) (hv : c.mem (k + o) = v) : P.step c = some (c.put v d) := by
  unfold step
  rw [hi, Option.bind_some, Ins.run, hs, offset_addr, wordIndex_addr hk, Option.map_some, hv]

theorem step_ldx (hi : P.ins c.pc = some (.ldx s i d)) (hs : c.reg.get s = addr k)
    (hj : c.reg.get i = BitVec.ofNat 32 j) (hk : k + j < memSize / 4) (hv : c.mem (k + j) = v) :
    P.step c = some (c.put v d) := by
  unfold step
  rw [hi, Option.bind_some, Ins.run, hs, hj, index_addr, wordIndex_addr hk, Option.map_some, hv]

theorem step_st (hi : P.ins c.pc = some (.st s o d)) (hd : c.reg.get d = addr k)
    (hk : k + o < memSize / 4) (hw : P.Writable (k + o)) :
    P.step c =
      some { c with pc := c.pc + 2, mem := Function.update c.mem (k + o) (c.reg.get s) } := by
  unfold step
  rw [hi, Option.bind_some, Ins.run, hd, offset_addr, wordIndex_addr hk, Option.bind_some,
    if_pos hw]

theorem step_stx (hi : P.ins c.pc = some (.stx s d i)) (hd : c.reg.get d = addr k)
    (hj : c.reg.get i = BitVec.ofNat 32 j) (hk : k + j < memSize / 4)
    (hw : P.Writable (k + j)) :
    P.step c =
      some { c with pc := c.pc + 2, mem := Function.update c.mem (k + j) (c.reg.get s) } := by
  unfold step
  rw [hi, Option.bind_some, Ins.run, hd, hj, index_addr, wordIndex_addr hk, Option.bind_some,
    if_pos hw]

theorem step_beq (hi : P.ins c.pc = some (.beq r t)) :
    P.step c = some { c with pc := if c.reg.get r = 0 then t else c.pc + 2 } := by
  unfold step
  rw [hi, Option.bind_some, Ins.run]

theorem step_bgt (hi : P.ins c.pc = some (.bgt r t)) :
    P.step c = some { c with pc := if 0 < (c.reg.get r).toInt then t else c.pc + 2 } := by
  unfold step
  rw [hi, Option.bind_some, Ins.run]

/-- **What a step writes.** -/
theorem step_mem (h : P.step c = some c') (hk : P.target c ≠ some k) : c'.mem k = c.mem k := by
  obtain ⟨i, hi, hrun⟩ := Option.bind_eq_some_iff.mp h
  rw [target, hi, Option.bind_some] at hk
  cases i
  case st s o d =>
    obtain ⟨j, hj, hrun⟩ := Option.bind_eq_some_iff.mp hrun
    cases (Option.ite_none_right_eq_some.mp hrun).2
    refine Function.update_of_ne (fun e => hk ?_) _ _
    rw [e]
    exact hj
  case stx s d i =>
    obtain ⟨j, hj, hrun⟩ := Option.bind_eq_some_iff.mp hrun
    cases (Option.ite_none_right_eq_some.mp hrun).2
    refine Function.update_of_ne (fun e => hk ?_) _ _
    rw [e]
    exact hj
  case ld o s d =>
    obtain ⟨j, -, rfl⟩ := Option.map_eq_some_iff.mp hrun
    rfl
  case ldx s i d =>
    obtain ⟨j, -, rfl⟩ := Option.map_eq_some_iff.mp hrun
    rfl
  case halt => cases hrun
  all_goals
    cases hrun
    rfl

end Step

namespace Runs

/-- **A load** of a word. -/
theorem ld (c' : Core) (hi : P.ins c.pc = some (.ld o s d)) (hs : c.reg.get s = addr k)
    (hk : k + o < memSize / 4) (hv : c.mem (k + o) = v) (hc : c.put v d = c')
    (rest : P.Runs c' c'') : P.Runs c c'' :=
  step ((step_ld hi hs hk hv).trans (congrArg some hc)) rest

/-- **A load** of the word with index `j`. -/
theorem ldx (c' : Core) (hi : P.ins c.pc = some (.ldx s i d)) (hs : c.reg.get s = addr k)
    (hj : c.reg.get i = BitVec.ofNat 32 j) (hk : k + j < memSize / 4) (hv : c.mem (k + j) = v)
    (hc : c.put v d = c') (rest : P.Runs c' c'') : P.Runs c c'' :=
  step ((step_ldx hi hs hj hk hv).trans (congrArg some hc)) rest

/-- **A store** of a word. -/
theorem st (c' : Core) (hi : P.ins c.pc = some (.st s o d)) (hd : c.reg.get d = addr k)
    (hk : k + o < memSize / 4) (hw : P.Writable (k + o))
    (hc : { c with pc := c.pc + 2, mem := Function.update c.mem (k + o) (c.reg.get s) } = c')
    (rest : P.Runs c' c'') : P.Runs c c'' :=
  step ((step_st hi hd hk hw).trans (congrArg some hc)) rest

/-- **A branch on zero**, taken. -/
theorem beq_taken (hi : P.ins c.pc = some (.beq r t)) (hr : c.reg.get r = 0)
    (rest : P.Runs ⟨t, c.reg, c.mem⟩ c'') : P.Runs c c'' := by
  refine step (step_beq hi) ?_
  rwa [if_pos hr]

theorem beq_next (hi : P.ins c.pc = some (.beq r t)) (hr : c.reg.get r ≠ 0)
    (rest : P.Runs ⟨c.pc + 2, c.reg, c.mem⟩ c'') : P.Runs c c'' := by
  refine step (step_beq hi) ?_
  rwa [if_neg hr]

/-- **A branch on a positive number**, taken. -/
theorem bgt_taken (hi : P.ins c.pc = some (.bgt r t)) (hr : 0 < (c.reg.get r).toInt)
    (rest : P.Runs ⟨t, c.reg, c.mem⟩ c'') : P.Runs c c'' := by
  refine step (step_bgt hi) ?_
  rwa [if_pos hr]

theorem bgt_next (hi : P.ins c.pc = some (.bgt r t)) (hr : ¬0 < (c.reg.get r).toInt)
    (rest : P.Runs ⟨c.pc + 2, c.reg, c.mem⟩ c'') : P.Runs c c'' := by
  refine step (step_bgt hi) ?_
  rwa [if_neg hr]

end Runs

namespace RunsIn

variable {R : ℕ → Prop}

theorem refl (c : Core) : P.RunsIn R c c := Relation.ReflTransGen.refl

theorem trans (h : P.RunsIn R c c') (h' : P.RunsIn R c' c'') : P.RunsIn R c c'' :=
  Relation.ReflTransGen.trans h h'

theorem quiet (h : P.step c = some c') (hq : P.target c = none) (rest : P.RunsIn R c' c'') :
    P.RunsIn R c c'' :=
  Relation.ReflTransGen.head ⟨h, fun k hk => by rw [hq] at hk; cases hk⟩ rest

theorem write (h : P.step c = some c') (hk : P.target c = some k) (hR : R k)
    (rest : P.RunsIn R c' c'') : P.RunsIn R c c'' :=
  Relation.ReflTransGen.head ⟨h, fun j hj => by cases hk.symm.trans hj; exact hR⟩ rest

/-- **Some steps** that write nothing, to be evaluated. -/
theorem steps (k : ℕ) (c' : Core) (h : P.quietSteps k c = some c') (rest : P.RunsIn R c' c'') :
    P.RunsIn R c c'' := by
  induction k generalizing c with
  | zero =>
    cases h
    exact rest
  | succ k ih =>
    obtain ⟨hq, h⟩ := Option.ite_none_right_eq_some.mp h
    obtain ⟨c₁, h₁, h₂⟩ := Option.bind_eq_some_iff.mp h
    exact quiet h₁ hq (ih h₂)

theorem ld (c' : Core) (hi : P.ins c.pc = some (.ld o s d)) (hs : c.reg.get s = addr k)
    (hk : k + o < memSize / 4) (hv : c.mem (k + o) = v) (hc : c.put v d = c')
    (rest : P.RunsIn R c' c'') : P.RunsIn R c c'' :=
  quiet ((step_ld hi hs hk hv).trans (congrArg some hc)) (by rw [target, hi]; rfl) rest

theorem ldx (c' : Core) (hi : P.ins c.pc = some (.ldx s i d)) (hs : c.reg.get s = addr k)
    (hj : c.reg.get i = BitVec.ofNat 32 j) (hk : k + j < memSize / 4) (hv : c.mem (k + j) = v)
    (hc : c.put v d = c') (rest : P.RunsIn R c' c'') : P.RunsIn R c c'' :=
  quiet ((step_ldx hi hs hj hk hv).trans (congrArg some hc)) (by rw [target, hi]; rfl) rest

theorem st (c' : Core) (hi : P.ins c.pc = some (.st s o d)) (hd : c.reg.get d = addr k)
    (hk : k + o < memSize / 4) (hw : P.Writable (k + o)) (hR : R (k + o))
    (hc : { c with pc := c.pc + 2, mem := Function.update c.mem (k + o) (c.reg.get s) } = c')
    (rest : P.RunsIn R c' c'') : P.RunsIn R c c'' := by
  refine write ((step_st hi hd hk hw).trans (congrArg some hc)) ?_ hR rest
  rw [target, hi, Option.bind_some, Ins.target, hd, offset_addr, wordIndex_addr hk]

theorem stx (c' : Core) (hi : P.ins c.pc = some (.stx s d i)) (hd : c.reg.get d = addr k)
    (hj : c.reg.get i = BitVec.ofNat 32 j) (hk : k + j < memSize / 4) (hw : P.Writable (k + j))
    (hR : R (k + j))
    (hc : { c with pc := c.pc + 2, mem := Function.update c.mem (k + j) (c.reg.get s) } = c')
    (rest : P.RunsIn R c' c'') : P.RunsIn R c c'' := by
  refine write ((step_stx hi hd hj hk hw).trans (congrArg some hc)) ?_ hR rest
  rw [target, hi, Option.bind_some, Ins.target, hd, hj, index_addr, wordIndex_addr hk]

theorem beq_taken (hi : P.ins c.pc = some (.beq r t)) (hr : c.reg.get r = 0)
    (rest : P.RunsIn R ⟨t, c.reg, c.mem⟩ c'') : P.RunsIn R c c'' := by
  refine quiet (step_beq hi) (by rw [target, hi]; rfl) ?_
  rwa [if_pos hr]

theorem beq_next (hi : P.ins c.pc = some (.beq r t)) (hr : c.reg.get r ≠ 0)
    (rest : P.RunsIn R ⟨c.pc + 2, c.reg, c.mem⟩ c'') : P.RunsIn R c c'' := by
  refine quiet (step_beq hi) (by rw [target, hi]; rfl) ?_
  rwa [if_neg hr]

theorem runs (h : P.RunsIn R c c') : P.Runs c c' := by
  induction h with
  | refl => exact .refl _
  | tail _ h ih => exact Relation.ReflTransGen.tail ih h.1

end RunsIn

end Program

/-! ## Arithmetic of the registers -/

theorem not_inc (x : BitVec 32) : ~~~x + 1 = -x := (BitVec.neg_eq_not_add x).symm

theorem ofNat_inc (i : ℕ) : BitVec.ofNat 32 i + 1 = BitVec.ofNat 32 (i + 1) :=
  (BitVec.ofNat_add i 1).symm

theorem neg_add_eq_zero {i n : ℕ} (hi : i ≤ n) (hn : n < 2 ^ 32) :
    -BitVec.ofNat 32 n + BitVec.ofNat 32 i = 0 ↔ i = n := by
  rw [BitVec.add_comm, ← BitVec.sub_eq_add_neg]
  constructor
  · intro h
    have heq := (BitVec.sub_eq_iff_eq_add.mp h).trans (BitVec.zero_add _)
    have := congrArg BitVec.toNat heq
    rw [BitVec.toNat_ofNat, BitVec.toNat_ofNat] at this
    omega
  · rintro rfl
    exact BitVec.sub_self _

end IntroSystems.SM213
