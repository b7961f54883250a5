import IntroSystems.SM213.Memory

/-!
# The Simple Machine in C

What `sm.c` and `sm-jt.c` of assignment 8 have in common: their globals, the first lines of `fetch`,
and the block of the `sys` instruction. An `int` is a `BitVec 32` that wraps around, a `char` is
signed, and `none` is undefined behaviour: an access outside `reg` or `mem`, or a shift by 32 or
more.

* `Machine`: the globals, what was printed, and the state of the world outside.
* `Externals`: the calls `read`, `write`, `getenv` and `system`.
* `decode`, `fetchExt`: the parts of `fetch`; `sys`: the instruction `f1ii`.
-/

set_option autoImplicit false

namespace IntroSystems.SM213

/-- An argument of `printf`: an `int`, or the characters that a string contributes. -/
inductive Arg
  | int (v : BitVec 32)
  | str (s : List (BitVec 8))
  deriving DecidableEq

/-- A call of `printf`. -/
structure Printf where
  format : String
  args : List Arg
  deriving DecidableEq

/-- The globals of `sm.c`, what it has printed, and the world its system calls see. -/
structure Machine (n : ℕ) (W : Type) where
  reg : Regs
  mem : Memory n
  pc : BitVec 32
  insOpCode : BitVec 8
  insOp0 : BitVec 8
  insOp1 : BitVec 8
  insOp2 : BitVec 8
  insOpImm : BitVec 8
  insOpExt : BitVec 32
  out : List Printf
  world : W

/-- The external calls. `read` and `write` get a file descriptor, an address in `mem` and a
count. -/
structure Externals (n : ℕ) (W : Type) where
  read : W → BitVec 32 → BitVec 32 → BitVec 32 → Memory n → Option (W × Memory n × BitVec 32)
  write : W → BitVec 32 → BitVec 32 → BitVec 32 → Memory n → Option (W × BitVec 32)
  getenv : W → String → Option String
  system : W → List (BitVec 8) → Option (W × BitVec 32)

variable {n : ℕ} {W : Type}

/-- What `exec` leaves and returns. -/
abbrev Outcome (n : ℕ) (W : Type) := Machine n W × Bool

theorem shiftLeft_one (x : BitVec 32) : x <<< 1 = x * 2 := by
  rw [← BitVec.toNat_inj, BitVec.toNat_shiftLeft, BitVec.toNat_mul, Nat.shiftLeft_eq]
  rfl

/-- The end of a case that leaves `cont` at 1. -/
def goOn (m : Option (Machine n W)) : Option (Outcome n W) := m.map fun m => (m, true)

namespace Machine

/-- `reg[i]`, with one of the `insOp` fields as index. -/
def getReg (m : Machine n W) (i : BitVec 8) : Option (BitVec 32) := m.reg.get i.toNat

/-- `reg[i] = v`. -/
def setReg (m : Machine n W) (i : BitVec 8) (v : BitVec 32) : Option (Machine n W) :=
  (m.reg.set i.toNat v).map fun reg => { m with reg }

/-- The store of the word `v` at `a`. -/
def setWord (m : Machine n W) (a v : BitVec 32) : Option (Machine n W) :=
  (store m.mem a v).map fun mem => { m with mem }

/-- `pc += k << 1`. -/
def branch (m : Machine n W) (k : BitVec 8) : Machine n W :=
  { m with pc := m.pc + (k.signExtend 32 <<< 1) }

def printf (m : Machine n W) (format : String) (args : List Arg) : Machine n W :=
  { m with out := m.out ++ [⟨format, args⟩] }

end Machine

/-- The assignments of `fetch` to the fields of an instruction, and `pc += 2`. -/
def Machine.setIns (m : Machine n W) (b0 b1 : BitVec 8) : Machine n W :=
  { m with
    insOpCode := b0 >>> 4
    insOp0 := b0 &&& 0xf
    insOp1 := b1 >>> 4
    insOp2 := b1 &&& 0xf
    insOpImm := b1
    pc := m.pc + 2 }

/-- `fetch` up to its switch. -/
def decode (m : Machine n W) : Option (Machine n W) := do
  let b0 ← m.mem.get m.pc
  let b1 ← m.mem.get (m.pc + 1)
  some (m.setIns b0 b1)

theorem decode_of_get {m : Machine n W} {b0 b1 : BitVec 8} (h0 : m.mem.get m.pc = some b0)
    (h1 : m.mem.get (m.pc + 1) = some b1) : decode m = some (m.setIns b0 b1) := by
  rw [decode, h0, h1]
  rfl

/-- The word after the instruction. -/
def fetchExt (m : Machine n W) : Option (Machine n W) :=
  (load m.mem m.pc).map fun w => { m with insOpExt := w, pc := m.pc + 4 }

/-- `r << k`, for a `k` that is positive as a `char`. -/
def shl (r : BitVec 32) (k : BitVec 8) : Option (BitVec 32) :=
  if k.toInt < 32 then some (r <<< k.toInt.toNat) else none

/-- `r >> -k`, for a `k` that is not positive as a `char`. -/
def shr (r : BitVec 32) (k : BitVec 8) : Option (BitVec 32) :=
  if -k.toInt < 32 then some (r.sshiftRight (-k.toInt).toNat) else none

/-- `((unsigned short) insOpImm) << 1`. -/
def jumpOffset (k : BitVec 8) : BitVec 32 := (k.signExtend 16).setWidth 32 <<< 1

/-- The characters of the string at `a` up to its zero, and at most `count` of them. -/
def string (mem : Memory n) (a : BitVec 32) : ℕ → Option (List (BitVec 8))
  | 0 => some []
  | count + 1 => do
    let b ← mem.get a
    if b = 0 then
      some []
    else do
      let bs ← string mem (a + 1) count
      some (b :: bs)

/-- What `%.*s` prints. A negative precision is none at all: the string then ends at its zero, or
runs out of the memory. -/
def precision (mem : Memory n) (p a : BitVec 32) : Option (List (BitVec 8)) :=
  string mem a (if p.toInt < 0 then n + 1 else p.toNat)

/-- `sys i`, the block of opcode `f` with a second nibble of 1. -/
def sys (ext : Externals n W) (m : Machine n W) : Option (Machine n W) :=
  if m.insOpImm = 0 then do
    let (world, mem, r) ← ext.read m.world (m.reg 0) (m.reg 1) (m.reg 2) m.mem
    some { m with world, mem, reg := Function.update m.reg 0 r }
  else if m.insOpImm = 1 then do
    let (world, r) ← ext.write m.world (m.reg 0) (m.reg 1) (m.reg 2) m.mem
    some { m with world, reg := Function.update m.reg 0 r }
  else if m.insOpImm = 2 then
    if ext.getenv m.world "SIMPLE_MACHINE_ALLOW_EXEC" = some "1" then do
      -- a negative size is a huge one for `memcpy`
      let str ← if (m.reg 1).toInt < 0 then none else m.mem.bytes (m.reg 0) (m.reg 1).toNat
      let (world, r) ← ext.system m.world str
      some { m with world, reg := Function.update m.reg 0 r }
    else do
      let str ← precision m.mem (m.reg 1) (m.reg 0)
      some (m.printf "<<<WOULD EXECUTE %.*s>>>\n" [.int (m.reg 1), .str str])
  else some m

end IntroSystems.SM213
