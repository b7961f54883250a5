import Mathlib.Data.Int.Notation
import Mathlib.Logic.Function.Basic
import Mathlib.Tactic.Common

/-!
# Registers and memory of the Simple Machine

* `Memory`: bytes with an `int` as address. Outside the array there is nothing, `none`.
* `bytes`, `setBytes`: consecutive bytes.
* `Regs`: the eight registers.
* `load`, `store`: the big-endian words, as `sm.c` reads and writes them.
-/

set_option autoImplicit false

namespace IntroSystems.SM213

/-- A memory of `n` bytes. -/
abbrev Memory (n : ℕ) := Fin n → BitVec 8

/-- The registers. -/
abbrev Regs := Fin 8 → BitVec 32

namespace Regs

/-- `reg[i]`, for a register number `i`. -/
def get (r : Regs) (i : ℕ) : Option (BitVec 32) := if h : i < 8 then some (r ⟨i, h⟩) else none

/-- `reg[i] = v`. -/
def set (r : Regs) (i : ℕ) (v : BitVec 32) : Option Regs :=
  if h : i < 8 then some (Function.update r ⟨i, h⟩ v) else none

theorem get_of_lt {r : Regs} {i : ℕ} (h : i < 8) : r.get i = some (r ⟨i, h⟩) := dif_pos h

theorem get_of_le {r : Regs} {i : ℕ} (h : 8 ≤ i) : r.get i = none := dif_neg (by omega)

theorem get_eq_none {r : Regs} {i : ℕ} : r.get i = none ↔ 8 ≤ i := by
  rcases Nat.lt_or_ge i 8 with h | h
  · simp [get_of_lt h, h]
  · simp [get_of_le h, h]

theorem set_of_lt {r : Regs} {i : ℕ} {v : BitVec 32} (h : i < 8) :
    r.set i v = some (Function.update r ⟨i, h⟩ v) := dif_pos h

theorem set_of_le {r : Regs} {i : ℕ} {v : BitVec 32} (h : 8 ≤ i) : r.set i v = none :=
  dif_neg (by omega)

end Regs

variable {n : ℕ}

namespace Memory

/-- `mem[a]`. -/
def get (m : Memory n) (a : BitVec 32) : Option (BitVec 8) :=
  if h : 0 ≤ a.toInt ∧ a.toInt < n then some (m ⟨a.toInt.toNat, by omega⟩) else none

/-- `mem[a] = b`. -/
def set (m : Memory n) (a : BitVec 32) (b : BitVec 8) : Option (Memory n) :=
  if h : 0 ≤ a.toInt ∧ a.toInt < n then some (Function.update m ⟨a.toInt.toNat, by omega⟩ b)
  else none

/-- The `count` bytes from `a` on. -/
def bytes (m : Memory n) (a : BitVec 32) : ℕ → Option (List (BitVec 8))
  | 0 => some []
  | count + 1 => do
    let b ← m.get a
    let bs ← bytes m (a + 1) count
    some (b :: bs)

theorem bytes_succ {m : Memory n} {a : BitVec 32} {count : ℕ} {bs : List (BitVec 8)} :
    m.bytes a (count + 1) = some bs ↔
      ∃ b bs', bs = b :: bs' ∧ m.get a = some b ∧ m.bytes (a + 1) count = some bs' := by
  rw [bytes]
  cases m.get a <;> cases m.bytes (a + 1) count <;> simp [eq_comm]

theorem bytes_cons {m : Memory n} {a : BitVec 32} {count : ℕ} {b : BitVec 8} {bs : List (BitVec 8)} :
    m.bytes a (count + 1) = some (b :: bs) ↔
      m.get a = some b ∧ m.bytes (a + 1) count = some bs := by
  simp [bytes_succ]

theorem bytes_two {m : Memory n} {a : BitVec 32} {bs : List (BitVec 8)}
    (h : m.bytes a 2 = some bs) :
    ∃ b0 b1, bs = [b0, b1] ∧ m.get a = some b0 ∧ m.get (a + 1) = some b1 := by
  obtain ⟨b0, bs, rfl, h0, h⟩ := bytes_succ.1 h
  obtain ⟨b1, bs, rfl, h1, h⟩ := bytes_succ.1 h
  cases h
  exact ⟨b0, b1, rfl, h0, h1⟩

/-- Put `bs` at `a`, `a + 1` and so on. -/
def setBytes (m : Memory n) (a : BitVec 32) : List (BitVec 8) → Option (Memory n)
  | [] => some m
  | b :: bs => do
    let m ← m.set a b
    setBytes m (a + 1) bs

end Memory

/-- `mem[a] << 24 | mem[a+1] << 16 | mem[a+2] << 8 | mem[a+3]`. -/
def load (m : Memory n) (a : BitVec 32) : Option (BitVec 32) := do
  let b0 ← m.get a
  let b1 ← m.get (a + 1)
  let b2 ← m.get (a + 2)
  let b3 ← m.get (a + 3)
  some (b0.setWidth 32 <<< 24 ||| b1.setWidth 32 <<< 16 ||| b2.setWidth 32 <<< 8 |||
    b3.setWidth 32)

/-- The four assignments `mem[a] = v >> 24 & 0xff` to `mem[a+3] = v & 0xff`. -/
def store (m : Memory n) (a v : BitVec 32) : Option (Memory n) := do
  let m ← m.set a ((v.sshiftRight 24 &&& 0xff).setWidth 8)
  let m ← m.set (a + 1) ((v.sshiftRight 16 &&& 0xff).setWidth 8)
  let m ← m.set (a + 2) ((v.sshiftRight 8 &&& 0xff).setWidth 8)
  m.set (a + 3) ((v &&& 0xff).setWidth 8)

end IntroSystems.SM213
