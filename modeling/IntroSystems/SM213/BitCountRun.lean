import IntroSystems.SM213.Assembled
import IntroSystems.SM213.BitCount

/-!
# The bit counter in assembly language

`q4b.s` of assignment 6: `q4b.c`, compiled by hand.

* `bitCount`: the code, with the labels resolved. `Written`: the words that it writes.
* `f_runs`, `turn_runs`, `main_runs`: the subroutines, with their frames on the stack.
* **`bitCount_correct`**: the program counts the bits, as `q4b.c` does.
-/

set_option autoImplicit false

namespace IntroSystems.SM213.BitCount

open Reg

/-! ## The code -/

/-- The globals, and the words of the stack that are used. -/
def xWord : ℕ := 0x2000 / 4
def yWord : ℕ := 0x2020 / 4
def frameWord : ℕ := 0x8050 / 4
def argWord : ℕ := 0x8054 / 4
def mainWord : ℕ := 0x8058 / 4
def sbWord : ℕ := 0x805c / 4
def topWord : ℕ := 0x8060 / 4

def f : ℕ := 0x112
def f_loop : ℕ := 0x122
def f_if1 : ℕ := 0x12c
def f_end : ℕ := 0x130
def main : ℕ := 0x134
def main_loop : ℕ := 0x140
def main_end : ℕ := 0x164

def bitCount : Program where
  code :=
    [(0x100, [.ldi (addr sbWord) r5, .inca r5, .gpc 3 r6, .j main, .halt]),
      (f, [.deca r5, .ldi 0 r0, .ld 1 r5 r1, .ldi 0x80000000 r2]),
      (f_loop, [.beq r1 f_end, .mov r1 r3, .and r2 r3, .beq r3 f_if1, .inc r0]),
      (f_if1, [.shl 1 r1, .br f_loop]),
      (f_end, [.inca r5, .jr r6]),
      (main, [.deca r5, .deca r5, .st r6 1 r5, .ldi 8 r4]),
      (main_loop, [.beq r4 main_end, .dec r4, .ldi (addr xWord) r0, .ldx r0 r4 r0, .deca r5,
        .st r0 0 r5, .gpc 3 r6, .j f, .inca r5, .ldi (addr yWord) r1, .stx r0 r1 r4,
        .br main_loop]),
      (main_end, [.ld 1 r5 r6, .inca r5, .inca r5, .jr r6])]
  lo := 0x100
  hi := 0x16c
  hi_le := by decide
  fits := by decide

/-- `y`, and the three words of the stack below the stack pointer of `start`. -/
def Written (k : ℕ) : Prop := yWord ≤ k ∧ k < yWord + 8 ∨ argWord ≤ k ∧ k < topWord

/-! ## The inner loop -/

variable (mem : ℕ → BitVec 32) {x : Registers} {k : ℕ} {z : BitVec 32}

/-- **The loop of `f`**: `k` shifts make `z` zero. -/
theorem loop_runs (j r3 r4 r5 r6 r7 : BitVec 32) (hz : z <<< k = 0) :
    ∃ r3', bitCount.RunsIn Written
    ⟨f_loop, ⟨j, z, topBit, r3, r4, r5, r6, r7⟩, mem⟩
    ⟨f_end, ⟨j + z.cpop, 0, topBit, r3', r4, r5, r6, r7⟩, mem⟩ := by
  have hend : ∀ j r3, bitCount.RunsIn Written ⟨f_loop, ⟨j, 0, topBit, r3, r4, r5, r6, r7⟩, mem⟩
      ⟨f_end, ⟨j + (0 : BitVec 32).cpop, 0, topBit, r3, r4, r5, r6, r7⟩, mem⟩ := fun j r3 => by
    rw [count_zero]
    exact .beq_taken rfl rfl (.refl _)
  induction k generalizing z j r3 with
  | zero =>
    obtain rfl : z = 0 := by rwa [BitVec.shiftLeft_zero] at hz
    exact ⟨r3, hend j r3⟩
  | succ k ih =>
    by_cases h0 : z = 0
    · subst h0
      exact ⟨r3, hend j r3⟩
    have hz' : z <<< 1 <<< k = 0 := by rwa [← BitVec.shiftLeft_add, Nat.add_comm]
    obtain ⟨r3', hrest⟩ := ih (if topBit &&& z ≠ 0 then j + 1 else j) (topBit &&& z) hz'
    rw [count_step] at hrest
    refine ⟨r3', .beq_next rfl h0 ?_⟩
    refine .steps 2 ⟨0x128, ⟨j, z, topBit, topBit &&& z, r4, r5, r6, r7⟩, mem⟩ rfl ?_
    by_cases hbit : topBit &&& z = 0
    · rw [if_neg (not_not.mpr hbit)] at hrest
      exact .beq_taken rfl hbit (.steps 2 _ rfl hrest)
    · rw [if_pos hbit] at hrest
      exact .beq_next rfl hbit (.steps 3 _ rfl hrest)

theorem push (k : ℕ) : addr (k + 1) - 4 = addr k := by
  rw [show (4 : BitVec 32) = addr 1 from rfl, ← addr_add, BitVec.add_sub_cancel]

theorem pop (k : ℕ) : addr k + 4 = addr (k + 1) := addr_add k 1

/-- **`f`**, called with its argument at the end of the stack. -/
theorem f_runs (h5 : x.r5 = addr argWord) :
    ∃ x', x'.r0 = (mem argWord).cpop ∧ x'.r4 = x.r4 ∧ x'.r5 = addr argWord ∧
      bitCount.RunsIn Written ⟨f, x, mem⟩ ⟨x.r6.toNat, x', mem⟩ := by
  obtain ⟨r0, r1, r2, r3, r4, r5, r6, r7⟩ := x
  dsimp only at h5
  subst h5
  let state (pc : ℕ) (r0 r1 r5 : BitVec 32) : Core := ⟨pc, ⟨r0, r1, r2, r3, r4, r5, r6, r7⟩, mem⟩
  obtain ⟨r3', hloop⟩ := loop_runs mem 0 r3 r4 (addr frameWord) r6 r7 (shiftLeft_all (mem argWord))
  rw [show (0 : BitVec 32) + (mem argWord).cpop = (mem argWord).cpop from BitVec.zero_add _] at hloop
  refine ⟨⟨(mem argWord).cpop, 0, topBit, r3', r4, addr argWord, r6, r7⟩, rfl, rfl, rfl, ?_⟩
  refine .steps 2 (state 0x11a 0 r1 (addr argWord - 4)) rfl ?_
  rw [show addr argWord - 4 = addr frameWord from push frameWord]
  refine .ld (state 0x11c 0 (mem argWord) (addr frameWord)) rfl rfl (by decide) rfl rfl ?_
  refine .steps 1 _ rfl (hloop.trans ?_)
  rw [show addr argWord = addr frameWord + 4 from (pop frameWord).symm]
  exact .steps 2 _ rfl (.refl _)

/-! ## The outer loop -/

/-- Memory when the counts from `i` on are in `y`: `a` is the argument of the last call, and the
return address of `main` is at the start of the stack. -/
def counted (i : ℕ) (a : BitVec 32) : ℕ → BitVec 32 := fun k =>
  if yWord + i ≤ k ∧ k < yWord + 8 then (mem (xWord + (k - yWord))).cpop
  else if k = argWord then a
  else if k = sbWord then 0x110
  else mem k

section Counted

variable {mem} {i : ℕ} {a v : BitVec 32}

theorem counted_of_not (hy : ¬(yWord + i ≤ k ∧ k < yWord + 8)) (ha : k ≠ argWord)
    (hs : k ≠ sbWord) : counted mem i a k = mem k := by
  unfold counted
  rw [if_neg hy, if_neg ha, if_neg hs]

theorem counted_x (hk : k < 8) : counted mem i a (xWord + k) = mem (xWord + k) := by
  apply counted_of_not
  · unfold xWord yWord
    omega
  · unfold xWord argWord
    omega
  · unfold xWord sbWord
    omega

theorem counted_y (hi : i ≤ k) (hk : k < 8) :
    counted mem i a (yWord + k) = (mem (xWord + k)).cpop := by
  unfold counted
  rw [if_pos (by omega), Nat.add_sub_cancel_left]

theorem counted_arg : counted mem i a argWord = a := by
  unfold counted
  rw [if_neg (by unfold yWord argWord; omega), if_pos rfl]

theorem counted_sb : counted mem i a sbWord = 0x110 := by
  unfold counted
  rw [if_neg (by unfold yWord sbWord; omega), if_neg (by decide), if_pos rfl]

theorem counted_start (mem : ℕ → BitVec 32) :
    Function.update mem sbWord 0x110 = counted mem 8 (mem argWord) := by
  funext k
  unfold counted
  rw [if_neg (by omega), Function.update_apply]
  by_cases ha : k = argWord
  · rw [if_pos ha, ha, if_neg (by decide)]
  · rw [if_neg ha]

theorem counted_push : Function.update (counted mem i a) argWord v = counted mem i v := by
  funext k
  by_cases ha : k = argWord
  · rw [ha, Function.update_self, counted_arg]
  · unfold counted
    rw [Function.update_of_ne ha, if_neg ha, if_neg ha]

theorem counted_store (hi : i < 8) :
    Function.update (counted mem (i + 1) a) (yWord + i) (mem (xWord + i)).cpop =
      counted mem i a := by
  funext k
  by_cases hk : k = yWord + i
  · rw [hk, Function.update_self, counted_y (le_refl i) hi]
  · unfold counted
    rw [Function.update_of_ne hk]
    simp only [show yWord + (i + 1) ≤ k ∧ k < yWord + 8 ↔ yWord + i ≤ k ∧ k < yWord + 8 by omega]

end Counted

theorem ofNat_dec (i : ℕ) : BitVec.ofNat 32 (i + 1) - 1 = BitVec.ofNat 32 i := by
  rw [← ofNat_inc, BitVec.add_sub_cancel]

variable {i : ℕ} {a : BitVec 32}

/-- **One turn of `main`**: a call of `f`. -/
theorem turn_runs (hi : i < 8) (h4 : x.r4 = BitVec.ofNat 32 (i + 1)) (h5 : x.r5 = addr mainWord) :
    ∃ x', x'.r4 = BitVec.ofNat 32 i ∧ x'.r5 = addr mainWord ∧
      bitCount.RunsIn Written ⟨main_loop, x, counted mem (i + 1) a⟩
        ⟨main_loop, x', counted mem i (mem (xWord + i))⟩ := by
  obtain ⟨r0, r1, r2, r3, r4, r5, r6, r7⟩ := x
  dsimp only at h4 h5
  subst h4 h5
  have hmore : BitVec.ofNat 32 (i + 1) ≠ 0 := fun h => by
    have := congrArg BitVec.toNat h
    rw [BitVec.toNat_ofNat] at this
    change (i + 1) % 2 ^ 32 = 0 at this
    omega
  have hx : xWord + i < memSize / 4 := by unfold xWord memSize; omega
  have hy : yWord + i < memSize / 4 := by unfold yWord memSize; omega
  let v := mem (xWord + i)
  let state (pc : ℕ) (r0 r4 r5 : BitVec 32) : Core :=
    ⟨pc, ⟨r0, r1, r2, r3, r4, r5, r6, r7⟩, counted mem (i + 1) a⟩
  obtain ⟨⟨r0', r1', r2', r3', r4', r5', r6', r7'⟩, h0, h4, h5, hf⟩ :=
    f_runs (counted mem (i + 1) v)
      (x := ⟨v, r1, r2, r3, BitVec.ofNat 32 i, addr argWord, 0x158, r7⟩) rfl
  dsimp only at h0 h4 h5
  rw [counted_arg] at h0
  subst h0 h4 h5
  refine ⟨⟨v.cpop, addr yWord, r2', r3', BitVec.ofNat 32 i, addr mainWord, r6', r7'⟩, rfl, rfl, ?_⟩
  refine .beq_next rfl hmore ?_
  refine .steps 2 (state 0x14a (addr xWord) (BitVec.ofNat 32 (i + 1) - 1) (addr mainWord)) rfl ?_
  rw [ofNat_dec]
  refine .ldx (state 0x14c v (BitVec.ofNat 32 i) (addr mainWord)) rfl rfl rfl hx (counted_x hi) rfl
    ?_
  refine .steps 1 (state 0x14e v (BitVec.ofNat 32 i) (addr mainWord - 4)) rfl ?_
  rw [show addr mainWord - 4 = addr argWord from push argWord]
  refine .st ⟨0x150, _, counted mem (i + 1) v⟩ rfl rfl (by decide) (by decide)
    (.inr ⟨by decide, by decide⟩) (congrArg (Core.mk _ _) counted_push) ?_
  refine .steps 2 _ rfl (hf.trans ?_)
  refine .steps 2 ⟨0x160, ⟨v.cpop, addr yWord, r2', r3', BitVec.ofNat 32 i, addr argWord + 4, r6',
    r7'⟩, _⟩ rfl ?_
  rw [show addr argWord + 4 = addr mainWord from pop argWord]
  refine .stx ⟨0x162, _, counted mem i v⟩ rfl rfl rfl hy ?_ (.inl ⟨by omega, by omega⟩)
    (congrArg (Core.mk _ _) (counted_store hi)) ?_
  · right
    change 0x16c ≤ 4 * (yWord + i)
    unfold yWord
    omega
  · exact .steps 1 _ rfl (.refl _)

/-- **The loop of `main`**, with `i` words to go. -/
theorem turns_runs (hi : i ≤ 8) (h4 : x.r4 = BitVec.ofNat 32 i) (h5 : x.r5 = addr mainWord) :
    ∃ x' a', x'.r4 = 0 ∧ x'.r5 = addr mainWord ∧
      bitCount.RunsIn Written ⟨main_loop, x, counted mem i a⟩
        ⟨main_loop, x', counted mem 0 a'⟩ := by
  induction i generalizing x a with
  | zero => exact ⟨x, a, h4, h5, .refl _⟩
  | succ i ih =>
    obtain ⟨x₁, h4₁, h5₁, h₁⟩ := turn_runs mem (a := a) hi h4 h5
    obtain ⟨x', a', h4', h5', h₂⟩ := ih (a := mem (xWord + i)) (Nat.le_of_succ_le hi) h4₁ h5₁
    exact ⟨x', a', h4', h5', h₁.trans h₂⟩

theorem start_runs (x : Registers) :
    ∃ x', x'.r5 = addr topWord ∧ x'.r6 = 0x110 ∧
      bitCount.RunsIn Written ⟨0x100, x, mem⟩ ⟨main, x', mem⟩ := by
  obtain ⟨r0, r1, r2, r3, r4, r5, r6, r7⟩ := x
  refine ⟨⟨r0, r1, r2, r3, r4, addr sbWord + 4, 0x110, r7⟩, pop sbWord, rfl, ?_⟩
  exact .steps 4 _ rfl (.refl _)

/-- **`main`**, from its call to its return. -/
theorem main_runs (h5 : x.r5 = addr topWord) (h6 : x.r6 = 0x110) :
    ∃ x' a, x'.r5 = addr topWord ∧
      bitCount.RunsIn Written ⟨main, x, mem⟩ ⟨0x110, x', counted mem 0 a⟩ := by
  obtain ⟨r0, r1, r2, r3, r4, r5, r6, r7⟩ := x
  dsimp only at h5 h6
  subst h5 h6
  obtain ⟨⟨r0', r1', r2', r3', r4', r5', r6', r7'⟩, a, h4, h5, hloop⟩ := turns_runs mem
    (a := mem argWord) (x := ⟨r0, r1, r2, r3, 8, addr mainWord, 0x110, r7⟩) (le_refl 8) rfl rfl
  dsimp only at h4 h5
  subst h4 h5
  have hdown : addr topWord - 4 - 4 = addr mainWord := by
    rw [show addr topWord - 4 = addr sbWord from push sbWord]
    exact push mainWord
  have hup : addr mainWord + 4 + 4 = addr topWord := by
    rw [show addr mainWord + 4 = addr sbWord from pop mainWord]
    exact pop sbWord
  refine ⟨⟨r0', r1', r2', r3', 0, addr mainWord + 4 + 4, 0x110, r7'⟩, a, hup, ?_⟩
  refine .steps 2 ⟨0x138, ⟨r0, r1, r2, r3, r4, addr topWord - 4 - 4, 0x110, r7⟩, mem⟩ rfl ?_
  rw [hdown]
  refine .st ⟨0x13a, _, counted mem 8 (mem argWord)⟩ rfl rfl (by decide) (by decide)
    (.inr ⟨by decide, by decide⟩) (congrArg (Core.mk _ _) (counted_start mem)) ?_
  refine .steps 1 _ rfl (hloop.trans ?_)
  refine .beq_taken rfl rfl ?_
  refine .ld ⟨0x166, ⟨r0', r1', r2', r3', 0, addr mainWord, 0x110, r7'⟩, _⟩ rfl rfl (by decide)
    (show counted mem 0 a (mainWord + 1) = 0x110 from counted_sb) rfl ?_
  exact .steps 3 _ rfl (.refl _)

/-- **The whole program.** -/
theorem bitCount_runs (x : Registers) :
    ∃ x' a, x'.r5 = addr topWord ∧
      bitCount.RunsIn Written ⟨0x100, x, mem⟩ ⟨0x110, x', counted mem 0 a⟩ := by
  obtain ⟨x₁, h5, h6, h₁⟩ := start_runs mem x
  obtain ⟨x', a, h5', h₂⟩ := main_runs mem h5 h6
  exact ⟨x', a, h5', h₁.trans h₂⟩

/-! ## The program in the simulator -/

variable {W : Type}

/-- The arrays of the C program. -/
def array (mem : Memory memSize) (b : ℕ) : ℤ → BitVec 32 := fun i => word mem (b + i.toNat)

/-- What the program does from `m` to `m'`. -/
structure Counts (ext : Externals memSize W) (m m' : Machine memSize W) : Prop where
  counts : ∀ k < 8, word m'.mem (yWord + k) = (word m.mem (xWord + k)).cpop
  unchanged : ∀ k < 8, word m'.mem (xWord + k) = word m.mem (xWord + k)
  /-- The stack pointer when `main` is entered, and in the end. -/
  entry : ∃ m₁, Reaches ext m m₁ ∧ m₁.core.pc = main ∧ m₁.core.reg.r5 = addr topWord
  pointer : m'.core.reg.r5 = addr topWord
  /-- What it writes on the way. -/
  writes : ∀ m₁, Reaches ext m m₁ → (∀ k, bitCount.target m₁.core = some k → Written k) ∧
    ∀ k, ¬Written k → word m₁.mem k = word m.mem k
  /-- The functions in C. -/
  f_eq : ∀ fuel, 32 < fuel → ∀ k < 8,
    C.f fuel (word m.mem (xWord + k)) = some (word m'.mem (yWord + k))
  main_eq : ∀ fuel, 32 < fuel → ∃ ys out,
    C.main fuel (array m.mem xWord) (array m.mem yWord) = some (ys, out) ∧
      ∀ k < 8, ys (k : ℕ) = word m'.mem (yWord + k)

/-- **The bit counter is correct.** -/
theorem bitCount_correct (ext : Externals memSize W) {m : Machine memSize W} (hpc : m.pc = 0x100)
    (hcode : Loaded bitCount m.mem) : ∃ m', Switch.Compute ext m m' ∧ Counts ext m m' := by
  have hcore : m.core = ⟨0x100, .ofRegs m.reg, word m.mem⟩ := by
    unfold Machine.core
    rw [hpc]
    rfl
  obtain ⟨x₁, h5₁, -, hentry⟩ := start_runs (word m.mem) (.ofRegs m.reg)
  obtain ⟨x', a, h5, hruns⟩ := bitCount_runs (word m.mem) (.ofRegs m.reg)
  rw [← hcore] at hentry hruns
  obtain ⟨m₁, hcycles, hm₁, -⟩ := hentry.runs.sim ext hcode
  obtain ⟨m', hcompute, hm'⟩ := hruns.runs.compute ext hcode rfl
  have hword : word m'.mem = counted (word m.mem) 0 a := congrArg Core.mem hm'
  have hcount : ∀ k < 8, word m'.mem (yWord + k) = (word m.mem (xWord + k)).cpop := fun k hk => by
    rw [hword, counted_y k.zero_le hk]
  refine ⟨m', hcompute, hcount, fun k hk => by rw [hword, counted_x hk],
    ⟨m₁, hcycles.reaches, congrArg Core.pc hm₁, by rw [hm₁]; exact h5₁⟩, by rw [hm']; exact h5,
    fun m₁ hm₁ => hruns.writes hcode rfl hm₁, fun fuel hfuel k hk => ?_, fun fuel hfuel => ?_⟩
  · rw [C.f_eq hfuel, hcount k hk]
  · obtain ⟨ys, hmain, hys⟩ := C.main_eq hfuel (array m.mem xWord) (array m.mem yWord)
    refine ⟨ys, _, hmain, fun k hk => ?_⟩
    rw [hys k (by omega) (by omega), hcount k hk]
    rfl

/-- The machine with the program and the data of the file. -/
def fileMachine : Machine memSize Unit :=
  { Machine.initial () with
    pc := 0x100
    mem := bitCount.image fun k =>
      if k < xWord then 0 else [1, 2, 3, -1, -2, 0, 184, 340057058].getD (k - xWord) 0 }

theorem bitCount_correct_file :
    ∃ m', Switch.Compute noCalls fileMachine m' ∧ Counts noCalls fileMachine m' :=
  bitCount_correct noCalls rfl (by decide +kernel)

end IntroSystems.SM213.BitCount
