import IntroSystems.SM213.Shellcode

/-!
# A buffer that overflows

`vuln.s`: `main` reads up to 256 bytes into a buffer of 128, with its return address behind.

* `binary`: the code, with the labels resolved. `data`: its strings.
* `print_runs`, `main_runs`, `proof_runs`: the functions. `main` returns to `returnAddress`.
* **`input_decides`**: inputs that fit, and inputs that give a return address.
* **`input_executed`**: inputs with code, and its address.
-/

set_option autoImplicit false

namespace IntroSystems.SM213.Overflow

open Reg CString

def main : ℕ := 0x1010
def print : ℕ := 0x1070
def proof : ℕ := 0x1800

/-- The words of the globals, the end of the stack and the slots of a frame. -/
def str1 : ℕ := 0x2000 / 4
def str2 : ℕ := 0x2028 / 4
def str3 : ℕ := 0x203c / 4
def stacktop : ℕ := 0x4200 / 4
def slot : ℕ := 0x41fc / 4
def buf : ℕ := 0x417c
def argument : ℕ := 0x4178 / 4

/-- `vuln.s`, without the calls. -/
def program : Program where
  code :=
    [(0x1000, [.ldi (addr stacktop) r5, .gpc 3 r6, .j main, .halt]),
      (main, [.deca r5, .st r6 0 r5, .ldi (-128) r0, .add r0 r5, .deca r5, .ldi (addr str1) r0,
        .st r0 0 r5, .gpc 3 r6, .j print, .inca r5, .ldi 0 r0, .mov r5 r1, .ldi 256 r2]),
      (0x1040, [.mov r0 r4, .deca r5, .ldi (addr str2) r0, .st r0 0 r5, .gpc 3 r6, .j print,
        .inca r5, .ldi 1 r0, .mov r5 r1, .mov r4 r2]),
      (0x1062, [.ldi 128 r0, .add r0 r5, .ld 0 r5 r6, .inca r5, .jr r6]),
      (print, [.ld 0 r5 r0, .ld 1 r0 r1, .ld 0 r0 r2, .ldi 1 r0]),
      (0x107e, [.jr r6]),
      (proof, [.deca r5, .ldi (addr str3) r0, .st r0 0 r5, .gpc 3 r6, .j print, .halt])]
  lo := 0x1000
  hi := 0x1814
  hi_le := by decide
  fits := by decide

/-- `vuln.s`. -/
def binary : Binary where
  program := program
  calls := [(0x103e, .read), (0x1060, .write), (0x107c, .write)]
  inside := by decide
  aligned := by decide

theorem read_mem : (0x103e, Call.read) ∈ binary.calls := by decide

theorem write_mem : (0x1060, Call.write) ∈ binary.calls := by decide

theorem print_mem : (0x107c, Call.write) ∈ binary.calls := by decide

/-- The words from `str1` on. -/
def data : List (BitVec 32) :=
  [30, 0x2008, 0x57656c63, 0x6f6d6521, 0x20506c65, 0x61736520, 0x656e7465, 0x72206120, 0x6e616d65,
    0x3a0a0000, 11, 0x2030, 0x476f6f64, 0x206c7563, 0x6b2c2000, 43, 0x2044, 0x54686520, 0x73656372,
    0x65742070, 0x68726173, 0x65206973, 0x20227371, 0x7565616d, 0x69736820, 0x6f737369, 0x66726167,
    0x65220a00]

def text (s : String) : List (BitVec 8) := s.toList.map ch

def welcome : List (BitVec 8) := text "Welcome! Please enter a name:\n"
def luck : List (BitVec 8) := text "Good luck, "
def secret : List (BitVec 8) := text "The secret phrase is \"squeamish ossifrage\"\n"

/-- The strings are in memory. -/
def Holds (mem : ℕ → BitVec 32) : Prop := ∀ i < 28, mem (str1 + i) = data.getD i 0

variable {mem : ℕ → BitVec 32} {x : Registers} {w : Console} {a count s k : ℕ}

/-! ## The subroutine -/

/-- **`print`**, with its argument on top of the stack. -/
theorem print_runs (h5 : x.r5 = addr k) (hk : k < memSize / 4) (harg : mem k = addr s)
    (hs : s + 1 < memSize / 4) (hlen : mem s = BitVec.ofNat 32 count)
    (hstr : mem (s + 1) = BitVec.ofNat 32 a) (hfit : a + count ≤ memSize) :
    ∃ x', x'.r4 = x.r4 ∧ x'.r5 = x.r5 ∧ binary.Runs (⟨print, x, mem⟩, w)
      (⟨x.r6.toNat, x', mem⟩, { w with output := w.output ++ bytesIn mem a count }) := by
  obtain ⟨r0, r1, r2, r3, r4, r5, r6, r7⟩ := x
  obtain rfl : r5 = addr k := h5
  have hcount : count < 2 ^ 32 := by unfold memSize at hfit; omega
  refine ⟨⟨BitVec.ofNat 32 count, BitVec.ofNat 32 a, BitVec.ofNat 32 count, r3, r4, addr k, r6, r7⟩,
    rfl, rfl, ?_⟩
  have hload : program.Runs ⟨print, ⟨r0, r1, r2, r3, r4, addr k, r6, r7⟩, mem⟩
      ⟨0x107c, ⟨1, BitVec.ofNat 32 a, BitVec.ofNat 32 count, r3, r4, addr k, r6, r7⟩, mem⟩ := by
    refine .ld ⟨0x1072, ⟨addr s, r1, r2, r3, r4, addr k, r6, r7⟩, mem⟩ rfl rfl hk harg rfl ?_
    refine .ld ⟨0x1074, ⟨addr s, BitVec.ofNat 32 a, r2, r3, r4, addr k, r6, r7⟩, mem⟩ rfl rfl hs
      hstr rfl ?_
    refine .ld ⟨0x1076, ⟨addr s, BitVec.ofNat 32 a, BitVec.ofNat 32 count, r3, r4, addr k, r6, r7⟩,
      mem⟩ rfl rfl (by omega) hlen rfl ?_
    exact .steps 1 _ rfl (.refl _)
  refine .block hload (.call .write print_mem (Call.run_write rfl rfl rfl hcount hfit) ?_)
  exact .block (.steps 1 _ rfl (.refl _)) .refl

/-! ## Strings -/

theorem Holds.bytesIn {mem' : ℕ → BitVec 32} (h : Holds mem)
    (hsame : ∀ k, str1 ≤ k → k < str1 + 28 → mem' k = mem k) (ha : 4 * str1 ≤ a)
    (hend : a + count ≤ 4 * (str1 + 28)) :
    SM213.bytesIn mem' a count = SM213.bytesIn (fun k => data.getD (k - str1) 0) a count := by
  refine bytesIn_congr fun k h₁ h₂ => ?_
  obtain ⟨i, rfl⟩ := Nat.exists_eq_add_of_le (show str1 ≤ k by omega)
  rw [hsame _ (by omega) (by omega), h i (by omega), Nat.add_sub_cancel_left]

theorem welcome_eq : bytesIn (fun k => data.getD (k - str1) 0) 0x2008 30 = welcome := by decide

theorem luck_eq : bytesIn (fun k => data.getD (k - str1) 0) 0x2030 11 = luck := by decide

theorem secret_eq : bytesIn (fun k => data.getD (k - str1) 0) 0x2044 43 = secret := by decide

/-! ## The function -/

/-- The return address of `main`, after `bs` was read. -/
def returnAddress (bs : List (BitVec 8)) : BitVec 32 := overwriteWords (fun _ => 0x100e) buf bs slot

/-- The frame of `main`, before the input. -/
def entered (mem : ℕ → BitVec 32) : ℕ → BitVec 32 :=
  Function.update (Function.update mem slot 0x100e) argument (addr str1)

/-- The frame of `main`, when it returns. -/
def framed (mem : ℕ → BitVec 32) (bs : List (BitVec 8)) : ℕ → BitVec 32 :=
  Function.update (overwriteWords (entered mem) buf bs) argument (addr str2)

theorem framed_slot (mem : ℕ → BitVec 32) (bs : List (BitVec 8)) :
    framed mem bs slot = returnAddress bs := by
  unfold framed
  rw [Function.update_of_ne (by decide)]
  exact overwriteWords_congr rfl

theorem entered_global (hk : k < argument) : entered mem k = mem k := by
  have hslot : argument < slot := by decide
  unfold entered
  rw [Function.update_of_ne (by omega), Function.update_of_ne (by omega)]

theorem framed_global {bs : List (BitVec 8)} (hk : k < argument) : framed mem bs k = mem k := by
  have hbuf : 4 * argument + 4 = buf := by decide
  unfold framed
  rw [Function.update_of_ne (by omega), overwriteWords_of_not (by omega)]
  exact entered_global hk

theorem framed_buf (mem : ℕ → BitVec 32) (bs : List (BitVec 8)) :
    bytesIn (framed mem bs) buf bs.length = bs := by
  have hbuf : 4 * argument + 4 = buf := by decide
  have hsame : bytesIn (framed mem bs) buf bs.length =
      bytesIn (overwriteWords (entered mem) buf bs) buf bs.length :=
    bytesIn_congr fun k h₁ h₂ => Function.update_of_ne (by omega) _ _
  exact hsame.trans bytesIn_overwriteWords

/-- Up to the first call of `print`. -/
theorem start_runs (x : Registers) (mem : ℕ → BitVec 32) :
    ∃ x', x'.r5 = addr argument ∧ x'.r6 = 0x102e ∧
      program.Runs ⟨0x1000, x, mem⟩ ⟨print, x', entered mem⟩ := by
  obtain ⟨r0, r1, r2, r3, r4, r5, r6, r7⟩ := x
  let bottom : BitVec 32 := addr stacktop - 4
  let top : BitVec 32 := -128 + bottom - 4
  have htop : top = addr argument := by decide
  refine ⟨⟨addr str1, r1, r2, r3, r4, top, 0x102e, r7⟩, htop, rfl, ?_⟩
  refine .steps 4 ⟨0x1012, ⟨r0, r1, r2, r3, r4, bottom, 0x100e, r7⟩, mem⟩ rfl ?_
  refine .st ⟨0x1014, ⟨r0, r1, r2, r3, r4, bottom, 0x100e, r7⟩, Function.update mem slot 0x100e⟩ rfl
    rfl (by decide) (by decide) rfl ?_
  refine .steps 4 ⟨0x1024, ⟨addr str1, r1, r2, r3, r4, top, 0x100e, r7⟩, _⟩ rfl ?_
  refine .st ⟨0x1026, ⟨addr str1, r1, r2, r3, r4, top, 0x100e, r7⟩, entered mem⟩ rfl htop (by decide)
    (by decide) rfl ?_
  exact .steps 2 _ rfl (.refl _)

/-- After `print`, up to the call of `read`. -/
theorem ask_runs {x : Registers} (h5 : x.r5 = addr argument) (mem : ℕ → BitVec 32) :
    ∃ x', x'.r0 = 0 ∧ x'.r1 = BitVec.ofNat 32 buf ∧ x'.r2 = BitVec.ofNat 32 256 ∧
      x'.r5 = addr argument + 4 ∧ program.Runs ⟨0x102e, x, mem⟩ ⟨0x103e, x', mem⟩ := by
  obtain ⟨r0, r1, r2, r3, r4, r5, r6, r7⟩ := x
  obtain rfl : r5 = addr argument := h5
  refine ⟨⟨0, addr argument + 4, 256, r3, r4, addr argument + 4, r6, r7⟩, rfl, rfl, rfl, rfl, ?_⟩
  exact .steps 4 _ rfl (.refl _)

/-- After `read`, up to the second call of `print`. -/
theorem greet_runs {x : Registers} (h5 : x.r5 = addr argument + 4) (mem : ℕ → BitVec 32) :
    ∃ x', x'.r4 = x.r0 ∧ x'.r5 = addr argument ∧ x'.r6 = 0x1054 ∧
      program.Runs ⟨0x1040, x, mem⟩
        ⟨print, x', Function.update mem argument (addr str2)⟩ := by
  obtain ⟨r0, r1, r2, r3, r4, r5, r6, r7⟩ := x
  obtain rfl : r5 = addr argument + 4 := h5
  let top : BitVec 32 := addr argument + 4 - 4
  have htop : top = addr argument := by decide
  refine ⟨⟨addr str2, r1, r2, r3, r0, top, 0x1054, r7⟩, rfl, htop, rfl, ?_⟩
  refine .steps 3 ⟨0x104a, ⟨addr str2, r1, r2, r3, r0, top, r6, r7⟩, mem⟩ rfl ?_
  refine .st ⟨0x104c, ⟨addr str2, r1, r2, r3, r0, top, r6, r7⟩, _⟩ rfl htop (by decide) (by decide)
    rfl ?_
  exact .steps 2 _ rfl (.refl _)

/-- After `print`, up to the call of `write`. -/
theorem echo_runs {x : Registers} (h5 : x.r5 = addr argument) (mem : ℕ → BitVec 32) :
    ∃ x', x'.r0 = 1 ∧ x'.r1 = BitVec.ofNat 32 buf ∧ x'.r2 = x.r4 ∧ x'.r5 = addr argument + 4 ∧
      program.Runs ⟨0x1054, x, mem⟩ ⟨0x1060, x', mem⟩ := by
  obtain ⟨r0, r1, r2, r3, r4, r5, r6, r7⟩ := x
  obtain rfl : r5 = addr argument := h5
  refine ⟨⟨1, addr argument + 4, r4, r3, r4, addr argument + 4, r6, r7⟩, rfl, rfl, rfl, rfl, ?_⟩
  exact .steps 4 _ rfl (.refl _)

/-- After `write`, up to the end of `main`. -/
theorem return_runs {x : Registers} {v : BitVec 32} (h5 : x.r5 = addr argument + 4)
    (hv : mem slot = v) : ∃ x', x'.r5 = addr stacktop ∧
      program.Runs ⟨0x1062, x, mem⟩ ⟨v.toNat, x', mem⟩ := by
  obtain ⟨r0, r1, r2, r3, r4, r5, r6, r7⟩ := x
  obtain rfl : r5 = addr argument + 4 := h5
  let bottom : BitVec 32 := 128 + (addr argument + 4)
  refine ⟨⟨128, r1, r2, r3, r4, bottom + 4, v, r7⟩, rfl, ?_⟩
  refine .steps 2 ⟨0x106a, ⟨128, r1, r2, r3, r4, bottom, r6, r7⟩, mem⟩ rfl ?_
  refine .ld (k := slot) ⟨0x106c, ⟨128, r1, r2, r3, r4, bottom, v, r7⟩, mem⟩ rfl rfl (by decide) hv
    rfl ?_
  exact .steps 2 _ rfl (.refl _)

theorem Holds.entered (h : Holds mem) : Holds (entered mem) := fun i hi =>
  (entered_global (by unfold str1 argument; omega)).trans (h i hi)

theorem Holds.framed (h : Holds mem) (bs : List (BitVec 8)) : Holds (framed mem bs) := fun i hi =>
  (framed_global (by unfold str1 argument; omega)).trans (h i hi)

theorem Holds.print_runs {j : ℕ} {str : List (BitVec 8)} (h : Holds mem) (h5 : x.r5 = addr k)
    (hk : k < memSize / 4) (harg : mem k = addr (str1 + j)) (hj : j + 1 < 28)
    (hlen : data.getD j 0 = BitVec.ofNat 32 count) (hstr : data.getD (j + 1) 0 = BitVec.ofNat 32 a)
    (ha : 4 * str1 ≤ a) (hend : a + count ≤ 4 * (str1 + 28))
    (htext : SM213.bytesIn (fun k => data.getD (k - str1) 0) a count = str) :
    ∃ x', x'.r4 = x.r4 ∧ x'.r5 = x.r5 ∧ binary.Runs (⟨print, x, mem⟩, w)
      (⟨x.r6.toNat, x', mem⟩, { w with output := w.output ++ str }) := by
  have hbytes : SM213.bytesIn mem a count = str := (h.bytesIn (fun _ _ _ => rfl) ha hend).trans htext
  have hmem : 4 * (str1 + 28) ≤ memSize := by decide
  rw [← hbytes]
  exact Overflow.print_runs h5 hk harg (by omega) ((h j (by omega)).trans hlen)
    ((h (j + 1) hj).trans hstr) (by omega)

variable {bs : List (BitVec 8)} {rest : List (List (BitVec 8))}

/-- **`main` returns** to the address that it finds. -/
theorem main_runs (x : Registers) (h : Holds mem) (hin : w.input = bs :: rest)
    (hlen : bs.length ≤ 256) : ∃ x', x'.r5 = addr stacktop ∧
      binary.Runs (⟨0x1000, x, mem⟩, w) (⟨(returnAddress bs).toNat, x', framed mem bs⟩,
        ⟨rest, w.output ++ welcome ++ luck ++ bs, w.allow, w.commands⟩) := by
  have hslots : argument < memSize / 4 := by decide
  obtain ⟨x₁, h5₁, h6₁, hstart⟩ := start_runs x mem
  obtain ⟨x₂, -, h5₂, hprint⟩ := h.entered.print_runs (w := w) (j := 0) h5₁ hslots rfl (by decide)
    rfl rfl (by decide) (by decide) welcome_eq
  rw [h6₁] at hprint
  obtain ⟨x₃, h0₃, h1₃, h2₃, h5₃, hask⟩ := ask_runs (h5₂.trans h5₁) (entered mem)
  let x₄ := x₃.set (BitVec.ofNat 32 bs.length) .r0
  obtain ⟨x₅, h4₅, h5₅, h6₅, hgreet⟩ := greet_runs (x := x₄) h5₃ (overwriteWords (entered mem) buf bs)
  obtain ⟨x₆, h4₆, h5₆, hprint'⟩ := (h.framed bs).print_runs
    (w := ⟨rest, w.output ++ welcome, w.allow, w.commands⟩) (j := 10) h5₅ hslots
    (Function.update_self _ _ _) (by decide) rfl rfl (by decide) (by decide) luck_eq
  rw [h6₅] at hprint'
  obtain ⟨x₇, h0₇, h1₇, h2₇, h5₇, hecho⟩ := echo_runs (h5₆.trans h5₅) (framed mem bs)
  have hcount : x₇.r2 = BitVec.ofNat 32 bs.length := h2₇.trans (h4₆.trans h4₅)
  obtain ⟨x₈, h5₈, hreturn⟩ := return_runs (x := x₇.set (BitVec.ofNat 32 bs.length) .r0) h5₇
    (framed_slot mem bs)
  have hfits : buf + 256 ≤ memSize := by decide
  have hread := Call.run_read (P := program) (c := ⟨0x103e, x₃, entered mem⟩)
    (w := { w with output := w.output ++ welcome }) h0₃ h1₃ h2₃ (by decide) hin hlen
    (by omega) (by decide)
  have hwrite := Call.run_write (P := program) (c := ⟨0x1060, x₇, framed mem bs⟩)
    (w := ⟨rest, w.output ++ welcome ++ luck, w.allow, w.commands⟩) h0₇ h1₇ hcount (by omega)
    (by omega)
  rw [framed_buf] at hwrite
  refine ⟨x₈, h5₈, ?_⟩
  refine .block hstart (hprint.trans ?_)
  refine .block hask (.call .read read_mem hread ?_)
  refine .block hgreet (hprint'.trans ?_)
  refine .block hecho (.call .write write_mem hwrite ?_)
  exact .block hreturn .refl

/-- **`proof`** tells the secret. -/
theorem proof_runs (h : Holds mem) (h5 : x.r5 = addr stacktop) : ∃ x' mem',
    binary.Runs (⟨proof, x, mem⟩, w)
      (⟨0x1812, x', mem'⟩, { w with output := w.output ++ secret }) := by
  have hglobals : ∀ i < 28, str1 + i ≠ slot := by decide
  have h' : Holds (Function.update mem slot (addr str3)) := fun i hi =>
    (Function.update_of_ne (hglobals i hi) _ _).trans (h i hi)
  obtain ⟨r0, r1, r2, r3, r4, r5, r6, r7⟩ := x
  obtain rfl : r5 = addr stacktop := h5
  let bottom : BitVec 32 := addr stacktop - 4
  have hbottom : bottom = addr slot := by decide
  have hstart : program.Runs ⟨proof, ⟨r0, r1, r2, r3, r4, addr stacktop, r6, r7⟩, mem⟩
      ⟨print, ⟨addr str3, r1, r2, r3, r4, bottom, 0x1812, r7⟩,
        Function.update mem slot (addr str3)⟩ := by
    refine .steps 2 ⟨0x1808, ⟨addr str3, r1, r2, r3, r4, bottom, r6, r7⟩, mem⟩ rfl ?_
    refine .st ⟨0x180a, ⟨addr str3, r1, r2, r3, r4, bottom, r6, r7⟩, _⟩ rfl hbottom (by decide)
      (by decide) rfl ?_
    exact .steps 2 _ rfl (.refl _)
  obtain ⟨x', -, -, hprint⟩ := h'.print_runs (w := w) (j := 15)
    (x := ⟨addr str3, r1, r2, r3, r4, bottom, 0x1812, r7⟩) hbottom (by decide)
    (Function.update_self _ _ _) (by decide) rfl rfl (by decide) (by decide) secret_eq
  exact ⟨x', _, .block hstart hprint⟩

/-! ## In the simulator -/

/-- The program was loaded. -/
structure Started (m : Machine memSize Console) : Prop where
  pc : m.pc = 0x1000
  code : binary.Loaded m.mem
  data : Holds (word m.mem)

/-- The console after `main`, for the input `bs`. -/
def told (w : Console) (bs : List (BitVec 8)) (rest : List (List (BitVec 8))) : Console :=
  ⟨rest, w.output ++ welcome ++ luck ++ bs, w.allow, w.commands⟩

variable {m : Machine memSize Console}

theorem Started.runs (h : Started m) (hin : m.world.input = bs :: rest) (hlen : bs.length ≤ 256) :
    ∃ x', x'.r5 = addr stacktop ∧ binary.Runs (m.core, m.world)
      (⟨(returnAddress bs).toNat, x', framed (word m.mem) bs⟩, told m.world bs rest) := by
  obtain ⟨x', h5, hruns⟩ := main_runs (Registers.ofRegs m.reg) h.data hin hlen
  have hcore : m.core = ⟨0x1000, .ofRegs m.reg, word m.mem⟩ := by
    unfold Machine.core
    rw [h.pc]
    rfl
  rw [hcore]
  exact ⟨x', h5, hruns⟩

theorem Started.reaches (h : Started m) (hin : m.world.input = bs :: rest)
    (hlen : bs.length ≤ 256) : ∃ m', Reaches console m m' ∧ m'.pc = returnAddress bs ∧
      word m'.mem = framed (word m.mem) bs ∧ m'.world = told m.world bs rest ∧ m'.out = m.out := by
  obtain ⟨x', -, hruns⟩ := h.runs hin hlen
  obtain ⟨m', hreach, hs, hout, -⟩ := hruns.sim h.code
  obtain ⟨hcore, hworld⟩ := Prod.mk.inj hs
  exact ⟨m', hreach, BitVec.eq_of_toNat_eq (congrArg Core.pc hcore), congrArg Core.mem hcore, hworld,
    hout⟩

theorem returnAddress_of_le (h : bs.length ≤ 128) : returnAddress bs = 0x100e := by
  have hslot : buf + 128 = 4 * slot := by decide
  exact overwriteWords_of_not (.inr (by omega))

theorem returnAddress_append {pre post : List (BitVec 8)} {v : BitVec 32} (hpre : pre.length = 128) :
    returnAddress (pre ++ bytesOf v ++ post) = v := by
  refine overwriteWords_of_append ?_
  rw [hpre]
  decide

/-- **The input decides where `main` returns**: to its caller, if it fits in the buffer, and to the
word behind the buffer, if there is one. At `proof` it tells the secret. -/
theorem input_decides (h : Started m) (hin : m.world.input = bs :: rest) (hlen : bs.length ≤ 256) :
    (bs.length ≤ 128 → ∃ m', Switch.Compute console m m' ∧ m'.world = told m.world bs rest ∧
      m'.out = m.out) ∧
    ∀ pre v post, bs = pre ++ bytesOf v ++ post → pre.length = 128 →
      (∃ m', Reaches console m m' ∧ m'.pc = v ∧ m'.world = told m.world bs rest ∧
        m'.out = m.out) ∧
      (v = 0x1800 → ∃ m', Switch.Compute console m m' ∧ m'.world.commands = m.world.commands ∧
        m'.world.output = m.world.output ++ welcome ++ luck ++ bs ++ secret ∧ m'.out = m.out) := by
  obtain ⟨x', h5, hruns⟩ := h.runs hin hlen
  refine ⟨fun hfits => ?_, fun pre v post hbs hpre => ?_⟩
  · rw [returnAddress_of_le hfits] at hruns
    exact hruns.compute h.code rfl
  · obtain ⟨m', hreach, hpc, -, hworld, hout⟩ := h.reaches hin hlen
    have hv : returnAddress bs = v := by
      rw [hbs]
      exact returnAddress_append hpre
    refine ⟨⟨m', hreach, hpc.trans hv, hworld, hout⟩, fun hproof => ?_⟩
    rw [hv, hproof] at hruns
    obtain ⟨x'', mem', hrest⟩ := proof_runs (w := told m.world bs rest) (h.data.framed bs) h5
    obtain ⟨m'', hstop, hworld', hout'⟩ := (hruns.trans hrest).compute h.code rfl
    refine ⟨m'', hstop, ?_, ?_, hout'⟩
    · rw [hworld']
      rfl
    · rw [hworld']
      rfl

theorem bytesIn_part {j size : ℕ} (h : j + count ≤ size) :
    bytesIn mem (a + j) count = ((bytesIn mem a size).drop j).take count := by
  refine List.ext_getElem (by simp [bytesIn]; omega) fun i hi hi' => ?_
  simp [bytesIn, Nat.add_assoc]

/-- **Code in the input is executed**, if the word behind the buffer is its address: it asks for a
shell. -/
theorem input_executed (h : Started m) (hin : m.world.input = bs :: rest) (hlen : bs.length ≤ 256)
    {pre post : List (BitVec 8)} {j : ℕ} (hbs : bs = pre ++ bytesOf (BitVec.ofNat 32 (buf + j)) ++ post)
    (hpre : pre.length = 128) (hcode : (bs.drop j).take shellcode.length = shellcode) :
    (m.world.allow = some "1" → ∃ m', Switch.Compute console m m' ∧
      m'.world.commands = m.world.commands ++ [binSh] ∧ m'.out = m.out) ∧
    (m.world.allow ≠ some "1" → ∃ m', Switch.Compute console m m' ∧
      m'.world.commands = m.world.commands ∧
      m'.out = m.out ++ [⟨"<<<WOULD EXECUTE %.*s>>>\n", [.int 7, .str binSh]⟩]) := by
  obtain ⟨m', hreach, hpc, hmem, hworld, hout⟩ := h.reaches hin hlen
  have hv : returnAddress bs = BitVec.ofNat 32 (buf + j) := by
    rw [hbs]
    exact returnAddress_append hpre
  have hsize : j + shellcode.length ≤ bs.length := by
    have hshort := congrArg List.length hcode
    rw [List.length_take, List.length_drop] at hshort
    have hpos : 0 < shellcode.length := by decide
    omega
  have hfits : buf + 256 ≤ memSize := by decide
  have hbytes : m'.mem.bytes m'.pc shellcode.length = some shellcode := by
    rw [hpc, hv, bytes_eq m'.mem (by omega), hmem, bytesIn_part hsize, framed_buf, hcode]
  obtain ⟨hallowed, hdenied⟩ := shellcode_runs console hbytes
  have hallow : console.getenv m'.world "SIMPLE_MACHINE_ALLOW_EXEC" = m.world.allow := by
    rw [hworld]
    rfl
  refine ⟨fun hyes => ?_, fun hno => ?_⟩
  · obtain ⟨m'', hstop, hw, ho⟩ := hallowed _ _ (hallow.trans hyes) rfl
    refine ⟨m'', hstop.after hreach, ?_, ho.trans hout⟩
    rw [hw, hworld]
    rfl
  · obtain ⟨m'', hstop, hw, ho⟩ := hdenied fun he => hno (hallow.symm.trans he)
    refine ⟨m'', hstop.after hreach, ?_, ?_⟩
    · rw [hw, hworld]
      rfl
    · rw [ho, hout]

/-! ## The inputs of the files -/

/-- The system calls, among the words of the code, and the globals. -/
def image : Memory memSize := program.image fun k =>
  if k = 0x103c / 4 then 0x0000f100
  else if k = 0x1060 / 4 ∨ k = 0x107c / 4 then 0xf1010000
  else data.getD (k - str1) 0

/-- The machine with the program, and an input. -/
def machineWith (bs : List (BitVec 8)) (allow : Option String) : Machine memSize Console :=
  { Machine.initial ⟨[bs], [], allow, []⟩ with
    pc := 0x1000
    mem := image }

theorem image_loaded : binary.Loaded image := by decide +kernel

theorem image_holds : Holds (word image) := by
  unfold Holds
  decide +kernel

theorem machineWith_started (bs : List (BitVec 8)) (allow : Option String) :
    Started (machineWith bs allow) :=
  ⟨rfl, image_loaded, image_holds⟩

/-- `proof.hex`. -/
def proofInput : List (BitVec 8) := List.replicate 128 0 ++ bytesOf 0x1800 ++ []

/-- `exploit.hex`. -/
def exploitInput : List (BitVec 8) :=
  (shellcode ++ List.replicate 108 0) ++ bytesOf (BitVec.ofNat 32 (buf + 0)) ++ []

theorem input_decides_proof : ∃ m', Switch.Compute console (machineWith proofInput none) m' ∧
    m'.world.output = welcome ++ luck ++ proofInput ++ secret := by
  obtain ⟨-, h⟩ := input_decides (machineWith_started proofInput none) rfl (by decide +kernel)
  obtain ⟨-, hproof⟩ := h (List.replicate 128 0) 0x1800 [] rfl (by decide +kernel)
  obtain ⟨m', hstop, -, houtput, -⟩ := hproof rfl
  exact ⟨m', hstop, houtput⟩

theorem input_executed_exploit :
    ∃ m', Switch.Compute console (machineWith exploitInput (some "1")) m' ∧
      m'.world.commands = [binSh] := by
  obtain ⟨hallowed, -⟩ := input_executed (machineWith_started exploitInput (some "1")) rfl
    (by decide +kernel) (j := 0) rfl (by decide +kernel) (by decide +kernel)
  obtain ⟨m', hstop, hcommands, -⟩ := hallowed rfl
  exact ⟨m', hstop, hcommands⟩

end IntroSystems.SM213.Overflow
