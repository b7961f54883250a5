import IntroSystems.SM213.Assembled

/-!
# System calls of assembly programs

The instructions of `Ins` leave the world alone: only `sys` changes it. Programs that make system
calls run from one of them to the next.

* `Plain`, **`cycle_keeps`**: what an instruction other than `sys` leaves alone.
* `Console`, `console`: `read` from standard input, `write` to standard output, and commands.
* `Binary`, `Binary.Runs`: programs with calls. **`Binary.Runs.sim`**: they run as they say.
-/

set_option autoImplicit false

namespace IntroSystems.SM213

section World

variable {n : ℕ} {W : Type} {m m' : Machine n W} {ext : Externals n W} {c : Bool}
  {w : W × List Printf}

/-- The world, and what was printed. -/
def Machine.seen (m : Machine n W) : W × List Printf := (m.world, m.out)

/-- All is as it was outside. -/
def Keeps (w : W × List Printf) (x : Option (Machine n W)) : Prop := ∀ m, x = some m → m.seen = w

theorem Keeps.some (h : m.seen = w) : Keeps w (some m) := by
  rintro _ ⟨⟩
  exact h

theorem Keeps.bind {A : Type} {o : Option A} {f : A → Option (Machine n W)}
    (h : ∀ a, Keeps w (f a)) : Keeps w (o >>= f) := by
  intro m hm
  obtain ⟨a, -, ha⟩ := Option.bind_eq_some_iff.mp hm
  exact h a m ha

theorem Keeps.setReg (i : BitVec 8) (v : BitVec 32) (h : m.seen = w) : Keeps w (m.setReg i v) := by
  intro m' hm
  obtain ⟨r, -, rfl⟩ := Option.map_eq_some_iff.mp hm
  exact h

theorem Keeps.setWord (a v : BitVec 32) (h : m.seen = w) : Keeps w (m.setWord a v) := by
  intro m' hm
  obtain ⟨r, -, rfl⟩ := Option.map_eq_some_iff.mp hm
  exact h

theorem Keeps.goOn {x : Option (Machine n W)} (hx : Keeps w x) (h : goOn x = .some (m', c)) :
    m'.seen = w := by
  obtain ⟨y, hy, he⟩ := Option.map_eq_some_iff.mp h
  cases he
  exact hx _ hy

/-- The instructions that are legal, other than `sys`. -/
def Plain (op op0 : BitVec 8) : Prop :=
  op.toNat ≤ 4 ∨ op.toNat = 6 ∧ (op0.toNat ≤ 7 ∨ op0.toNat = 0xf) ∨
    7 ≤ op.toNat ∧ op.toNat ≤ 0xc ∨ op.toNat = 0xf ∧ op0.toNat ≠ 1

theorem execAlu_keeps (m : Machine n W) (h : m.insOp0.toNat ≤ 7 ∨ m.insOp0.toNat = 0xf) :
    Keeps m.seen (Switch.execAlu m) := by
  unfold Switch.execAlu
  split
  case h_1 | h_4 | h_5 | h_6 | h_7 | h_8 => exact .bind fun _ => .setReg _ _ rfl
  case h_2 | h_3 => exact .bind fun _ => .bind fun _ => .setReg _ _ rfl
  case h_9 => exact .setReg _ _ rfl
  case h_10 =>
    simp only [imp_false] at *
    omega

/-- **Only system calls** and illegal instructions are seen outside. -/
theorem exec_keeps (h : Switch.exec ext m = .some (m', c)) (hop : Plain m.insOpCode m.insOp0) :
    m'.seen = m.seen := by
  unfold Plain at hop
  unfold Switch.exec at h
  split at h
  case h_1 => exact Keeps.goOn (.setReg _ _ rfl) h
  case h_2 => exact Keeps.goOn (.bind fun _ => .bind fun _ => .setReg _ _ rfl) h
  case h_3 => exact Keeps.goOn (.bind fun _ => .bind fun _ => .bind fun _ => .setReg _ _ rfl) h
  case h_4 => exact Keeps.goOn (.bind fun _ => .bind fun _ => .setWord _ _ rfl) h
  case h_5 => exact Keeps.goOn (.bind fun _ => .bind fun _ => .bind fun _ => .setWord _ _ rfl) h
  case h_6 => exact Keeps.goOn (execAlu_keeps m (by omega)) h
  case h_7 =>
    refine Keeps.goOn (.bind fun _ => ?_) h
    split
    · exact .bind fun _ => .setReg _ _ rfl
    · exact .bind fun _ => .setReg _ _ rfl
  case h_8 | h_11 =>
    refine Keeps.goOn ?_ h
    exact .some rfl
  case h_9 | h_10 =>
    refine Keeps.goOn (.bind fun _ => ?_) h
    split <;> exact .some rfl
  case h_12 =>
    refine Keeps.goOn (.bind fun _ => ?_) h
    exact .some rfl
  case h_13 hcode =>
    split_ifs at h with h0 h1
    · cases h
      rfl
    · have hsys : m.insOp0.toNat = 1 := congrArg BitVec.toNat h1
      omega
    · refine Keeps.goOn ?_ h
      exact .some rfl
  case h_14 =>
    simp only [imp_false] at *
    omega

theorem decode_eq (h : decode m = some m') : ∃ b0 b1, m.mem.get m.pc = some b0 ∧
    m' = m.setIns b0 b1 := by
  obtain ⟨b0, h0, h⟩ := Option.bind_eq_some_iff.mp h
  obtain ⟨b1, -, h⟩ := Option.bind_eq_some_iff.mp h
  cases h
  exact ⟨b0, b1, h0, rfl⟩

theorem cycle_keeps {a b : Fin 16} (h : Switch.cycle ext m = some (m', c))
    (hb : m.mem.get m.pc = some (nibbles a b))
    (hop : Plain (BitVec.ofNat 8 a) (BitVec.ofNat 8 b)) : m'.seen = m.seen := by
  obtain ⟨m₁, hfetch, hexec⟩ := Option.bind_eq_some_iff.mp h
  obtain ⟨m₂, hdecode, hswitch⟩ := Option.bind_eq_some_iff.mp hfetch
  obtain ⟨b0, b1, hb', rfl⟩ := decode_eq hdecode
  obtain rfl : nibbles a b = b0 := Option.some.inj (hb.symm.trans hb')
  rw [m.setIns_nibbles] at hswitch
  have hsame : m₁.seen = m.seen ∧ m₁.insOpCode = BitVec.ofNat 8 a ∧
      m₁.insOp0 = BitVec.ofNat 8 b := by
    unfold Switch.fetchSwitch at hswitch
    split at hswitch
    · obtain ⟨w, -, rfl⟩ := Option.map_eq_some_iff.mp hswitch
      exact ⟨rfl, rfl, rfl⟩
    · obtain ⟨w, -, rfl⟩ := Option.map_eq_some_iff.mp hswitch
      exact ⟨rfl, rfl, rfl⟩
    · cases hswitch
      exact ⟨rfl, rfl, rfl⟩
  obtain ⟨hseen, hcode, hop0⟩ := hsame
  rw [← hseen]
  refine exec_keeps hexec ?_
  rwa [hcode, hop0]

end World

theorem Ins.encode_plain (i : Ins) (pc : ℕ) : ∃ a b bs, i.encode pc = nibbles a b :: bs ∧
    Plain (BitVec.ofNat 8 a) (BitVec.ofNat 8 b) := by
  unfold Plain
  simp only [toNat_nibble]
  cases i <;> exact ⟨_, _, _, rfl, by simp⟩

/-! ## Bytes of words -/

/-- Four bytes a word. -/
def ofBytes (f : ℕ → BitVec 8) (k : ℕ) : BitVec 32 :=
  f (4 * k) ++ f (4 * k + 1) ++ f (4 * k + 2) ++ f (4 * k + 3)

/-- The byte at `x`. -/
def byteIn (mem : ℕ → BitVec 32) (x : ℕ) : BitVec 8 := byteOf (mem (x / 4)) (x % 4)

theorem byteIn_ofBytes (f : ℕ → BitVec 8) (x : ℕ) : byteIn (ofBytes f) x = f x := by
  unfold byteIn byteOf ofBytes
  apply BitVec.eq_of_getLsbD_eq
  intro j hj
  simp only [BitVec.getLsbD_extractLsb', BitVec.getLsbD_append]
  have hx := Nat.div_add_mod x 4
  obtain h | h | h | h : x % 4 = 0 ∨ x % 4 = 1 ∨ x % 4 = 2 ∨ x % 4 = 3 := by omega
  · simp [h, hj, show 4 * (x / 4) = x by omega, show ¬24 + j < 8 by omega,
      show ¬24 + j - 8 < 8 by omega, show ¬24 + j - 8 - 8 < 8 by omega,
      show 24 + j - 8 - 8 - 8 = j by omega]
  · simp [h, hj, show 4 * (x / 4) + 1 = x by omega, show ¬16 + j < 8 by omega,
      show ¬16 + j - 8 < 8 by omega, show 16 + j - 8 - 8 = j by omega]
  · simp [h, hj, show 4 * (x / 4) + 2 = x by omega, show ¬8 + j < 8 by omega]
  · simp [h, hj, show 4 * (x / 4) + 3 = x by omega]

theorem ofBytes_byteIn (mem : ℕ → BitVec 32) : ofBytes (byteIn mem) = mem := by
  funext k
  unfold ofBytes byteIn
  rw [show 4 * k / 4 = k by omega, show (4 * k + 1) / 4 = k by omega,
    show (4 * k + 2) / 4 = k by omega, show (4 * k + 3) / 4 = k by omega,
    show 4 * k % 4 = 0 by omega, show (4 * k + 1) % 4 = 1 by omega,
    show (4 * k + 2) % 4 = 2 by omega, show (4 * k + 3) % 4 = 3 by omega, append_byteOf]

/-- `bs` at `a`, `a + 1` and so on. -/
def overwriteBytes (f : ℕ → BitVec 8) (a : ℕ) (bs : List (BitVec 8)) (x : ℕ) : BitVec 8 :=
  if a ≤ x then bs[x - a]?.getD (f x) else f x

def overwriteWords (mem : ℕ → BitVec 32) (a : ℕ) (bs : List (BitVec 8)) : ℕ → BitVec 32 :=
  ofBytes (overwriteBytes (byteIn mem) a bs)

/-- The `count` bytes from `a` on. -/
def bytesIn (mem : ℕ → BitVec 32) (a count : ℕ) : List (BitVec 8) :=
  (List.range' a count).map (byteIn mem)

section Overwrite

variable {mem mem' : ℕ → BitVec 32} {a count k : ℕ} {bs : List (BitVec 8)}

theorem bytesIn_overwriteWords : bytesIn (overwriteWords mem a bs) a bs.length = bs := by
  refine List.ext_getElem (by simp [bytesIn]) fun i hi hi' => ?_
  have hle : a ≤ a + i := Nat.le_add_right a i
  simp only [bytesIn, List.getElem_map, List.getElem_range', Nat.one_mul, overwriteWords,
    byteIn_ofBytes, overwriteBytes, if_pos hle, Nat.add_sub_cancel_left, List.getElem?_eq_getElem hi',
    Option.getD_some]

theorem overwriteWords_of_not (h : 4 * k + 4 ≤ a ∨ a + bs.length ≤ 4 * k) :
    overwriteWords mem a bs k = mem k := by
  have hbyte : ∀ i < 4, overwriteBytes (byteIn mem) a bs (4 * k + i) = byteIn mem (4 * k + i) := by
    intro i hi
    unfold overwriteBytes
    split
    · rw [List.getElem?_eq_none (by omega), Option.getD_none]
    · rfl
  have h0 : overwriteBytes (byteIn mem) a bs (4 * k) = byteIn mem (4 * k) := hbyte 0 (by decide)
  unfold overwriteWords ofBytes
  rw [h0, hbyte 1 (by decide), hbyte 2 (by decide), hbyte 3 (by decide)]
  exact congrFun (ofBytes_byteIn mem) k

theorem overwriteWords_congr (h : mem' k = mem k) :
    overwriteWords mem' a bs k = overwriteWords mem a bs k := by
  have hbyte : ∀ i < 4, byteIn mem' (4 * k + i) = byteIn mem (4 * k + i) := fun i hi => by
    unfold byteIn
    rw [show (4 * k + i) / 4 = k by omega, h]
  have h0 : byteIn mem' (4 * k) = byteIn mem (4 * k) := hbyte 0 (by decide)
  unfold overwriteWords ofBytes overwriteBytes
  rw [h0, hbyte 1 (by decide), hbyte 2 (by decide), hbyte 3 (by decide)]

/-- **A word that is overwritten.** -/
theorem overwriteWords_of_append {pre post : List (BitVec 8)} {v : BitVec 32}
    (hk : a + pre.length = 4 * k) : overwriteWords mem a (pre ++ bytesOf v ++ post) k = v := by
  have hbyte : ∀ i < 4, overwriteBytes (byteIn mem) a (pre ++ bytesOf v ++ post) (4 * k + i) =
      byteOf v i := fun i hi => by
    have hlen : (bytesOf v).length = 4 := rfl
    unfold overwriteBytes
    rw [if_pos (by omega), List.append_assoc, List.getElem?_append_right (by omega),
      List.getElem?_append_left (by omega), show 4 * k + i - a - pre.length = i by omega]
    obtain rfl | rfl | rfl | rfl : i = 0 ∨ i = 1 ∨ i = 2 ∨ i = 3 := by omega
    all_goals rfl
  have h0 : overwriteBytes (byteIn mem) a (pre ++ bytesOf v ++ post) (4 * k) = byteOf v 0 :=
    hbyte 0 (by decide)
  unfold overwriteWords ofBytes
  rw [h0, hbyte 1 (by decide), hbyte 2 (by decide), hbyte 3 (by decide), append_byteOf]

theorem bytesIn_congr (h : ∀ k, a < 4 * k + 4 → 4 * k < a + count → mem' k = mem k) :
    bytesIn mem' a count = bytesIn mem a count := by
  refine List.map_congr_left fun x hx => ?_
  obtain ⟨i, hi, rfl⟩ := List.mem_range'.mp hx
  unfold byteIn
  rw [h _ (by omega) (by omega)]

end Overwrite

variable (mem : Memory memSize) {a count : ℕ}

/-- The byte at `x`. Outside the array it is `0`. -/
def Memory.byte (x : ℕ) : BitVec 8 := if h : x < memSize then mem ⟨x, h⟩ else 0

theorem word_eq : word mem = ofBytes mem.byte := by
  funext k
  unfold word ofBytes Memory.byte
  by_cases hk : 4 * k + 3 < memSize
  · rw [dif_pos hk, dif_pos (by omega), dif_pos (by omega), dif_pos (by omega), dif_pos hk]
  · unfold memSize at hk
    rw [dif_neg hk, dif_neg (by unfold memSize; omega), dif_neg (by unfold memSize; omega),
      dif_neg (by unfold memSize; omega), dif_neg hk]
    rfl

theorem byteIn_word (x : ℕ) : byteIn (word mem) x = mem.byte x := by
  rw [word_eq, byteIn_ofBytes]

/-- **The bytes of a memory**, by its words. -/
theorem bytes_eq (h : a + count ≤ memSize) :
    mem.bytes (BitVec.ofNat 32 a) count = some (bytesIn (word mem) a count) := by
  induction count generalizing a with
  | zero => rfl
  | succ count ih =>
    have hsucc : BitVec.ofNat 32 a + 1 = BitVec.ofNat 32 (a + 1) := (BitVec.ofNat_add a 1).symm
    have hget : mem.get (BitVec.ofNat 32 a) = some (byteIn (word mem) a) := by
      rw [byteIn_word, Memory.byte, dif_pos (by omega)]
      exact Memory.get_ofNat memSize_le (by omega)
    unfold Memory.bytes
    rw [hget, hsucc, ih (by omega)]
    rfl

/-- **What is read**, by its words. -/
theorem word_overwrite {bs : List (BitVec 8)} (h : a + bs.length ≤ memSize) :
    word (mem.overwrite a bs) = overwriteWords (word mem) a bs := by
  rw [word_eq]
  refine congrArg ofBytes (funext fun x => ?_)
  unfold overwriteBytes
  rw [byteIn_word]
  unfold Memory.byte Memory.overwrite
  by_cases hx : x < memSize
  · rw [dif_pos hx, dif_pos hx]
  · rw [dif_neg hx, dif_neg hx, List.getElem?_eq_none (by omega), Option.getD_none, ite_self]

/-! ## A console -/

/-- What the calls of `read` find, one after another, what the calls of `write` wrote, the value of
`SIMPLE_MACHINE_ALLOW_EXEC`, and the commands that were run. -/
structure Console where
  input : List (List (BitVec 8))
  output : List (BitVec 8)
  allow : Option String
  commands : List (List (BitVec 8))

/-- At most `count` bytes of input. What is left is for the next call. -/
def Console.take (w : Console) (count : ℕ) : List (BitVec 8) × Console :=
  match w.input with
  | [] => ([], w)
  | bs :: rest =>
    (bs.take count, { w with input := if bs.length ≤ count then rest else bs.drop count :: rest })

theorem Console.take_of_le {w : Console} {bs : List (BitVec 8)} {rest : List (List (BitVec 8))}
    {count : ℕ} (h : w.input = bs :: rest) (hle : bs.length ≤ count) :
    w.take count = (bs, { w with input := rest }) := by
  unfold take
  rw [h]
  dsimp only
  rw [List.take_of_length_le hle, if_pos hle]

/-- Calls with other file descriptors are left out. -/
def console : Externals memSize Console where
  read w fd a count mem :=
    if fd = 0 then
      let (bs, w) := w.take count.toNat
      (mem.setBytes a bs).map fun mem => (w, mem, BitVec.ofNat 32 bs.length)
    else none
  write w fd a count mem :=
    if fd = 1 then
      (mem.bytes a count.toNat).map fun bs => ({ w with output := w.output ++ bs }, count)
    else none
  getenv w name := if name = "SIMPLE_MACHINE_ALLOW_EXEC" then w.allow else none
  system w command := some ({ w with commands := w.commands ++ [command] }, 0)

inductive Call
  | read | write
  deriving DecidableEq

def Call.code : Call → BitVec 8
  | read => 0
  | write => 1

/-- What a call does to the registers, the words and the console. It is undefined to leave the
memory, and to write to the code. -/
def Call.run (P : Program) (c : Core) (w : Console) : Call → Option (Core × Console)
  | read =>
    let a := c.reg.r1.toNat
    let (bs, w) := w.take c.reg.r2.toNat
    if c.reg.r0 = 0 ∧ a + bs.length ≤ memSize ∧ (a + bs.length ≤ P.lo ∨ P.hi ≤ a) then
      some (⟨c.pc + 2, c.reg.set (BitVec.ofNat 32 bs.length) .r0, overwriteWords c.mem a bs⟩, w)
    else none
  | write =>
    let a := c.reg.r1.toNat
    let count := c.reg.r2.toNat
    if c.reg.r0 = 1 ∧ a + count ≤ memSize then
      some (c.put c.reg.r2 .r0, { w with output := w.output ++ bytesIn c.mem a count })
    else none

section Run

variable {P : Program} {c : Core} {w : Console} {a count : ℕ}

theorem Call.run_read {bs : List (BitVec 8)} {rest : List (List (BitVec 8))} (h0 : c.reg.r0 = 0)
    (h1 : c.reg.r1 = BitVec.ofNat 32 a) (h2 : c.reg.r2 = BitVec.ofNat 32 count)
    (hcount : count < 2 ^ 32) (hin : w.input = bs :: rest) (hle : bs.length ≤ count)
    (hfit : a + bs.length ≤ memSize) (hout : P.hi ≤ a) :
    Call.read.run P c w = some (⟨c.pc + 2, c.reg.set (BitVec.ofNat 32 bs.length) .r0,
      overwriteWords c.mem a bs⟩, { w with input := rest }) := by
  have ha : (BitVec.ofNat 32 a).toNat = a := Nat.mod_eq_of_lt (by unfold memSize at hfit; omega)
  have hc : (BitVec.ofNat 32 count).toNat = count := Nat.mod_eq_of_lt hcount
  unfold run
  dsimp only
  rw [h1, h2, ha, hc, Console.take_of_le hin hle]
  exact if_pos ⟨h0, hfit, .inr hout⟩

theorem Call.run_write (h0 : c.reg.r0 = 1) (h1 : c.reg.r1 = BitVec.ofNat 32 a)
    (h2 : c.reg.r2 = BitVec.ofNat 32 count) (hcount : count < 2 ^ 32)
    (hfit : a + count ≤ memSize) : Call.write.run P c w =
      some (c.put (BitVec.ofNat 32 count) .r0,
        { w with output := w.output ++ bytesIn c.mem a count }) := by
  have ha : (BitVec.ofNat 32 a).toNat = a := Nat.mod_eq_of_lt (by unfold memSize at hfit; omega)
  have hc : (BitVec.ofNat 32 count).toNat = count := Nat.mod_eq_of_lt hcount
  unfold run
  dsimp only
  rw [h1, h2, ha, hc]
  exact if_pos ⟨h0, hfit⟩

end Run

/-- A program with system calls among its instructions. -/
structure Binary where
  program : Program
  calls : List (ℕ × Call)
  inside : ∀ x ∈ calls, program.lo ≤ x.1 ∧ x.1 + 2 ≤ program.hi
  aligned : program.lo % 4 = 0 ∧ program.hi % 4 = 0

namespace Binary

variable (B : Binary)

/-- The code of `B` is in memory. -/
def Loaded (mem : Memory memSize) : Prop :=
  SM213.Loaded B.program mem ∧ ∀ x ∈ B.calls, bytesIn (word mem) x.1 2 = [0xf1, x.2.code]

instance (mem : Memory memSize) : Decidable (B.Loaded mem) := by
  unfold Loaded
  infer_instance

/-- An instruction, or a call. -/
inductive Step : Core × Console → Core × Console → Prop
  | ins {c c' : Core} {w : Console} (h : B.program.step c = some c') : Step (c, w) (c', w)
  | call {c : Core} {w : Console} {s : Core × Console} (k : Call) (hk : (c.pc, k) ∈ B.calls)
      (h : k.run B.program c w = some s) : Step (c, w) s

def Runs : Core × Console → Core × Console → Prop := Relation.ReflTransGen B.Step

variable {B} {c c' : Core} {w : Console} {s s' : Core × Console} {m : Machine memSize Console}

theorem Runs.block (h : B.program.Runs c c') (rest : B.Runs (c', w) s) : B.Runs (c, w) s := by
  induction h using Relation.ReflTransGen.head_induction_on with
  | refl => exact rest
  | head hstep _ ih => exact .head (.ins hstep) ih

theorem Runs.trans (h : B.Runs (c, w) s) (rest : B.Runs s s') : B.Runs (c, w) s' :=
  Relation.ReflTransGen.trans h rest

theorem Runs.call (k : Call) (hk : (c.pc, k) ∈ B.calls) (h : k.run B.program c w = some s)
    (rest : B.Runs s s') : B.Runs (c, w) s' :=
  .head (.call k hk h) rest

/-! ## Calls in the simulator -/

section Sys

variable {n : ℕ} {W : Type} {ext : Externals n W} {m : Machine n W} {world : W} {r : BitVec 32}

theorem cycle_sys {k : BitVec 8} (hb : m.mem.bytes m.pc 2 = some [0xf1, k]) :
    Switch.cycle ext m = goOn (sys ext (m.fetched 0xf 1 k)) :=
  (cycle_short (a := 0xf) (b := 1) hb (by decide)).trans rfl

theorem sys_read {mem : Memory n} (hop : m.insOpImm = 0)
    (h : ext.read m.world (m.reg 0) (m.reg 1) (m.reg 2) m.mem = some (world, mem, r)) :
    sys ext m = some { m with world, mem, reg := Function.update m.reg 0 r } := by
  unfold sys
  rw [if_pos hop, h]
  rfl

theorem sys_write (hop : m.insOpImm = 1)
    (h : ext.write m.world (m.reg 0) (m.reg 1) (m.reg 2) m.mem = some (world, r)) :
    sys ext m = some { m with world, reg := Function.update m.reg 0 r } := by
  unfold sys
  rw [hop, if_neg (by decide), if_pos rfl, h]
  rfl

end Sys

theorem step_frame {P : Program} {k : ℕ} (h : P.step c = some c') (hk : ¬P.Writable k) :
    c'.mem k = c.mem k := by
  refine Program.step_mem h fun ht => hk ?_
  obtain ⟨i, hi, hrun⟩ := Option.bind_eq_some_iff.mp h
  rw [Program.target, hi, Option.bind_some] at ht
  cases i
  case st s o d | stx s d i =>
    obtain ⟨j, hj, hrun⟩ := Option.bind_eq_some_iff.mp hrun
    cases hj.symm.trans ht
    exact (Option.ite_none_right_eq_some.mp hrun).1
  all_goals cases ht

theorem Loaded.frame {mem mem' : Memory memSize} (h : B.Loaded mem)
    (hsame : ∀ k, ¬B.program.Writable k → word mem' k = word mem k) : B.Loaded mem' := by
  have hle := B.program.hi_le
  have hbytes : ∀ a count, B.program.lo ≤ a → a + count ≤ B.program.hi →
      bytesIn (word mem') a count = bytesIn (word mem) a count := fun a count hlo hhi =>
    bytesIn_congr fun k h₁ h₂ => hsame k fun hw => by
      unfold Program.Writable at hw
      omega
  refine ⟨fun x hx => ?_, fun x hx => ?_⟩
  · obtain ⟨hlo, hhi, -⟩ := B.program.fits x hx
    rw [bytes_eq mem' (by omega), hbytes _ _ hlo hhi, ← bytes_eq mem (by omega)]
    exact h.1 x hx
  · obtain ⟨hlo, hhi⟩ := B.inside x hx
    rw [hbytes _ _ hlo hhi]
    exact h.2 x hx

/-- **A call is one iteration.** -/
theorem call_sim {k : Call} (hl : B.Loaded m.mem) (hk : (m.core.pc, k) ∈ B.calls)
    (h : k.run B.program m.core m.world = some s) : ∃ m', Switch.cycle console m = some (m', true) ∧
      (m'.core, m'.world) = s ∧ m'.out = m.out ∧ B.Loaded m'.mem := by
  obtain ⟨-, hhi⟩ := B.inside _ hk
  have hend : m.pc.toNat + 2 ≤ memSize := le_trans hhi B.program.hi_le
  have hnext : (m.pc + 2).toNat = m.pc.toNat + 2 := pc_add m.pc hend
  have hb : m.mem.bytes m.pc 2 = some [0xf1, k.code] := by
    have hbytes := bytes_eq m.mem hend
    rw [BitVec.ofNat_toNat, BitVec.setWidth_eq] at hbytes
    rw [hbytes]
    exact congrArg some (hl.2 _ hk)
  have hcycle : Switch.cycle console m = _ := cycle_sys hb
  cases k
  case read =>
    rcases htake : m.world.take m.core.reg.r2.toNat with ⟨bs, w⟩
    unfold Call.run at h
    rw [htake] at h
    obtain ⟨⟨h0, hfit, hout⟩, hs⟩ := Option.ite_none_right_eq_some.mp h
    cases hs
    have hset := Memory.setBytes_eq memSize_le m.mem m.core.reg.r1.toNat bs (by omega)
    rw [BitVec.ofNat_toNat, BitVec.setWidth_eq] at hset
    have hread : console.read m.world (m.reg 0) (m.reg 1) (m.reg 2) m.mem =
        some (w, m.mem.overwrite m.core.reg.r1.toNat bs, BitVec.ofNat 32 bs.length) := by
      have h0' : m.reg 0 = 0 := h0
      have htake' : m.world.take (m.reg 2).toNat = (bs, w) := htake
      have hset' : m.mem.setBytes (m.reg 1) bs = _ := hset
      simp only [console, h0', htake', hset', if_pos, Option.map_some]
    have hsys := sys_read (m := m.fetched 0xf 1 0) rfl hread
    refine ⟨_, hcycle.trans (congrArg goOn hsys), ?_, rfl, hl.frame fun k hk => ?_⟩
    · have hreg := Registers.ofRegs_update m.reg (BitVec.ofNat 32 bs.length) .r0
      change ((⟨(m.pc + 2).toNat, .ofRegs (Function.update m.reg Reg.r0.num _),
        word (m.mem.overwrite m.core.reg.r1.toNat bs)⟩ : Core), w) = _
      rw [hnext, hreg, word_overwrite m.mem hfit]
      rfl
    · refine (congrFun (word_overwrite m.mem hfit) k).trans (overwriteWords_of_not ?_)
      have haligned := B.aligned
      unfold Program.Writable at hk
      omega
  case write =>
    obtain ⟨⟨h1, hfit⟩, hs⟩ := Option.ite_none_right_eq_some.mp h
    cases hs
    have hbytes := bytes_eq m.mem hfit
    rw [BitVec.ofNat_toNat, BitVec.setWidth_eq] at hbytes
    have hwrite : console.write m.world (m.reg 0) (m.reg 1) (m.reg 2) m.mem =
        some (⟨m.world.input,
          m.world.output ++ bytesIn (word m.mem) m.core.reg.r1.toNat m.core.reg.r2.toNat,
          m.world.allow, m.world.commands⟩, m.reg 2) := by
      have h1' : m.reg 0 = 1 := h1
      have hbytes' : m.mem.bytes (m.reg 1) (m.reg 2).toNat = _ := hbytes
      simp only [console, h1', hbytes', if_pos, Option.map_some]
    have hsys := sys_write (m := m.fetched 0xf 1 1) rfl hwrite
    refine ⟨_, hcycle.trans (congrArg goOn hsys), ?_, rfl, hl⟩
    have hreg := Registers.ofRegs_update m.reg (m.reg 2) .r0
    change ((⟨(m.pc + 2).toNat, .ofRegs (Function.update m.reg Reg.r0.num (m.reg 2)),
      word m.mem⟩ : Core), _) = _
    rw [hnext, hreg]
    rfl

/-- **An instruction is one iteration.** -/
theorem ins_sim (hl : B.Loaded m.mem) (h : B.program.step m.core = some c') :
    ∃ m', Switch.cycle console m = some (m', true) ∧ (m'.core, m'.world) = (c', m.world) ∧
      m'.out = m.out ∧ B.Loaded m'.mem := by
  have hlead : Leads B.program console m c' := step_sim hl.1 h
  obtain ⟨m', hcycle, rfl, -⟩ := hlead
  obtain ⟨i, hi, -⟩ := Option.bind_eq_some_iff.mp h
  have hb := hl.1 _ (B.program.mem_of_ins hi)
  obtain ⟨a, b, bs, hbs, hplain⟩ := i.encode_plain m.core.pc
  dsimp only at hb
  rw [← i.length_encode m.core.pc, hbs] at hb
  obtain ⟨hget, -⟩ := Memory.bytes_cons.mp hb
  rw [show BitVec.ofNat 32 m.core.pc = m.pc from BitVec.ofNat_toNat _ _] at hget
  have hseen := cycle_keeps hcycle hget hplain
  have hworld : m'.world = m.world := congrArg Prod.fst hseen
  refine ⟨m', hcycle, by rw [hworld], congrArg Prod.snd hseen, hl.frame fun k hk => ?_⟩
  exact step_frame h hk

theorem Step.sim (h : B.Step (m.core, m.world) s) (hl : B.Loaded m.mem) :
    ∃ m', Switch.cycle console m = some (m', true) ∧ (m'.core, m'.world) = s ∧ m'.out = m.out ∧
      B.Loaded m'.mem := by
  generalize hc : (m.core, m.world) = s₀ at h
  cases h with
  | ins h =>
    cases hc
    exact ins_sim hl h
  | call k hk h =>
    cases hc
    exact call_sim hl hk h

/-- **A program with calls runs as it says.** -/
theorem Runs.sim (h : B.Runs (m.core, m.world) s) (hl : B.Loaded m.mem) :
    ∃ m', Reaches console m m' ∧ (m'.core, m'.world) = s ∧ m'.out = m.out ∧ B.Loaded m'.mem := by
  induction h with
  | refl => exact ⟨m, .refl, rfl, rfl, hl⟩
  | tail _ hstep ih =>
    obtain ⟨m₁, hreach, rfl, hout, hl₁⟩ := ih
    obtain ⟨m₂, hcycle, hs, hout₂, hl₂⟩ := hstep.sim hl₁
    exact ⟨m₂, hreach.tail hcycle, hs, hout₂.trans hout, hl₂⟩

/-- **The simulator stops where a program with calls halts.** -/
theorem Runs.compute (h : B.Runs (m.core, m.world) (c, w)) (hl : B.Loaded m.mem)
    (hhalt : B.program.ins c.pc = some .halt) :
    ∃ m', Switch.Compute console m m' ∧ m'.world = w ∧ m'.out = m.out := by
  obtain ⟨m₁, hreach, hs, hout, hl₁⟩ := h.sim hl
  cases hs
  obtain ⟨m', hcycle, -⟩ := Program.cycle_halt console hl₁.1 hhalt
  have hb := hl₁.1 _ (B.program.mem_of_ins hhalt)
  obtain ⟨hget, -⟩ := Memory.bytes_cons.mp hb
  rw [show BitVec.ofNat 32 m₁.core.pc = m₁.pc from BitVec.ofNat_toNat _ _] at hget
  have hseen := cycle_keeps hcycle hget (by unfold Plain; decide)
  exact ⟨m', Loop.Stops.after (.last hcycle) hreach, congrArg Prod.fst hseen,
    (congrArg Prod.snd hseen).trans hout⟩

end Binary

end IntroSystems.SM213
