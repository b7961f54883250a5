import IntroSystems.SM213.Assembly

/-!
# Assembled programs in the simulator

* `Loaded`: the code of a program is in memory. `Machine.core`: what a program sees of the machine.
* **`step_sim`**: one instruction is one iteration of `compute`.
* `Program.Returns`: a subroutine, from its entry to its return.
* **`Program.Runs.sim`**: a program runs as it says. **`Program.Runs.returns`**,
  **`Program.Runs.compute`**: a subroutine returns, and the simulator stops where a program halts.
  **`Program.RunsIn.writes`**: what it writes until then.
-/

set_option autoImplicit false

namespace IntroSystems.SM213

variable {W : Type}

/-- The code of `P` is in memory. -/
def Loaded (P : Program) (mem : Memory memSize) : Prop :=
  ∀ x ∈ P.listing, mem.bytes (BitVec.ofNat 32 x.1) x.2.length = some (x.2.encode x.1)

instance (P : Program) (mem : Memory memSize) : Decidable (Loaded P mem) := by
  unfold Loaded
  infer_instance

/-- What a program sees. -/
def Machine.core (m : Machine memSize W) : Core := ⟨m.pc.toNat, .ofRegs m.reg, word m.mem⟩

/-! ## Bytes -/

theorem nibbles_high : ∀ a b, nibbles a b >>> 4 = BitVec.ofNat 8 a := by decide

theorem nibbles_low : ∀ a b, nibbles a b &&& 0xf = BitVec.ofNat 8 b := by decide

theorem memSize_le : memSize ≤ 2 ^ 31 := by decide

section Bytes

variable {n : ℕ}

theorem getReg_nibble (m : Machine n W) (r : Reg) :
    m.getReg (BitVec.ofNat 8 r.nibble) = some ((Registers.ofRegs m.reg).get r) := by
  cases r <;> rfl

theorem setReg_nibble (m : Machine n W) (r : Reg) (v : BitVec 32) :
    m.setReg (BitVec.ofNat 8 r.nibble) v =
      some { m with reg := Function.update m.reg r.num v } := by
  cases r <;> rfl

theorem offset_nibble (o : Fin 16) :
    (BitVec.ofNat 8 o).setWidth 32 <<< 2 = BitVec.ofNat 32 o <<< 2 ∧
      (BitVec.ofNat 8 o).setWidth 32 <<< 1 = BitVec.ofNat 32 o <<< 1 := by
  revert o
  decide

/-- **Where a branch leads.** -/
theorem branch_target {pc t : ℕ} (hf : t % 2 = pc % 2 ∧ t ≤ pc + 256 ∧ pc ≤ t + 254) :
    BitVec.ofNat 32 pc + (2 : BitVec 32) + ((branchOffset pc t).signExtend 32 <<< 1) =
      BitVec.ofNat 32 t := by
  have hx : (branchOffset pc t).toInt = ((t : ℤ) - (pc + 2)) / 2 := by
    unfold branchOffset
    rw [BitVec.toInt_ofInt]
    apply Int.bmod_eq_of_le <;> omega
  have hdouble : ((t : ℤ) - (pc + 2)) / 2 * 2 = t - (pc + 2) := by omega
  have hnat : ∀ k : ℕ, BitVec.ofNat 32 k = BitVec.ofInt 32 k := fun k =>
    (BitVec.ofInt_natCast 32 k).symm
  have htwo : (2 : BitVec 32) = BitVec.ofInt 32 2 := rfl
  have hdist : BitVec.ofInt 32 (((t : ℤ) - (pc + 2)) / 2) * 2 = BitVec.ofInt 32 (t - (pc + 2)) := by
    rw [htwo, ← BitVec.ofInt_mul, hdouble]
  have hnext : BitVec.ofNat 32 pc + 2 = BitVec.ofInt 32 (pc + 2) := by
    rw [hnat, htwo, ← BitVec.ofInt_add]
  rw [BitVec.signExtend, hx, shiftLeft_one, hdist, hnext, ← BitVec.ofInt_add, hnat]
  congr 1
  omega

theorem load_bytes {mem : Memory n} {a v : BitVec 32} (h : mem.bytes a 4 = some (bytesOf v)) :
    load mem a = some v := by
  obtain ⟨h0, h⟩ := Memory.bytes_cons.mp h
  obtain ⟨h1, h⟩ := Memory.bytes_cons.mp h
  obtain ⟨h2, h⟩ := Memory.bytes_cons.mp h
  obtain ⟨h3, -⟩ := Memory.bytes_cons.mp h
  have e2 : a + 1 + 1 = a + 2 := by rw [BitVec.add_assoc]; rfl
  have e3 : a + 1 + 1 + 1 = a + 3 := by rw [BitVec.add_assoc, BitVec.add_assoc]; rfl
  rw [e2] at h2
  rw [e3] at h3
  unfold load
  simp only [h0, h1, h2, h3, Option.bind_eq_bind, Option.bind_some]
  rw [append_eq_or, append_byteOf]

theorem bytes_putWord {mem : Memory n} (hn : n ≤ 2 ^ 31) {a k count : ℕ} (ha : a + count ≤ n)
    (h : 4 * k + 4 ≤ a ∨ a + count ≤ 4 * k) (v : BitVec 32) :
    (putWord mem k v).bytes (BitVec.ofNat 32 a) count = mem.bytes (BitVec.ofNat 32 a) count := by
  induction count generalizing a with
  | zero => rfl
  | succ count ih =>
    have hsucc : BitVec.ofNat 32 a + 1 = BitVec.ofNat 32 (a + 1) := (BitVec.ofNat_add a 1).symm
    unfold Memory.bytes
    rw [get_putWord hn (by omega) (by omega), hsucc, ih (by omega) (by omega)]

/-! ## Fetching -/

variable {m : Machine n W} {a b : Fin 16} {k : BitVec 8} {ext : Externals n W}

/-- The machine with an instruction in it. -/
def Machine.fetched (m : Machine n W) (a b : Fin 16) (k : BitVec 8) : Machine n W :=
  { m with
    insOpCode := BitVec.ofNat 8 a
    insOp0 := BitVec.ofNat 8 b
    insOp1 := k >>> 4
    insOp2 := k &&& 0xf
    insOpImm := k
    pc := m.pc + 2 }

theorem Machine.setIns_nibbles (m : Machine n W) : m.setIns (nibbles a b) k = m.fetched a b k := by
  unfold Machine.setIns Machine.fetched
  rw [nibbles_high, nibbles_low]

theorem toNat_nibble : ∀ a : Fin 16, (BitVec.ofNat 8 a).toNat = a := by decide

theorem cycle_short (hb : m.mem.bytes m.pc 2 = some [nibbles a b, k]) (hop : ¬(a = 0 ∨ a = 0xb)) :
    Switch.cycle ext m = Switch.exec ext (m.fetched a b k) := by
  obtain ⟨h0, hb⟩ := Memory.bytes_cons.mp hb
  obtain ⟨h1, -⟩ := Memory.bytes_cons.mp hb
  have hop' : ¬((m.fetched a b k).insOpCode.toNat = 0x0 ∨
      (m.fetched a b k).insOpCode.toNat = 0xb) := by
    change ¬((BitVec.ofNat 8 a).toNat = 0x0 ∨ (BitVec.ofNat 8 a).toNat = 0xb)
    rw [toNat_nibble]
    omega
  unfold Switch.cycle Switch.fetch
  simp only [decode_of_get h0 h1, Option.bind_eq_bind, Option.bind_some]
  rw [m.setIns_nibbles, Switch.fetchSwitch_of_ne hop', Option.bind_some]

theorem cycle_long {v : BitVec 32}
    (hb : m.mem.bytes m.pc 6 = some (nibbles a b :: k :: bytesOf v)) (hop : a = 0 ∨ a = 0xb) :
    Switch.cycle ext m =
      Switch.exec ext { m.fetched a b k with insOpExt := v, pc := m.pc + 2 + 4 } := by
  obtain ⟨h0, hb⟩ := Memory.bytes_cons.mp hb
  obtain ⟨h1, hb⟩ := Memory.bytes_cons.mp hb
  have e2 : m.pc + 1 + 1 = m.pc + 2 := by rw [BitVec.add_assoc]; rfl
  rw [e2] at hb
  have hload : load (m.fetched a b k).mem (m.fetched a b k).pc = some v := load_bytes hb
  have hop' : (m.fetched a b k).insOpCode.toNat = 0x0 ∨
      (m.fetched a b k).insOpCode.toNat = 0xb := by
    change (BitVec.ofNat 8 a).toNat = 0x0 ∨ (BitVec.ofNat 8 a).toNat = 0xb
    rw [toNat_nibble]
    omega
  unfold Switch.cycle Switch.fetch
  simp only [decode_of_get h0 h1, Option.bind_eq_bind, Option.bind_some]
  rw [m.setIns_nibbles, Switch.fetchSwitch_of_eq hop', fetchExt, hload]
  rfl

end Bytes

/-! ## One instruction -/

/-- One iteration of `compute` leads from `m` to `c'`, with the code still there. -/
def Leads (P : Program) (ext : Externals memSize W) (m : Machine memSize W) (c' : Core) : Prop :=
  ∃ m', Switch.cycle ext m = some (m', true) ∧ m'.core = c' ∧ Loaded P m'.mem

variable {P : Program} {m m' : Machine memSize W} {ext : Externals memSize W} {c c' : Core}
  {i : Ins}

theorem Ins.length_pos (i : Ins) : 0 < i.length := by
  cases i <;> exact Nat.zero_lt_succ _

theorem Ins.length_encode (i : Ins) (pc : ℕ) : (i.encode pc).length = i.length := by
  cases i <;> rfl

theorem Program.mem_of_ins {pc : ℕ} (h : P.ins pc = some i) : (pc, i) ∈ P.listing := by
  unfold Program.ins at h
  obtain ⟨l₁, l₂, hl, -⟩ := List.lookup_eq_some_iff.mp h
  rw [hl]
  exact List.mem_append_right _ List.mem_cons_self

theorem pc_add (x : BitVec 32) {j : ℕ} (h : x.toNat + j ≤ memSize) :
    (x + BitVec.ofNat 32 j).toNat = x.toNat + j := by
  unfold memSize at h
  rw [BitVec.toNat_add, BitVec.toNat_ofNat]
  omega

section Leads

variable {a b x y : Fin 16} {k : BitVec 8} {d r : Reg} {v : BitVec 32}

@[simp] theorem getReg_fetched :
    (m.fetched a b k).getReg (BitVec.ofNat 8 r.nibble) = some (m.core.reg.get r) :=
  getReg_nibble _ r

@[simp] theorem op_fetched : (m.fetched a b k).insOpCode.toNat = a := toNat_nibble a

@[simp] theorem op0_fetched : (m.fetched a b k).insOp0 = BitVec.ofNat 8 b := rfl

@[simp] theorem op1_fetched : (m.fetched a b (nibbles x y)).insOp1 = BitVec.ofNat 8 x :=
  nibbles_high x y

@[simp] theorem op2_fetched : (m.fetched a b (nibbles x y)).insOp2 = BitVec.ofNat 8 y :=
  nibbles_low x y

@[simp] theorem imm_fetched : (m.fetched a b k).insOpImm = k := rfl

@[simp] theorem pc_fetched : (m.fetched a b k).pc = m.pc + 2#32 := rfl

@[simp] theorem core_mem : m.core.mem = word m.mem := rfl

@[simp] theorem mem_fetched : (m.fetched a b k).mem = m.mem := rfl

theorem Leads.put (hl : Loaded P m.mem) (hpc : m.pc.toNat + 2 ≤ memSize)
    (hb : m.mem.bytes m.pc 2 = some [nibbles a b, k]) (hop : ¬(a = 0 ∨ a = 0xb))
    (h : Switch.exec ext (m.fetched a b k) =
      goOn ((m.fetched a b k).setReg (BitVec.ofNat 8 d.nibble) v)) :
    Leads P ext m (m.core.put v d) := by
  rw [setReg_nibble] at h
  refine ⟨_, (cycle_short hb hop).trans h, ?_, hl⟩
  have hnext : (m.pc + 2).toNat = m.pc.toNat + 2 := pc_add m.pc hpc
  unfold Machine.core Core.put
  dsimp only [Machine.fetched]
  rw [Registers.ofRegs_update, hnext]

theorem Leads.jump (hl : Loaded P m.mem) {t : BitVec 32}
    (hb : m.mem.bytes m.pc 2 = some [nibbles a b, k]) (hop : ¬(a = 0 ∨ a = 0xb))
    (h : Switch.exec ext (m.fetched a b k) = goOn (some { m.fetched a b k with pc := t })) :
    Leads P ext m { m.core with pc := t.toNat } :=
  ⟨_, (cycle_short hb hop).trans h, rfl, hl⟩

theorem Leads.next (hl : Loaded P m.mem) (hpc : m.pc.toNat + 2 ≤ memSize)
    (hb : m.mem.bytes m.pc 2 = some [nibbles a b, k]) (hop : ¬(a = 0 ∨ a = 0xb))
    (h : Switch.exec ext (m.fetched a b k) = goOn (some (m.fetched a b k))) :
    Leads P ext m { m.core with pc := m.core.pc + 2 } := by
  have hnext : (m.pc + 2).toNat = m.pc.toNat + 2 := pc_add m.pc hpc
  unfold Machine.core
  rw [← hnext]
  exact Leads.jump hl hb hop h

theorem Leads.branch {t : ℕ} (hl : Loaded P m.mem) (hpc : m.pc.toNat + 2 ≤ memSize)
    (hf : t % 2 = m.core.pc % 2 ∧ t ≤ m.core.pc + 256 ∧ m.core.pc ≤ t + 254)
    (hb : m.mem.bytes m.pc 2 = some [nibbles a b, branchOffset m.core.pc t])
    (hop : ¬(a = 0 ∨ a = 0xb))
    (h : Switch.exec ext (m.fetched a b (branchOffset m.core.pc t)) =
      goOn (some ((m.fetched a b (branchOffset m.core.pc t)).branch (branchOffset m.core.pc t)))) :
    Leads P ext m { m.core with pc := t } := by
  have htarget : m.pc + 2#32 + ((branchOffset m.core.pc t).signExtend 32 <<< 1) =
      BitVec.ofNat 32 t := by
    have := branch_target hf
    rwa [show BitVec.ofNat 32 m.core.pc = m.pc from BitVec.ofNat_toNat _ _] at this
  have ht : (BitVec.ofNat 32 t).toNat = t := by
    have hle : m.core.pc + 2 ≤ memSize := hpc
    unfold memSize at hle
    rw [BitVec.toNat_ofNat]
    omega
  rw [Machine.branch, pc_fetched, htarget] at h
  have hjump := Leads.jump hl hb hop h
  rwa [ht] at hjump

theorem Leads.store (hl : Loaded P m.mem) (hpc : m.pc.toNat + 2 ≤ memSize)
    (hb : m.mem.bytes m.pc 2 = some [nibbles a b, k]) (hop : ¬(a = 0 ∨ a = 0xb)) {j : ℕ}
    (hj : j < memSize / 4) (hw : P.Writable j)
    (h : Switch.exec ext (m.fetched a b k) = goOn ((m.fetched a b k).setWord (addr j) v)) :
    Leads P ext m
      { m.core with pc := m.core.pc + 2, mem := Function.update m.core.mem j v } := by
  have hmem : 4 * j + 3 < memSize := by unfold memSize at hj ⊢; omega
  rw [Machine.setWord, mem_fetched, store_addr memSize_le hmem] at h
  refine ⟨_, (cycle_short hb hop).trans h, ?_, fun x hx => ?_⟩
  · have hnext : (m.pc + 2).toNat = m.pc.toNat + 2 := pc_add m.pc hpc
    unfold Machine.core
    dsimp only [Machine.fetched]
    rw [hnext, word_putWord hmem]
  · obtain ⟨hlo, hhi, -⟩ := P.fits x hx
    have hle := P.hi_le
    refine (bytes_putWord memSize_le (by omega) ?_ v).trans (hl x hx)
    unfold Program.Writable at hw
    omega

end Leads

theorem wordIndex_eq_some {x : BitVec 32} {j : ℕ} (h : wordIndex x = some j) :
    x = addr j ∧ j < memSize / 4 := by
  unfold wordIndex at h
  obtain ⟨⟨hx, hlt⟩, hj⟩ := Option.ite_none_right_eq_some.mp h
  cases hj
  refine ⟨?_, hlt⟩
  rw [addr, Nat.mul_div_cancel' (Nat.dvd_of_mod_eq_zero hx), BitVec.ofNat_toNat, BitVec.setWidth_eq]

theorem shl_ofNat {k : Fin 32} (hk : 0 < k) (v : BitVec 32) :
    0 < (BitVec.ofNat 8 k).toInt ∧ shl v (BitVec.ofNat 8 k) = some (v <<< (k : ℕ)) := by
  have hint : (BitVec.ofNat 8 k).toInt = (k : ℕ) := by
    revert k
    decide
  unfold shl
  rw [hint, if_pos (by omega)]
  exact ⟨by omega, rfl⟩

theorem shr_neg (k : Fin 32) (v : BitVec 32) :
    ¬0 < (-BitVec.ofNat 8 k).toInt ∧ shr v (-BitVec.ofNat 8 k) = some (v.sshiftRight k) := by
  have hint : (-BitVec.ofNat 8 k).toInt = -(k : ℕ) := by
    revert k
    decide
  unfold shr
  rw [hint, neg_neg, if_pos (by omega)]
  exact ⟨by omega, rfl⟩

/-- **One instruction is one iteration.** -/
theorem step_sim (hl : Loaded P m.mem) (hs : P.step m.core = some c') : Leads P ext m c' := by
  obtain ⟨i, hi, hrun⟩ := Option.bind_eq_some_iff.mp hs
  have hmem := P.mem_of_ins hi
  obtain ⟨-, hhi, hfits⟩ := P.fits _ hmem
  have hb := hl _ hmem
  have hpc : BitVec.ofNat 32 m.core.pc = m.pc := BitVec.ofNat_toNat _ _
  have hend : m.pc.toNat + i.length ≤ memSize := le_trans hhi P.hi_le
  dsimp only at hb hfits
  rw [hpc] at hb
  cases i
  case ldi v d =>
    cases hrun
    have hnext : (m.pc + 2 + 4).toNat = m.pc.toNat + 6 := by
      rw [BitVec.add_assoc]
      exact pc_add m.pc hend
    refine ⟨_, (cycle_long hb (.inl rfl)).trans (congrArg goOn (setReg_nibble _ d v)), ?_, hl⟩
    unfold Machine.core
    dsimp only [Machine.fetched]
    rw [Registers.ofRegs_update, hnext]
  case ld o s d =>
    obtain ⟨j, hj, rfl⟩ := Option.map_eq_some_iff.mp hrun
    obtain ⟨haddr, hlt⟩ := wordIndex_eq_some hj
    have hload : load m.mem (addr j) = some (word m.mem j) :=
      load_addr memSize_le (by unfold memSize at hlt ⊢; omega)
    refine Leads.put hl hend hb (by decide) ?_
    simp [Switch.exec, (offset_nibble o).1, haddr, hload]
  case st o s d =>
    obtain ⟨j, hj, hrun⟩ := Option.bind_eq_some_iff.mp hrun
    obtain ⟨hw, hc⟩ := Option.ite_none_right_eq_some.mp hrun
    obtain ⟨haddr, hlt⟩ := wordIndex_eq_some hj
    cases hc
    refine Leads.store hl hend hb (by decide) hlt hw ?_
    simp [Switch.exec, (offset_nibble _).1, haddr]
  case ldx s i d =>
    obtain ⟨j, hj, rfl⟩ := Option.map_eq_some_iff.mp hrun
    obtain ⟨haddr, hlt⟩ := wordIndex_eq_some hj
    have hload : load m.mem (addr j) = some (word m.mem j) :=
      load_addr memSize_le (by unfold memSize at hlt ⊢; omega)
    refine Leads.put hl hend hb (by decide) ?_
    simp [Switch.exec, haddr, hload]
  case stx s d i =>
    obtain ⟨j, hj, hrun⟩ := Option.bind_eq_some_iff.mp hrun
    obtain ⟨hw, hc⟩ := Option.ite_none_right_eq_some.mp hrun
    obtain ⟨haddr, hlt⟩ := wordIndex_eq_some hj
    cases hc
    refine Leads.store hl hend hb (by decide) hlt hw ?_
    simp [Switch.exec, haddr]
  case mov s d =>
    cases hrun
    exact Leads.put hl hend hb (by decide) (by simp [Switch.exec, Switch.execAlu])
  case add s d =>
    cases hrun
    exact Leads.put hl hend hb (by decide) (by simp [Switch.exec, Switch.execAlu])
  case and s d =>
    cases hrun
    exact Leads.put hl hend hb (by decide) (by simp [Switch.exec, Switch.execAlu])
  case not r =>
    cases hrun
    exact Leads.put hl hend hb (by decide) (by simp [Switch.exec, Switch.execAlu])
  case inc r =>
    cases hrun
    exact Leads.put hl hend hb (by decide) (by simp [Switch.exec, Switch.execAlu])
  case inca r =>
    cases hrun
    exact Leads.put hl hend hb (by decide) (by simp [Switch.exec, Switch.execAlu])
  case dec r =>
    cases hrun
    exact Leads.put hl hend hb (by decide) (by simp [Switch.exec, Switch.execAlu])
  case deca r =>
    cases hrun
    exact Leads.put hl hend hb (by decide) (by simp [Switch.exec, Switch.execAlu])
  case gpc o d =>
    cases hrun
    refine Leads.put hl hend hb (by decide) ?_
    simp [Switch.exec, Switch.execAlu, (offset_nibble o).2, BitVec.ofNat_add, hpc]
  case shl k r =>
    cases hrun
    obtain ⟨hpos, hshl⟩ := shl_ofNat hfits (m.core.reg.get r)
    refine Leads.put hl hend hb (by decide) ?_
    simp [Switch.exec, hpos, hshl]
  case shr k r =>
    cases hrun
    obtain ⟨hneg, hshr⟩ := shr_neg k (m.core.reg.get r)
    refine Leads.put hl hend hb (by decide) ?_
    simp [Switch.exec, hneg, hshr]
  case br t =>
    cases hrun
    exact Leads.branch hl hend hfits hb (by decide) (by simp [Switch.exec])
  case beq r t =>
    cases hrun
    by_cases hr : m.core.reg.get r = 0
    · rw [if_pos hr]
      exact Leads.branch hl hend hfits hb (by decide) (by simp [Switch.exec, hr])
    · rw [if_neg hr]
      have hr' : m.core.reg.get r ≠ 0#32 := hr
      exact Leads.next hl hend hb (by decide) (by simp [Switch.exec, hr'])
  case bgt r t =>
    cases hrun
    by_cases hr : 0 < (m.core.reg.get r).toInt
    · rw [if_pos hr]
      exact Leads.branch hl hend hfits hb (by decide) (by simp [Switch.exec, hr])
    · rw [if_neg hr]
      exact Leads.next hl hend hb (by decide) (by simp [Switch.exec, hr])
  case j t =>
    cases hrun
    have ht : (BitVec.ofNat 32 t).toNat = t := Nat.mod_eq_of_lt hfits
    refine ⟨_, (cycle_long hb (.inr rfl)).trans rfl, ?_, hl⟩
    unfold Machine.core
    dsimp only [Machine.fetched]
    rw [ht]
  case jr r =>
    cases hrun
    refine Leads.jump hl hb (by decide) ?_
    simp [Switch.exec, jumpOffset]
  case halt => cases hrun

/-! ## Runs -/

/-- Iterations of `compute` that go on. -/
def Reaches (ext : Externals memSize W) : Machine memSize W → Machine memSize W → Prop :=
  Relation.ReflTransGen fun m m' => Switch.cycle ext m = some (m', true)

namespace Program

/-- The next instruction is in the code of `P`. -/
def Within (P : Program) (m : Machine memSize W) : Prop := P.lo ≤ m.pc.toNat ∧ m.pc.toNat < P.hi

/-- Iterations of `compute` in the code of `P`. -/
def Cycles (P : Program) (ext : Externals memSize W) :
    Machine memSize W → Machine memSize W → Prop :=
  Relation.ReflTransGen fun m m' => P.Within m ∧ Switch.cycle ext m = some (m', true)

/-- The code of `P`, entered in `m`, is left in `m'`. -/
def Returns (P : Program) (ext : Externals memSize W) (m m' : Machine memSize W) : Prop :=
  P.Cycles ext m m' ∧ ¬P.Within m'

theorem Cycles.stops {m'' : Machine memSize W} (h : P.Cycles ext m m')
    (hstop : Switch.Compute ext m' m'') : Switch.Compute ext m m'' := by
  induction h using Relation.ReflTransGen.head_induction_on with
  | refl => exact hstop
  | head hstep _ ih => exact .again hstep.2 ih

theorem Returns.unique {m'' : Machine memSize W} (h : P.Returns ext m m')
    (h' : P.Returns ext m m'') : m' = m'' := by
  obtain ⟨hrun, hout⟩ := h
  obtain ⟨hrun', hout'⟩ := h'
  induction hrun using Relation.ReflTransGen.head_induction_on with
  | refl =>
    rcases Relation.ReflTransGen.cases_head hrun' with rfl | ⟨m₁, hstep, -⟩
    · rfl
    · exact absurd hstep.1 hout
  | head hstep _ ih =>
    rcases Relation.ReflTransGen.cases_head hrun' with rfl | ⟨m₁, hstep', hrest⟩
    · exact absurd hstep.1 hout'
    · have heq := hstep.2.symm.trans hstep'.2
      cases heq
      exact ih hrest

/-- **A program runs as it says.** -/
theorem Runs.sim (ext : Externals memSize W) (h : P.Runs m.core c') (hl : Loaded P m.mem) :
    ∃ m', P.Cycles ext m m' ∧ m'.core = c' ∧ Loaded P m'.mem := by
  induction h with
  | refl => exact ⟨m, .refl, rfl, hl⟩
  | tail _ hstep ih =>
    obtain ⟨m₁, hcycles, rfl, hl₁⟩ := ih
    obtain ⟨m₂, hcycle, hcore, hl₂⟩ := step_sim hl₁ hstep
    obtain ⟨i, hi, -⟩ := Option.bind_eq_some_iff.mp hstep
    obtain ⟨hlo, hhi, -⟩ := P.fits _ (P.mem_of_ins hi)
    have hlt : m₁.core.pc < P.hi := lt_of_lt_of_le (Nat.lt_add_of_pos_right i.length_pos) hhi
    exact ⟨m₂, hcycles.tail ⟨⟨hlo, hlt⟩, hcycle⟩, hcore, hl₂⟩

/-- **A subroutine returns.** -/
theorem Runs.returns (ext : Externals memSize W) (h : P.Runs m.core c') (hl : Loaded P m.mem)
    (hout : ¬(P.lo ≤ c'.pc ∧ c'.pc < P.hi)) :
    ∃ m', P.Returns ext m m' ∧ m'.core = c' ∧ Loaded P m'.mem := by
  obtain ⟨m', hcycles, rfl, hl'⟩ := h.sim ext hl
  exact ⟨m', ⟨hcycles, hout⟩, rfl, hl'⟩

theorem cycle_halt (ext : Externals memSize W) (hl : Loaded P m.mem)
    (hhalt : P.ins m.core.pc = some .halt) :
    ∃ m', Switch.cycle ext m = some (m', false) ∧
      m'.core = { m.core with pc := m.core.pc + 2 } := by
  have hmem := P.mem_of_ins hhalt
  obtain ⟨-, hhi, -⟩ := P.fits _ hmem
  have hb := hl _ hmem
  have hpc : BitVec.ofNat 32 m.core.pc = m.pc := BitVec.ofNat_toNat _ _
  have hnext : (m.pc + 2).toNat = m.pc.toNat + 2 := pc_add m.pc (le_trans hhi P.hi_le)
  dsimp only at hb
  rw [hpc] at hb
  refine ⟨_, (cycle_short hb (by decide)).trans rfl, ?_⟩
  unfold Machine.core
  dsimp only [Machine.fetched]
  rw [hnext]

/-- **The simulator stops where a program halts.** -/
theorem Runs.compute (ext : Externals memSize W) (h : P.Runs m.core c') (hl : Loaded P m.mem)
    (hhalt : P.ins c'.pc = some .halt) :
    ∃ m', Switch.Compute ext m m' ∧ m'.core = { c' with pc := c'.pc + 2 } := by
  obtain ⟨m₁, hcycles, rfl, hl₁⟩ := h.sim ext hl
  obtain ⟨m', hcycle, hcore⟩ := cycle_halt ext hl₁ hhalt
  exact ⟨m', hcycles.stops (.last hcycle), hcore⟩

/-- **A program that halts** leaves the memory that it says. -/
theorem computes {pc : ℕ} {a : BitVec 32} {mem : ℕ → BitVec 32}
    (ext : Externals memSize W) (hpc : m.pc = a) (hcode : Loaded P m.mem)
    (hruns : ∀ x, ∃ x', P.Runs ⟨a.toNat, x, word m.mem⟩ ⟨pc, x', mem⟩)
    (hhalt : P.ins pc = some .halt) : ∃ m', Switch.Compute ext m m' ∧ word m'.mem = mem := by
  obtain ⟨x', hruns⟩ := hruns (Registers.ofRegs m.reg)
  have hcore : m.core = ⟨a.toNat, .ofRegs m.reg, word m.mem⟩ := by
    unfold Machine.core
    rw [hpc]
  rw [← hcore] at hruns
  obtain ⟨m', hcompute, hm'⟩ := hruns.compute ext hcode hhalt
  exact ⟨m', hcompute, congrArg Core.mem hm'⟩

theorem Cycles.reaches (h : P.Cycles ext m m') : Reaches ext m m' := by
  induction h with
  | refl => exact .refl
  | tail _ hstep ih => exact ih.tail hstep.2

/-- **What a program writes** in any of the states that the simulator reaches. -/
theorem RunsIn.writes {R : ℕ → Prop} (h : P.RunsIn R m.core c') (hl : Loaded P m.mem)
    (hhalt : P.ins c'.pc = some .halt) (hm : Reaches ext m m') :
    (∀ k, P.target m'.core = some k → R k) ∧ ∀ k, ¬R k → word m'.mem k = word m.mem k := by
  generalize hc : m.core = c at h
  induction h using Relation.ReflTransGen.head_induction_on generalizing m with
  | refl =>
    rw [← hc] at hhalt
    rcases Relation.ReflTransGen.cases_head hm with rfl | ⟨m₁, hcycle, -⟩
    · refine ⟨fun k hk => ?_, fun _ _ => rfl⟩
      rw [target, hhalt] at hk
      cases hk
    · obtain ⟨m₂, hstop, -⟩ := cycle_halt ext hl hhalt
      cases hcycle.symm.trans hstop
  | head hstep _ ih =>
    rw [← hc] at hstep
    rcases Relation.ReflTransGen.cases_head hm with rfl | ⟨m₁, hcycle, hrest⟩
    · exact ⟨hstep.2, fun _ _ => rfl⟩
    · obtain ⟨m₂, hcycle', hcore, hl₂⟩ : Leads P ext m _ := step_sim hl hstep.1
      cases hcycle.symm.trans hcycle'
      obtain ⟨hwrites, hsame⟩ := ih hl₂ hrest hcore
      refine ⟨hwrites, fun k hk => (hsame k hk).trans ?_⟩
      rw [← hcore] at hstep
      exact step_mem hstep.1 fun e => hk (hstep.2 k e)

/-- The bytes of the code, and the words `data` where there is none. -/
def image (P : Program) (data : ℕ → BitVec 32) : Memory memSize := fun i =>
  let bytes := P.listing.flatMap fun x => (x.2.encode x.1).zipIdx x.1
  ((bytes.find? fun x => x.2 = (i : ℕ)).map Prod.fst).getD (byteOf (data (i / 4)) (i % 4))

theorem image_of_not (P : Program) (data : ℕ → BitVec 32) {i : Fin memSize}
    (hi : (i : ℕ) < P.lo ∨ P.hi ≤ i) : P.image data i = byteOf (data (i / 4)) (i % 4) := by
  have hnone : (P.listing.flatMap fun x => (x.2.encode x.1).zipIdx x.1).find?
      (fun x => x.2 = (i : ℕ)) = none := by
    refine List.find?_eq_none.mpr fun y hy => ?_
    obtain ⟨x, hx, hy⟩ := List.mem_flatMap.mp hy
    obtain ⟨hlo, hhi, -⟩ := P.fits x hx
    obtain ⟨hle, hlt, -⟩ := List.mem_zipIdx hy
    rw [x.2.length_encode] at hlt
    simp only [decide_eq_true_eq]
    omega
  unfold image
  dsimp only
  rw [hnone]
  rfl

theorem word_image (P : Program) (data : ℕ → BitVec 32) {k : ℕ} (hk : k < memSize / 4)
    (hw : P.Writable k) : word (P.image data) k = data k := by
  have hmem : 4 * k + 3 < memSize := by unfold memSize at hk ⊢; omega
  unfold Writable at hw
  have hbyte : ∀ j, (hj : j < 4) →
      P.image data ⟨4 * k + j, by omega⟩ = byteOf (data k) j := fun j hj => by
    rw [image_of_not P data (by dsimp only; omega), show (4 * k + j) / 4 = k by omega,
      show (4 * k + j) % 4 = j by omega]
  have h0 : P.image data ⟨4 * k, by omega⟩ = byteOf (data k) 0 := hbyte 0 (by decide)
  unfold word
  rw [dif_pos hmem, h0, hbyte 1 (by decide), hbyte 2 (by decide), hbyte 3 (by decide),
    append_byteOf]

end Program

/-- The calls of a program that makes none. -/
def noCalls : Externals memSize Unit where
  read _ _ _ _ _ := none
  write _ _ _ _ _ := none
  getenv _ _ := none
  system _ _ := none

end IntroSystems.SM213
