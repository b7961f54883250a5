import IntroSystems.Lib.Follows
import IntroSystems.SM213.Switch
import IntroSystems.SM213.CpuA6

/-!
# The C simulator and the Java CPU

* `Same`, `Decoded`: the machine of `sm.c` and the CPU of assignment 6 agree before a cycle, and
  after the fetch stage.
* `fetch_follows`, `exec_follows`: the stages of `sm.c` follow those of `CPU.java`.
* `jumpOffset_eq_iff`: the two take the offset of opcode `c` for the same only when it is below 128.
* `cycle_agrees_iff`: so they agree on all but the other jumps.
* `compute_of_halts`: programs without such a jump run to the same end.
-/

set_option autoImplicit false

namespace IntroSystems.SM213

open Java

variable {n : ℕ} {W : Type}

/-- The machines have the same registers, memory and pc. -/
structure Same (m : Machine n W) (s : CPU n) : Prop where
  reg : m.reg = s.reg
  mem : m.mem = s.mem
  pc : m.pc = s.pc

/-- They have also fetched the same instruction. -/
structure Decoded (m : Machine n W) (s : CPU n) : Prop extends Same m s where
  insOpCode : m.insOpCode.toNat = s.insOpCode.toNat
  insOp0 : m.insOp0.toNat = s.insOp0.toNat
  insOp1 : m.insOp1.toNat = s.insOp1.toNat
  insOp2 : m.insOp2.toNat = s.insOp2.toNat
  insOpImm : m.insOpImm = s.insOpImm
  insOpExt : s.insOpCode.toNat = 0x0 ∨ s.insOpCode.toNat = 0xb → m.insOpExt = s.insOpExt

/-- What the execution stage may throw when it does not halt. -/
def Fails (e : Exn) : Prop := e ≠ .machineHalt

/-! ## Arithmetic -/

theorem setWidth_eq {x : BitVec 8} {y : BitVec 4} (h : x.toNat = y.toNat) :
    x.setWidth 32 = y.setWidth 32 := by
  rw [← BitVec.toNat_inj, BitVec.toNat_setWidth, BitVec.toNat_setWidth, h]

/-- **The offsets of opcode `c`** are the same exactly for the bytes below 128. -/
theorem jumpOffset_eq_iff (k : BitVec 8) : jumpOffset k = k.setWidth 32 <<< 1 ↔ k.msb = false := by
  revert k
  decide +kernel

theorem toNat_and_31 {k : BitVec 8} (h0 : 0 < k.toInt) (h : k.toInt < 32) :
    (k.signExtend 32 &&& 31).toNat = k.toInt.toNat := by
  revert k
  decide +kernel

theorem toNat_neg_and_31 {k : BitVec 8} (h0 : k.toInt ≤ 0) (h : -k.toInt < 32) :
    (-k.signExtend 32 &&& 31).toNat = (-k.toInt).toNat := by
  revert k
  decide +kernel

/-! ## The accesses -/

section

variable {B : Base n} {m : Machine n W} {s : CPU n} {i : BitVec 8} {j : ℕ}

theorem getReg_follows (hB : B.Documented) (h : Same m s) (hij : i.toNat = j) :
    Follows Fails Eq (m.getReg i) (s.getReg B j) := by
  rw [Machine.getReg, CPU.getReg, hB.getReg, h.reg, hij]
  cases s.reg.get j with
  | none => exact .error (by simp [Fails])
  | some r => exact .ok rfl

theorem setReg_follows (hB : B.Documented) (h : Same m s) (hij : i.toNat = j) {v v' : BitVec 32}
    (hv : v = v') : Follows Fails Same (m.setReg i v) (s.setReg B j v') := by
  rw [Machine.setReg, CPU.setReg, hB.setReg, h.reg, hij, hv]
  cases s.reg.set j v' with
  | none => exact .error (by simp [Fails])
  | some reg => exact .ok ⟨rfl, h.mem, h.pc⟩

theorem load_follows (hB : B.Documented) (h : Same m s) {a a' : BitVec 32} (ha : a = a') :
    Follows Fails Eq (load m.mem a) (s.readInteger B a') := by
  rw [CPU.readInteger, h.mem, ha]
  cases hv : B.readInteger s.mem a' with
  | error e => exact .error (by simp [Fails])
  | ok v =>
    obtain ⟨-, b0, b1, b2, b3, hbytes, hv⟩ := hB.readInteger hv
    exact ⟨_, MainMemory.load_eq hbytes, hv.symm⟩

theorem setWord_follows (hB : B.Documented) (h : Same m s) {a a' v v' : BitVec 32} (ha : a = a')
    (hv : v = v') : Follows Fails Same (m.setWord a v) (s.writeInteger B a' v') := by
  rw [CPU.writeInteger, Machine.setWord, h.mem, ha, hv, MainMemory.store_eq]
  cases hw : B.writeInteger s.mem a' v' with
  | error e => exact .error (by simp [Fails])
  | ok mem =>
    rw [(hB.writeInteger hw).2]
    exact .ok ⟨h.reg, rfl, h.pc⟩

theorem branch_same (h : Same m s) (k : BitVec 8) : Same (m.branch k) (s.branch (k.signExtend 32)) :=
  ⟨h.reg, h.mem, by rw [Machine.branch, CPU.branch, h.pc, shiftLeft_one]⟩

end

/-! ## The fetch stage -/

theorem setIns_decoded {m : Machine n W} {s : CPU n} (h : Same m s) (b0 b1 : BitVec 8)
    (extM extS : BitVec 32) (pc : BitVec 32)
    (hext : (b0 >>> 4).toNat = 0x0 ∨ (b0 >>> 4).toNat = 0xb → extM = extS) :
    Decoded { m.setIns b0 b1 with insOpExt := extM, pc }
      { Java.decode s b0 b1 with insOpExt := extS, pc } where
  reg := h.reg
  mem := h.mem
  pc := rfl
  insOpCode := (toNat_high b0).symm
  insOp0 := (toNat_low b0).symm
  insOp1 := (toNat_high b1).symm
  insOp2 := (toNat_low b1).symm
  insOpImm := rfl
  insOpExt hop := hext (by rwa [← toNat_high b0])

theorem fetchExt_follows {B : Base n} (hB : B.Documented) {m : Machine n W} {s : CPU n}
    (h : Same m s) (b0 b1 : BitVec 8) :
    Follows Fails Decoded
      ((load s.mem (s.pc + 2)).map fun w =>
        { m.setIns b0 b1 with insOpExt := w, pc := s.pc + 2 + 4 })
      (do
        let opExt ← Java.memory (B.readIntegerUnaligned s.mem (s.pc + 2))
        .ok { Java.decode s b0 b1 with insOpExt := opExt, pc := s.pc + 2 + 4 }) := by
  cases hr : B.readIntegerUnaligned s.mem (s.pc + 2) with
  | error e => exact .error (by simp [Fails])
  | ok v =>
    obtain ⟨_, _, _, _, hbytes, rfl⟩ := hB.readIntegerUnaligned hr
    rw [MainMemory.load_eq hbytes]
    exact .ok (setIns_decoded h b0 b1 _ _ _ fun _ => rfl)

theorem fetch_follows {B : Base n} (hB : B.Documented) {m : Machine n W} {s : CPU n}
    (h : Same m s) : Follows Fails Decoded (Switch.fetch m) (fetch B s) := by
  cases hr : B.read s.mem s.pc 2 with
  | error e =>
    rw [fetch, hr]
    exact .error (by simp [Fails])
  | ok ins =>
    obtain ⟨b0, b1, rfl, h0, h1⟩ := Memory.bytes_two (hB.read hr)
    have hcode : (Java.decode s b0 b1).insOpCode.toNat = (b0 >>> 4).toNat := toNat_high b0
    rw [fetch_of_read hr, Switch.fetch, decode_of_get (h.mem ▸ h.pc ▸ h0) (h.mem ▸ h.pc ▸ h1)]
    change Follows Fails Decoded (Switch.fetchSwitch (m.setIns b0 b1)) _
    by_cases hop : (b0 >>> 4).toNat = 0x0 ∨ (b0 >>> 4).toNat = 0xb
    · have hload : SM213.fetchExt (m.setIns b0 b1) = (load s.mem (s.pc + 2)).map fun w =>
          { m.setIns b0 b1 with insOpExt := w, pc := s.pc + 2 + 4 } := by
        rw [← h.mem, ← h.pc]
        rfl
      rw [Switch.fetchSwitch_of_eq hop, Java.fetchExt_of_eq B (by rwa [hcode]), hload]
      exact fetchExt_follows hB h b0 b1
    · have hpc : (Java.decode s b0 b1).pc + 2 = m.pc + 2 := by
        rw [h.pc]
        rfl
      rw [Switch.fetchSwitch_of_ne hop, Java.fetchExt_of_ne B (by rwa [hcode]), hpc]
      exact .ok (setIns_decoded h b0 b1 m.insOpExt 0 (m.pc + 2) fun h => absurd h hop)

/-! ## The execution stage -/

theorem execAlu_follows {B : Base n} (hB : B.Documented) {m : Machine n W} {s : CPU n}
    (h : Decoded m s) : Follows Fails Same (Switch.execAlu m) (A6.executeAlu B s) := by
  have get1 := getReg_follows hB h.toSame h.insOp1
  have get2 := getReg_follows hB h.toSame h.insOp2
  have set2 {v v' : BitVec 32} (hv : v = v') := setReg_follows hB h.toSame h.insOp2 hv
  have hk : s.insOp0.toNat < 16 := s.insOp0.isLt
  unfold Switch.execAlu A6.executeAlu
  rw [h.insOp0]
  generalize s.insOp0.toNat = k at hk
  match k, hk with
  | 0x0, _ => exact get1.bind fun _ _ e => set2 e
  | 0x1, _ => exact get1.bind fun _ _ e => get2.bind fun _ _ e' => set2 (by rw [e, e'])
  | 0x2, _ => exact get1.bind fun _ _ e => get2.bind fun _ _ e' => set2 (by rw [e, e'])
  | 0x3, _ | 0x4, _ | 0x5, _ | 0x6, _ | 0x7, _ =>
    exact get2.bind fun _ _ e => set2 (by rw [e])
  | 0xf, _ => exact set2 (by rw [h.pc, setWidth_eq h.insOp1])
  | 0x8, _ | 0x9, _ | 0xa, _ | 0xb, _ | 0xc, _ | 0xd, _ | 0xe, _ => exact .error (by simp [Fails])
  | k + 16, hk => omega

/-- What the two cycles come to: the same flag, and machines that agree. -/
def SameOutcome (x : Outcome n W) (y : CPU n × Bool) : Prop := x.2 = y.2 ∧ Same x.1 y.1

theorem finish_error (s : CPU n) {e : Exn} (h : Fails e) : finish s (.error e) = .error e := by
  cases e with
  | machineHalt => exact absurd rfl h
  | _ => rfl

theorem goOn_follows {c : Option (Machine n W)} {s : CPU n} {j : Except Exn (CPU n)}
    (h : Follows Fails Same c j) : Follows Fails SameOutcome (goOn c) (finish s j) := by
  cases j with
  | error e =>
    rw [finish_error s h]
    exact h
  | ok s' =>
    obtain ⟨m', rfl, h⟩ := h
    exact .ok ⟨rfl, h⟩

theorem shl_eq {k : BitVec 8} {r r' : BitVec 32} (hr : r = r') (h0 : 0 < k.toInt)
    (h : k.toInt < 32) : shl r k = some (Java.shl r' (k.signExtend 32)) := by
  rw [SM213.shl, if_pos h, Java.shl, toNat_and_31 h0 h, hr]

theorem shr_eq {k : BitVec 8} {r r' : BitVec 32} (hr : r = r') (h0 : k.toInt ≤ 0)
    (h : -k.toInt < 32) : shr r k = some (Java.shr r' (-k.signExtend 32)) := by
  rw [SM213.shr, if_pos h, Java.shr, toNat_neg_and_31 h0 h, hr]

/-- **The execution stages agree** on what the C machine can execute, and on the jumps with a small
offset. -/
theorem exec_follows {B : Base n} (hB : B.Documented) (ext : Externals n W) {m : Machine n W}
    {s : CPU n} (h : Decoded m s)
    (noSys : s.insOpCode.toNat = 0xf → s.insOp0.toNat ≠ 1)
    (shift : s.insOpCode.toNat = 0x7 → s.insOpImm.toInt.natAbs < 32)
    (jump : s.insOpCode.toNat = 0xc → s.insOpImm.msb = false) :
    Follows Fails SameOutcome (Switch.exec ext m) (finish s (A6.execute B s)) := by
  have get0 := getReg_follows hB h.toSame h.insOp0
  have get1 := getReg_follows hB h.toSame h.insOp1
  have get2 := getReg_follows hB h.toSame h.insOp2
  have hk : s.insOpCode.toNat < 16 := s.insOpCode.isLt
  have hext := h.insOpExt
  unfold Switch.exec A6.execute
  rw [h.insOpCode, h.insOpImm]
  generalize s.insOpCode.toNat = k at hk hext noSys shift jump
  match k, hk with
  | 0x0, _ => exact goOn_follows (setReg_follows hB h.toSame h.insOp0 (hext (.inl rfl)))
  | 0x1, _ =>
    refine goOn_follows (get1.bind fun _ _ e => (load_follows hB h.toSame ?_).bind fun _ _ e' =>
      setReg_follows hB h.toSame h.insOp2 e')
    rw [e, setWidth_eq h.insOp0]
  | 0x2, _ =>
    refine goOn_follows (get0.bind fun _ _ e => get1.bind fun _ _ e' =>
      (load_follows hB h.toSame ?_).bind fun _ _ e'' => setReg_follows hB h.toSame h.insOp2 e'')
    rw [e, e']
  | 0x3, _ =>
    refine goOn_follows (get2.bind fun _ _ e => get0.bind fun _ _ e' =>
      setWord_follows hB h.toSame ?_ e')
    rw [e, setWidth_eq h.insOp1]
  | 0x4, _ =>
    refine goOn_follows (get1.bind fun _ _ e => get2.bind fun _ _ e' => get0.bind fun _ _ e'' =>
      setWord_follows hB h.toSame ?_ e'')
    rw [e, e']
  | 0x6, _ => exact goOn_follows (execAlu_follows hB h)
  | 0x7, _ =>
    have hs := shift rfl
    refine goOn_follows (get0.bind fun _ _ e => .ite Iff.rfl (fun h0 => ?_) fun h0 => ?_)
    · rw [shl_eq e h0 (by omega)]
      exact setReg_follows hB h.toSame h.insOp0 rfl
    · rw [shr_eq e (by omega) (by omega)]
      exact setReg_follows hB h.toSame h.insOp0 rfl
  | 0x8, _ => exact goOn_follows (.ok (branch_same h.toSame _))
  | 0x9, _ | 0xa, _ =>
    refine goOn_follows (get0.bind fun _ _ e => .ok ?_)
    rw [e]
    split
    · exact branch_same h.toSame _
    · exact h.toSame
  | 0xb, _ => exact goOn_follows (.ok ⟨h.reg, h.mem, hext (.inr rfl)⟩)
  | 0xc, _ =>
    refine goOn_follows (get0.bind fun _ _ e => .ok ⟨h.reg, h.mem, ?_⟩)
    rw [(jumpOffset_eq_iff _).2 (jump rfl), e, BitVec.add_comm]
  | 0xf, _ =>
    have h1 : m.insOp0 ≠ 1 := fun h1 => noSys rfl (by rw [← h.insOp0, h1]; rfl)
    have h0 : m.insOp0 = 0 ↔ s.insOp0 = 0 := by
      rw [← BitVec.toNat_inj, ← BitVec.toNat_inj, h.insOp0]
      rfl
    by_cases hs : s.insOp0 = 0
    · rw [if_pos (h0.2 hs), if_pos hs]
      exact .ok ⟨rfl, h.toSame⟩
    · rw [if_neg (mt h0.1 hs), if_neg h1, if_neg hs]
      exact .ok ⟨rfl, h.toSame⟩
  | 0x5, _ | 0xd, _ | 0xe, _ => exact .error (by simp [Fails])
  | k + 16, hk => omega

/-- A jump with an offset of 128 or more goes to another address in C. -/
theorem exec_jump_ne {B : Base n} (hB : B.Documented) (ext : Externals n W) {m m' : Machine n W}
    {s s' : CPU n} {cont cont' : Bool} (h : Decoded m s) (hcode : s.insOpCode.toNat = 0xc)
    (far : s.insOpImm.msb = true) (hj : finish s (A6.execute B s) = .ok (s', cont))
    (hc : Switch.exec ext m = some (m', cont')) : m'.pc ≠ s'.pc := by
  have get0 := getReg_follows hB h.toSame h.insOp0
  unfold A6.execute at hj
  unfold Switch.exec at hc
  rw [hcode] at hj
  rw [h.insOpCode, hcode, h.insOpImm] at hc
  cases hr : s.getReg B s.insOp0.toNat with
  | error e =>
    rw [hr] at get0 hj
    have := (finish_error s get0).symm.trans hj
    cases this
  | ok r =>
    rw [hr] at get0
    obtain ⟨r', hr', rfl⟩ := get0
    simp only [hr] at hj
    simp only [hr'] at hc
    cases hj
    cases hc
    intro hpc
    change jumpOffset s.insOpImm + r' = r' + (s.insOpImm.setWidth 32 <<< 1) at hpc
    rw [BitVec.add_comm, BitVec.add_right_inj, jumpOffset_eq_iff, far] at hpc
    cases hpc

/-! ## Cycles -/

/-- An instruction that the two machines have in common: no `sys`, and no shift by 32 or more. -/
def Common (b0 b1 : BitVec 8) : Prop :=
  b0 ≠ 0xf1 ∧ ((b0 >>> 4).toNat = 0x7 → b1.toInt.natAbs < 32)

/-- A jump `c` whose offset byte is negative as a `char`. -/
def FarJump (b0 b1 : BitVec 8) : Prop := (b0 >>> 4).toNat = 0xc ∧ b1.msb = true

theorem ne_sys {b0 : BitVec 8} (h : b0 ≠ 0xf1) (hcode : (b0 >>> 4).toNat = 0xf) :
    (b0 &&& 0xf).toNat ≠ 1 := by
  revert b0
  decide +kernel

theorem fetch_insOp {B : Base n} (hB : B.Documented) {s s1 : CPU n} {b0 b1 : BitVec 8}
    (h0 : s.mem.get s.pc = some b0) (h1 : s.mem.get (s.pc + 1) = some b1)
    (hf : fetch B s = .ok s1) :
    s1.insOpCode.toNat = (b0 >>> 4).toNat ∧ s1.insOp0.toNat = (b0 &&& 0xf).toNat ∧
      s1.insOpImm = b1 := by
  cases hr : B.read s.mem s.pc 2 with
  | error e =>
    rw [fetch, hr] at hf
    cases hf
  | ok ins =>
    obtain ⟨b0', b1', rfl, h0', h1'⟩ := Memory.bytes_two (hB.read hr)
    cases h0.symm.trans h0'
    cases h1.symm.trans h1'
    rw [fetch_of_read hr] at hf
    obtain ⟨hcode, hop0, himm⟩ := fetchExt_insOp hf
    rw [hcode, hop0, himm]
    exact ⟨toNat_high b0, toNat_low b0, rfl⟩

section

variable {B : Base n} (hB : B.Documented) (ext : Externals n W) {m : Machine n W} {s s' : CPU n}
  {cont : Bool} {b0 b1 : BitVec 8}

include hB in
theorem cycle_stages (same : Same m s) (h0 : s.mem.get s.pc = some b0)
    (h1 : s.mem.get (s.pc + 1) = some b1) (ran : cycle A6.execute B s = .ok (s', cont)) :
    ∃ m1 s1, Decoded m1 s1 ∧ s1.insOpCode.toNat = (b0 >>> 4).toNat ∧
      s1.insOp0.toNat = (b0 &&& 0xf).toNat ∧ s1.insOpImm = b1 ∧
      Switch.cycle ext m = Switch.exec ext m1 ∧ finish s1 (A6.execute B s1) = .ok (s', cont) := by
  have hfetch := fetch_follows hB same
  cases hf : fetch B s with
  | error e =>
    rw [cycle, hf] at ran
    cases ran
  | ok s1 =>
    rw [hf] at hfetch
    obtain ⟨m1, hm1, hd⟩ := hfetch
    obtain ⟨hcode, hop0, himm⟩ := fetch_insOp hB h0 h1 hf
    refine ⟨m1, s1, hd, hcode, hop0, himm, ?_, ?_⟩
    · rw [Switch.cycle, hm1]
      rfl
    · rw [cycle, hf] at ran
      exact ran

include hB in
theorem cycle_of_near (same : Same m s) (h0 : s.mem.get s.pc = some b0)
    (h1 : s.mem.get (s.pc + 1) = some b1) (common : Common b0 b1) (near : ¬ FarJump b0 b1)
    (ran : cycle A6.execute B s = .ok (s', cont)) :
    ∃ m', Switch.cycle ext m = some (m', cont) ∧ Same m' s' := by
  obtain ⟨m1, s1, hd, hcode, hop0, himm, hc, hj⟩ := cycle_stages hB ext same h0 h1 ran
  have hexec : Follows Fails SameOutcome (Switch.exec ext m1) (finish s1 (A6.execute B s1)) := by
    apply exec_follows hB ext hd
    · rw [hcode, hop0]
      exact ne_sys common.1
    · rw [hcode, himm]
      exact common.2
    · rw [hcode, himm]
      intro hjump
      exact Bool.eq_false_iff.2 fun hfar => near ⟨hjump, hfar⟩
  rw [hj] at hexec
  obtain ⟨⟨m', cont'⟩, hm', rfl, hs⟩ := hexec
  exact ⟨m', hc.trans hm', hs⟩

include hB in
theorem cycle_of_far (same : Same m s) (h0 : s.mem.get s.pc = some b0)
    (h1 : s.mem.get (s.pc + 1) = some b1) (far : FarJump b0 b1)
    (ran : cycle A6.execute B s = .ok (s', cont)) :
    ¬ ∃ m', Switch.cycle ext m = some (m', cont) ∧ Same m' s' := by
  obtain ⟨m1, s1, hd, hcode, -, himm, hc, hj⟩ := cycle_stages hB ext same h0 h1 ran
  rintro ⟨m', hm', hs⟩
  exact exec_jump_ne hB ext hd (hcode.trans far.1) (himm ▸ far.2) hj (hc.symm.trans hm') hs.pc

include hB in
/-- **The C simulator agrees with the Java CPU** on every common instruction except far jumps, and
there it never does. -/
theorem cycle_agrees_iff (same : Same m s) (h0 : s.mem.get s.pc = some b0)
    (h1 : s.mem.get (s.pc + 1) = some b1) (common : Common b0 b1)
    (ran : cycle A6.execute B s = .ok (s', cont)) :
    (∃ m', Switch.cycle ext m = some (m', cont) ∧ Same m' s') ↔ ¬ FarJump b0 b1 := by
  constructor
  · intro agrees far
    exact cycle_of_far hB ext same h0 h1 far ran agrees
  · intro near
    exact cycle_of_near hB ext same h0 h1 common near ran

end

/-! ## Runs -/

instance (b0 b1 : BitVec 8) : Decidable (Common b0 b1) := inferInstanceAs (Decidable (_ ∧ _))

instance (b0 b1 : BitVec 8) : Decidable (FarJump b0 b1) := inferInstanceAs (Decidable (_ ∧ _))

/-- The instruction at the pc is a common one and not a far jump. -/
def near (s : CPU n) : Bool :=
  match s.mem.get s.pc, s.mem.get (s.pc + 1) with
  | some b0, some b1 => decide (Common b0 b1) && !decide (FarJump b0 b1)
  | _, _ => false

theorem exists_of_near {s : CPU n} (h : near s = true) : ∃ b0 b1, s.mem.get s.pc = some b0 ∧
    s.mem.get (s.pc + 1) = some b1 ∧ Common b0 b1 ∧ ¬ FarJump b0 b1 := by
  unfold near at h
  split at h
  · rename_i b0 b1 h0 h1
    rw [Bool.and_eq_true, decide_eq_true_iff, Bool.not_eq_true', decide_eq_false_iff_not] at h
    exact ⟨b0, b1, h0, h1, h⟩
  · cases h

/-- The cycles of the Java CPU, as the body of a loop. -/
def javaCycle (B : Base n) : Loop.Body (CPU n) := fun s => (cycle A6.execute B s).toOption

/-- **A program that halts on the Java CPU**, without a far jump on its way, halts in the same state
in C. -/
theorem compute_of_halts {B : Base n} (hB : B.Documented) (ext : Externals n W) {m : Machine n W}
    {s t : CPU n} (same : Same m s) (halts : Loop.Stops (Loop.restrict near (javaCycle B)) s t) :
    ∃ m', Switch.Compute ext m m' ∧ Same m' t := by
  refine halts.simulate (R := fun s m => Same m s) (fun {s s' m c} same hstep => ?_) same
  obtain ⟨hnear, hj⟩ := Loop.restrict_eq_some.1 hstep
  obtain ⟨b0, b1, h0, h1, common, hfar⟩ := exists_of_near hnear
  have ran : cycle A6.execute B s = .ok (s', c) := by
    rw [javaCycle] at hj
    cases hr : cycle A6.execute B s with
    | error e => simp [hr, Except.toOption] at hj
    | ok x =>
      rw [hr] at hj
      cases hj
      rfl
  exact cycle_of_near hB ext same h0 h1 common hfar ran

/-! ## A far jump -/

/-- `j o(r0)` at 0, with the offset byte `k`. -/
def jumpMemory (k : BitVec 8) : Memory 40000 := fun i =>
  if i.val = 0 then 0xc0 else if i.val = 1 then k else 0

/-- The CPU that executes it, with the result in `pc`. -/
def jumpCPU (k : BitVec 8) (pc : BitVec 32) : CPU 40000 where
  reg := fun _ => 0
  mem := jumpMemory k
  pc := pc
  insOpCode := 0xc
  insOp0 := 0
  insOp1 := (k >>> 4).setWidth 4
  insOp2 := (k &&& 0xf).setWidth 4
  insOpImm := k
  insOpExt := 0

/-- The machine in C that does. -/
def jumpMachine (k : BitVec 8) : Machine 40000 Unit where
  reg := fun _ => 0
  mem := jumpMemory k
  pc := 0
  insOpCode := 0
  insOp0 := 0
  insOp1 := 0
  insOp2 := 0
  insOpImm := 0
  insOpExt := 0
  out := []
  world := ()

/-- Calls that are not made. -/
def noExternals : Externals 40000 Unit where
  read _ _ _ _ _ := none
  write _ _ _ _ _ := none
  getenv _ _ := none
  system _ _ := none

/-- With the byte `80` the Java CPU jumps to `100`, and the machine in C to `1ff00`. -/
theorem far_jump_differs : ¬ ∀ (ext : Externals 40000 Unit) (m : Machine 40000 Unit)
    (s s' : CPU 40000) (cont : Bool) (b0 b1 : BitVec 8), Same m s →
      s.mem.get s.pc = some b0 → s.mem.get (s.pc + 1) = some b1 → Common b0 b1 →
        cycle A6.execute (Base.student 40000) s = .ok (s', cont) →
          ∃ m', Switch.cycle ext m = some (m', cont) ∧ Same m' s' := by
  intro h
  obtain ⟨m', hc, hs⟩ := h noExternals (jumpMachine 0x80) (jumpCPU 0x80 0) (jumpCPU 0x80 0x100) true
    0xc0 0x80 ⟨rfl, rfl, rfl⟩ (by rfl) (by rfl) ⟨by decide, by decide⟩ (by rfl)
  have hpc : (Switch.cycle noExternals (jumpMachine 0x80)).map (fun x => x.1.pc) = some 0x1ff00 := by
    rfl
  rw [hc] at hpc
  have : (0x1ff00 : BitVec 32) = 0x100 := (Option.some.inj hpc).symm.trans hs.pc
  exact absurd this (by decide)

/-- With the byte `05` the machines agree. -/
theorem near_jump_agrees : ∃ m', Switch.cycle noExternals (jumpMachine 0x05) = some (m', true) ∧
    Same m' (jumpCPU 0x05 0xa) := by
  have h0 : (jumpCPU 0x05 0).mem.get (jumpCPU 0x05 0).pc = some 0xc0 := by rfl
  have h1 : (jumpCPU 0x05 0).mem.get ((jumpCPU 0x05 0).pc + 1) = some 0x05 := by rfl
  refine (cycle_agrees_iff (student_documented 40000) noExternals ⟨rfl, rfl, rfl⟩ h0 h1
    ⟨by decide, by decide⟩ (by rfl)).2 ?_
  rintro ⟨-, hfar⟩
  exact absurd hfar (by decide)

end IntroSystems.SM213
