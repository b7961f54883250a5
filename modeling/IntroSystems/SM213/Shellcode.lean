import IntroSystems.SM213.SystemCalls

/-!
# Code that works at any address

`shellcode.s`: the address of its string is relative to that of the code.

* `shellcode`: its bytes.
* **`shellcode_runs`**: the system call that it makes, wherever it is.
-/

set_option autoImplicit false

namespace IntroSystems.SM213

open CString

def binSh : List (BitVec 8) := "/bin/sh".toList.map ch

/-- `shellcode.hex`. -/
def shellcode : List (BitVec 8) :=
  [0x6f, 0x50, 0x01, 0x00, 0x00, 0x00, 0x00, 0x07, 0xf1, 0x02, 0xf0, 0x00] ++ binSh ++ [0]

variable {n : ℕ} {W : Type} {mem : Memory n} {a : BitVec 32}

theorem Memory.bytes_append (bs bs' : List (BitVec 8))
    (h : mem.bytes a (bs ++ bs').length = some (bs ++ bs')) :
    mem.bytes a bs.length = some bs ∧
      mem.bytes (a + BitVec.ofNat 32 bs.length) bs'.length = some bs' := by
  induction bs generalizing a with
  | nil => exact ⟨rfl, by simpa using h⟩
  | cons b bs ih =>
    obtain ⟨hb, h⟩ := Memory.bytes_cons.mp h
    obtain ⟨h₁, h₂⟩ := ih h
    refine ⟨Memory.bytes_cons.mpr ⟨hb, h₁⟩, ?_⟩
    have hsucc : a + 1 + BitVec.ofNat 32 bs.length = a + BitVec.ofNat 32 (bs.length + 1) := by
      rw [BitVec.add_assoc, BitVec.ofNat_add, BitVec.add_comm 1]
      rfl
    rwa [hsucc] at h₂

theorem string_of_bytes (bs : List (BitVec 8)) (h : mem.bytes a bs.length = some bs)
    (hbs : ∀ b ∈ bs, b ≠ 0) : string mem a bs.length = some bs := by
  induction bs generalizing a with
  | nil => rfl
  | cons b bs ih =>
    obtain ⟨hb, h⟩ := Memory.bytes_cons.mp h
    have htail := ih h fun c hc => hbs c (List.mem_cons_of_mem b hc)
    rw [List.length_cons, string, hb, Option.bind_eq_bind, Option.bind_some,
      if_neg (hbs b List.mem_cons_self), htail]
    rfl

variable {m : Machine n W}

theorem shellcode_cycles (ext : Externals n W)
    (h : m.mem.bytes m.pc shellcode.length = some shellcode) :
    ∃ m', Relation.ReflTransGen (fun m m' => Switch.cycle ext m = some (m', true)) m m' ∧
      m'.mem.bytes m'.pc 4 = some [0xf1, 0x02, 0xf0, 0x00] ∧ m'.mem.bytes (m'.reg 0) 7 = some binSh ∧
      m'.reg 1 = 7 ∧ m'.world = m.world ∧ m'.out = m.out := by
  obtain ⟨hgpc, h⟩ := Memory.bytes_append [0x6f, 0x50] _ h
  obtain ⟨hldi, h⟩ := Memory.bytes_append [0x01, 0x00, 0x00, 0x00, 0x00, 0x07] _ h
  obtain ⟨hsys, h⟩ := Memory.bytes_append [0xf1, 0x02, 0xf0, 0x00] _ h
  obtain ⟨hstr, -⟩ := Memory.bytes_append binSh _ h
  let m₁ : Machine n W := { m.fetched 6 0xf 0x50 with
    reg := Function.update m.reg 0 (m.pc + 2 + 10) }
  have h₁ : Switch.cycle ext m = some (m₁, true) :=
    (cycle_short (a := 6) (b := 0xf) hgpc (by decide)).trans
      (congrArg goOn (setReg_nibble (m.fetched 6 0xf 0x50) .r0 (m.pc + 2 + 10)))
  let m₂ : Machine n W := { m₁.fetched 0 1 0 with
    insOpExt := 7
    pc := m.pc + 2 + 2 + 4
    reg := Function.update m₁.reg 1 7 }
  have h₂ : Switch.cycle ext m₁ = some (m₂, true) :=
    (cycle_long (m := m₁) (a := 0) (b := 1) (k := 0) (v := 7) hldi (.inl rfl)).trans
      (congrArg goOn (setReg_nibble { m₁.fetched 0 1 0 with insOpExt := 7, pc := m₁.pc + 2 + 4 }
        .r1 7))
  have hpc : m.pc + 2 + 2 + 4 = m.pc + 2 + 6 := by rw [BitVec.add_assoc (m.pc + 2)]; rfl
  have hstr' : m.pc + 2 + 10 = m.pc + 2 + 6 + 4 := by rw [BitVec.add_assoc (m.pc + 2)]; rfl
  refine ⟨m₂, .tail (.single h₁) h₂, ?_, ?_, rfl, rfl, rfl⟩
  · change m.mem.bytes (m.pc + 2 + 2 + 4) 4 = _
    rw [hpc]
    exact hsys
  · change m.mem.bytes (m.pc + 2 + 10) 7 = _
    rw [hstr']
    exact hstr

/-! ## The system call -/

variable {ext : Externals n W}

theorem sys_allowed {w : W} {r : BitVec 32} {str : List (BitVec 8)} (hop : m.insOpImm = 2)
    (hallow : ext.getenv m.world "SIMPLE_MACHINE_ALLOW_EXEC" = some "1")
    (hsize : 0 ≤ (m.reg 1).toInt) (hstr : m.mem.bytes (m.reg 0) (m.reg 1).toNat = some str)
    (h : ext.system m.world str = some (w, r)) :
    sys ext m = some { m with world := w, reg := Function.update m.reg 0 r } := by
  unfold sys
  rw [hop, if_neg (by decide), if_neg (by decide), if_pos rfl, if_pos hallow,
    if_neg (not_lt_of_ge hsize), hstr]
  change (ext.system m.world str).bind _ = _
  rw [h]
  rfl

theorem sys_denied {str : List (BitVec 8)} (hop : m.insOpImm = 2)
    (hallow : ext.getenv m.world "SIMPLE_MACHINE_ALLOW_EXEC" ≠ some "1")
    (hstr : precision m.mem (m.reg 1) (m.reg 0) = some str) :
    sys ext m =
      some (m.printf "<<<WOULD EXECUTE %.*s>>>\n" [.int (m.reg 1), .str str]) := by
  unfold sys
  rw [hop, if_neg (by decide), if_neg (by decide), if_pos rfl, if_neg hallow, hstr]
  rfl

theorem cycle_halted {k : BitVec 8} (hb : m.mem.bytes m.pc 2 = some [0xf0, k]) :
    Switch.cycle ext m = some (m.fetched 0xf 0 k, false) :=
  (cycle_short (a := 0xf) (b := 0) hb (by decide)).trans rfl

theorem sys_halts {m' : Machine n W} (h : m.mem.bytes m.pc 4 = some [0xf1, 0x02, 0xf0, 0x00])
    (hsys : sys ext (m.fetched 0xf 1 2) = some m') (hmem : m'.mem = m.mem)
    (hpc : m'.pc = m.pc + 2) :
    ∃ m'', Switch.Compute ext m m'' ∧ m''.world = m'.world ∧ m''.out = m'.out := by
  obtain ⟨hcall, hhalt⟩ := Memory.bytes_append [0xf1, 0x02] [0xf0, 0x00] h
  have hhalt' : m'.mem.bytes m'.pc 2 = some [0xf0, 0x00] := by
    rw [hmem, hpc]
    exact hhalt
  have h₁ : Switch.cycle ext m = some (m', true) :=
    (Binary.cycle_sys (k := 2) hcall).trans (congrArg goOn hsys)
  exact ⟨_, .again h₁ (.last (cycle_halted hhalt')), rfl, rfl⟩

/-- **The code asks for a shell**, at any address. -/
theorem shellcode_runs (ext : Externals n W)
    (h : m.mem.bytes m.pc shellcode.length = some shellcode) :
    (∀ w r, ext.getenv m.world "SIMPLE_MACHINE_ALLOW_EXEC" = some "1" →
      ext.system m.world binSh = some (w, r) →
      ∃ m', Switch.Compute ext m m' ∧ m'.world = w ∧ m'.out = m.out) ∧
    (ext.getenv m.world "SIMPLE_MACHINE_ALLOW_EXEC" ≠ some "1" →
      ∃ m', Switch.Compute ext m m' ∧ m'.world = m.world ∧
        m'.out = m.out ++ [⟨"<<<WOULD EXECUTE %.*s>>>\n", [.int 7, .str binSh]⟩]) := by
  obtain ⟨m₁, hreach, hcode, hstr, hsize, hworld, hout⟩ := shellcode_cycles ext h
  refine ⟨fun w r hallow hsystem => ?_, fun hallow => ?_⟩
  · rw [← hworld] at hallow hsystem
    have hstr' : (m₁.fetched 0xf 1 2).mem.bytes ((m₁.fetched 0xf 1 2).reg 0)
        ((m₁.fetched 0xf 1 2).reg 1).toNat = some binSh := by
      change m₁.mem.bytes (m₁.reg 0) (m₁.reg 1).toNat = _
      rw [hsize]
      exact hstr
    have hpos : 0 ≤ ((m₁.fetched 0xf 1 2).reg 1).toInt := by
      change 0 ≤ (m₁.reg 1).toInt
      rw [hsize]
      decide
    obtain ⟨m', hstop, hw, ho⟩ := sys_halts hcode
      (sys_allowed (m := m₁.fetched 0xf 1 2) rfl hallow hpos hstr' hsystem) rfl rfl
    exact ⟨m', hstop.after hreach, hw, ho.trans hout⟩
  · rw [← hworld] at hallow
    have hprec : precision m₁.mem (m₁.reg 1) (m₁.reg 0) = some binSh := by
      unfold precision
      rw [hsize]
      exact string_of_bytes binSh hstr (by decide)
    obtain ⟨m', hstop, hw, ho⟩ := sys_halts hcode
      (sys_denied (m := m₁.fetched 0xf 1 2) rfl hallow hprec) rfl rfl
    refine ⟨m', hstop.after hreach, hw.trans hworld, ?_⟩
    rw [ho, ← hout, ← hsize]
    rfl

end IntroSystems.SM213
