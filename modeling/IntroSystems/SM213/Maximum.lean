import IntroSystems.Lib.Contest
import IntroSystems.SM213.Assembled

/-!
# The program for the maximum

`max.s`: one word after another is compared with the largest so far, by the sign of their
difference, which wraps around.

* `maximum`: the code, with the labels resolved.
* `Outlasts`: the largest so far stays. `outlasts_iff`: what the comparison finds.
* `PrefixesFit`: each word is less than `2 ^ 31` away from the largest one before it.
  **`largest_take_iff`**: then the largest word so far is always right, and only then.
* `Decided`: the differences with the largest word fit in a word, from some place on.
  **`largest_winner_iff`**: they decide.
* `turn_runs`, `turns_runs`, `maximum_runs`: the program, and what it leaves in `max`.
* **`maximum_of_prefixesFit`**: where that is the maximum, and where a turn goes wrong.
  **`maximum_iff`**: exactly when that is the maximum, also after wrong turns.
-/

set_option autoImplicit false

namespace IntroSystems.SM213.Maximum

open Contest Reg

/-! ## The code -/

/-- The globals. -/
def maxWord : ℕ := 0x2000 / 4
def iWord : ℕ := 0x2004 / 4
def aWord : ℕ := 0x2008 / 4

def loop : ℕ := 0x101a
def cont : ℕ := 0x102e
def done : ℕ := 0x1032

def maximum : Program where
  code :=
    [(0x1000,
      [.ldi 0 r0, .ldi 0xfffffff6 r1, .ldi (addr maxWord) r2, .ld 0 r2 r3, .ldi (addr aWord) r4]),
      (loop, [.mov r0 r5, .add r1 r5, .beq r5 done, .ldx r4 r0 r5, .mov r5 r7, .not r7, .inc r7,
        .add r3 r7, .bgt r7 cont, .mov r5 r3]),
      (cont, [.inc r0, .br loop]),
      (done, [.st r3 0 r2, .ldi (addr iWord) r1, .st r0 0 r1, .halt])]
  lo := 0x1000
  hi := 0x103e
  hi_le := by decide
  fits := by decide

/-! ## The comparison -/

/-- The largest so far stays `u` when `v` comes: `v` is less, by less than `2 ^ 31`, or it is more,
by more than `2 ^ 31`. -/
def Outlasts (u v : BitVec 32) : Prop :=
  v.toInt < u.toInt ∧ u.toInt - v.toInt < 2 ^ 31 ∨ 2 ^ 31 < v.toInt - u.toInt

instance (u v : BitVec 32) : Decidable (Outlasts u v) := by
  unfold Outlasts
  infer_instance

/-- **What the comparison finds.** -/
theorem outlasts_iff (u v : BitVec 32) : 0 < (u + -v).toInt ↔ Outlasts u v := by
  have hu := BitVec.le_toInt u
  have hu' := BitVec.toInt_lt (x := u)
  have hv := BitVec.le_toInt v
  have hv' := BitVec.toInt_lt (x := v)
  unfold Outlasts
  rw [← BitVec.sub_eq_add_neg, BitVec.toInt_sub, Int.bmod_def]
  omega

/-- Two words whose difference fits in a word. -/
def Fits (u v : BitVec 32) : Prop := -2 ^ 31 ≤ u.toInt - v.toInt ∧ u.toInt - v.toInt < 2 ^ 31

theorem outlasts_of_fits {u v : BitVec 32} (h : Fits u v) : Outlasts u v ↔ v.toInt < u.toInt := by
  obtain ⟨hlo, hhi⟩ := h
  unfold Outlasts
  omega

/-! ## What becomes of the largest word -/

/-- `w` is the largest of `ws`. -/
def Largest (w : BitVec 32) (ws : List (BitVec 32)) : Prop :=
  w ∈ ws ∧ ∀ v ∈ ws, v.toInt ≤ w.toInt

/-- Every word fits with the largest one of `u` and the words before it. -/
def PrefixesFit (u : BitVec 32) (ws : List (BitVec 32)) : Prop :=
  ∀ before v after, ws = before ++ v :: after → ∀ w, Largest w (u :: before) → Fits w v

/-- The comparisons of the largest word with the one that stays until then, and with all that come
after it, are right. -/
def Decided (u : BitVec 32) (ws : List (BitVec 32)) : Prop :=
  ∃ w, Largest w (u :: ws) ∧ (w = u ∧ (∀ v ∈ ws, Fits w v) ∨
    ∃ before after s, ws = before ++ w :: after ∧ Succession Outlasts u before s ∧ Fits s w ∧
      ∀ v ∈ after, Fits w v)

section Largest

variable {u w : BitVec 32} {ws : List (BitVec 32)}

theorem fits_of_outlasts (h : Outlasts u w) (hle : w.toInt ≤ u.toInt) : Fits u w := by
  unfold Outlasts at h
  unfold Fits
  omega

theorem fits_of_not_outlasts (h : ¬Outlasts u w) (hle : u.toInt ≤ w.toInt) : Fits u w := by
  unfold Outlasts at h
  unfold Fits
  omega

theorem Largest.unique {w' : BitVec 32} (h : Largest w ws) (h' : Largest w' ws) : w = w' :=
  BitVec.eq_of_toInt_eq (le_antisymm (h'.2 w h.1) (h.2 w' h'.1))

theorem largest_singleton (u : BitVec 32) : Largest u [u] :=
  ⟨List.mem_singleton_self u, fun v hv => le_of_eq (by rw [List.mem_singleton.mp hv])⟩

theorem Largest.concat {v : BitVec 32} (h : Largest w ws) (hfit : Fits w v) :
    Largest (if Outlasts w v then w else v) (ws ++ [v]) := by
  obtain ⟨hmem, hle⟩ := h
  have hout := outlasts_of_fits hfit
  unfold Largest
  simp only [List.mem_append, List.mem_singleton]
  split_ifs with hif
  · refine ⟨.inl hmem, ?_⟩
    rintro x (hx | rfl)
    · exact hle x hx
    · exact le_of_lt (hout.mp hif)
  · refine ⟨.inr rfl, ?_⟩
    rintro x (hx | rfl)
    · exact le_trans (hle x hx) (not_lt.mp (mt hout.mpr hif))
    · exact le_refl _

theorem fits_of_le {v : BitVec 32} (hu : u.toInt ≤ (if Outlasts u v then u else v).toInt)
    (hv : v.toInt ≤ (if Outlasts u v then u else v).toInt) : Fits u v := by
  split_ifs at hu hv with h
  · exact fits_of_outlasts h hv
  · exact fits_of_not_outlasts h hu

theorem winner_concat (u : BitVec 32) (ws : List (BitVec 32)) (v : BitVec 32) :
    winner Outlasts u (ws ++ [v]) =
      if Outlasts (winner Outlasts u ws) v then winner Outlasts u ws else v := by
  rw [winner_append]
  rfl

theorem PrefixesFit.of_append {vs : List (BitVec 32)} (h : PrefixesFit u (ws ++ vs)) :
    PrefixesFit u ws := by
  rintro before v after rfl w hw
  exact h before v (after ++ vs) (by rw [List.append_assoc, List.cons_append]) w hw

/-- **The largest word is left over** if each word fits with the largest one before it. -/
theorem largest_winner_of_prefixesFit (h : PrefixesFit u ws) :
    Largest (winner Outlasts u ws) (u :: ws) := by
  induction ws using List.reverseRecOn with
  | nil => exact largest_singleton u
  | append_singleton ws v ih =>
    have hlargest := ih h.of_append
    rw [winner_concat, ← List.cons_append]
    exact hlargest.concat (h ws v [] rfl _ hlargest)

theorem prefixesFit_of_fits (h : ∀ w ∈ u :: ws, ∀ v ∈ ws, Fits w v) : PrefixesFit u ws := by
  rintro before v after rfl w ⟨hw, -⟩
  refine h w ?_ v (by simp)
  rw [← List.cons_append]
  exact List.mem_append_left _ hw

/-- **It is left over in every turn** only then. -/
theorem largest_take_iff : (∀ k ≤ ws.length,
    Largest (winner Outlasts u (ws.take k)) (u :: ws.take k)) ↔ PrefixesFit u ws := by
  constructor
  · rintro h before v after rfl w hw
    have hbefore := h before.length (by simp)
    have hnext := (h (before.length + 1) (by simp)).2
    rw [List.take_left] at hbefore
    rw [List.take_length_add_append, List.take_succ_cons, List.take_zero, winner_concat,
      ← List.cons_append] at hnext
    obtain rfl := hw.unique hbefore
    exact fits_of_le (hnext _ (List.mem_append_left _ hbefore.1)) (hnext v (by simp))
  · intro h k _
    rw [← List.take_append_drop k ws] at h
    exact largest_winner_of_prefixesFit h.of_append

theorem winner_of_fits (hle : ∀ v ∈ ws, v.toInt ≤ w.toInt) (hfits : ∀ v ∈ ws, Fits w v) :
    winner Outlasts w ws = w := by
  refine winner_eq_self fun v hv => ?_
  rcases lt_or_eq_of_le (hle v hv) with hlt | heq
  · exact .inl ((outlasts_of_fits (hfits v hv)).mpr hlt)
  · exact .inr (BitVec.eq_of_toInt_eq heq)

/-- **The largest word is left over** exactly if its comparisons are right. -/
theorem largest_winner_iff : Largest (winner Outlasts u ws) (u :: ws) ↔ Decided u ws := by
  constructor
  · intro h
    refine ⟨_, h, ?_⟩
    obtain ⟨-, hle⟩ := h
    have hsucc : Succession Outlasts u ws (winner Outlasts u ws) := succession_winner u ws
    rcases hsucc.last_holder with ⟨heq, hall⟩ | ⟨before, after, s, hsplit, hs, hyields, hall⟩
    · exact .inl ⟨heq, fun v hv => fits_of_outlasts (hall v hv) (hle v (List.mem_cons_of_mem u hv))⟩
    · have hmem : s ∈ u :: ws := by
        rw [hsplit, ← winner_eq_iff.mpr hs, ← List.cons_append]
        exact List.mem_append_left _ (winner_mem u before)
      refine .inr ⟨before, after, s, hsplit, hs, fits_of_not_outlasts hyields (hle s hmem),
        fun v hv => fits_of_outlasts (hall v hv) (hle v ?_)⟩
      rw [hsplit]
      exact List.mem_cons_of_mem u (List.mem_append_right _ (List.mem_cons_of_mem _ hv))
  · rintro ⟨w, hw, ⟨rfl, hfits⟩ | ⟨before, after, s, rfl, hs, hsw, hfits⟩⟩
    · rwa [winner_of_fits (fun v hv => hw.2 v (List.mem_cons_of_mem w hv)) hfits]
    · have hsmem : s ∈ u :: before := winner_eq_iff.mpr hs ▸ winner_mem u before
      have hle : s.toInt ≤ w.toInt := by
        refine hw.2 s ?_
        rw [← List.cons_append]
        exact List.mem_append_left _ hsmem
      have hyields : ¬Outlasts s w := fun h => by
        have := (outlasts_of_fits hsw).mp h
        omega
      have hstays : winner Outlasts w after = w := winner_of_fits (fun v hv => hw.2 v
        (List.mem_cons_of_mem u (List.mem_append_right _ (List.mem_cons_of_mem w hv)))) hfits
      rwa [winner_append, winner_eq_iff.mpr hs, winner, if_neg hyields, hstays]

end Largest

/-! ## The loop -/

variable (mem : ℕ → BitVec 32) {x : Registers} {u : BitVec 32} {i : ℕ}

/-- The ten words of `a`. -/
def numbers : List (BitVec 32) := (List.range 10).map fun k => mem (aWord + k)

theorem take_numbers {k : ℕ} (hk : k < 10) :
    (numbers mem).take (k + 1) = (numbers mem).take k ++ [mem (aWord + k)] := by
  have hlt : k < (numbers mem).length := by
    unfold numbers
    rwa [List.length_map, List.length_range]
  rw [List.take_succ_eq_append_getElem hlt]
  simp [numbers]

/-- What the loop keeps in registers. -/
structure Index (i : ℕ) (u : BitVec 32) (x : Registers) : Prop where
  r0 : x.r0 = BitVec.ofNat 32 i
  r1 : x.r1 = -BitVec.ofNat 32 10
  r2 : x.r2 = addr maxWord
  r3 : x.r3 = u
  r4 : x.r4 = addr aWord

theorem start_runs (x : Registers) :
    ∃ x', Index 0 (mem maxWord) x' ∧ maximum.Runs ⟨0x1000, x, mem⟩ ⟨loop, x', mem⟩ := by
  obtain ⟨r0, r1, r2, r3, r4, r5, r6, r7⟩ := x
  refine ⟨⟨0, 0xfffffff6, addr maxWord, mem maxWord, addr aWord, r5, r6, r7⟩,
    ⟨rfl, rfl, rfl, rfl, rfl⟩, ?_⟩
  refine .steps 3 ⟨_, ⟨0, 0xfffffff6, addr maxWord, r3, r4, r5, r6, r7⟩, mem⟩ rfl ?_
  refine .ld _ rfl rfl (by decide) rfl rfl ?_
  exact .steps 1 _ rfl (.refl _)

theorem turn_runs (hi : i < 10) (hx : Index i u x) :
    ∃ x', Index (i + 1) (if Outlasts u (mem (aWord + i)) then u else mem (aWord + i)) x' ∧
      maximum.Runs ⟨loop, x, mem⟩ ⟨loop, x', mem⟩ := by
  obtain ⟨r0, r1, r2, r3, r4, r5, r6, r7⟩ := x
  obtain ⟨rfl, rfl, rfl, rfl, rfl⟩ := hx
  have hmore : -BitVec.ofNat 32 10 + BitVec.ofNat 32 i ≠ 0 := fun h =>
    absurd ((neg_add_eq_zero (le_of_lt hi) (by decide)).mp h) (ne_of_lt hi)
  have hk : aWord + i < memSize / 4 := by
    unfold aWord memSize
    omega
  -- what changes from one instruction to the next
  let state (pc : ℕ) (r3 r5 r7 : BitVec 32) : Core :=
    ⟨pc, ⟨BitVec.ofNat 32 i, -BitVec.ofNat 32 10, addr maxWord, r3, addr aWord, r5, r6, r7⟩, mem⟩
  let a := mem (aWord + i)
  refine ⟨⟨BitVec.ofNat 32 i + 1, -BitVec.ofNat 32 10, addr maxWord,
    if Outlasts r3 a then r3 else a, addr aWord, a, r6, r3 + -a⟩,
    ⟨ofNat_inc i, rfl, rfl, rfl, rfl⟩, ?_⟩
  refine .steps 2 (state 0x101e r3 (-BitVec.ofNat 32 10 + BitVec.ofNat 32 i) r7) rfl ?_
  refine .beq_next rfl hmore ?_
  refine .ldx (state 0x1022 r3 a r7) rfl rfl rfl hk rfl rfl ?_
  refine .steps 4 (state 0x102a r3 a (r3 + (~~~a + 1))) rfl ?_
  rw [not_inc]
  by_cases h : Outlasts r3 a
  · rw [if_pos h]
    refine .bgt_taken rfl ((outlasts_iff r3 a).mpr h) ?_
    exact .steps 2 _ rfl (.refl _)
  · rw [if_neg h]
    refine .bgt_next rfl (mt (outlasts_iff r3 a).mp h) ?_
    exact .steps 3 _ rfl (.refl _)

/-- **The first turns of the loop.** -/
theorem turns_runs (x : Registers) {k : ℕ} (hk : k ≤ 10) :
    ∃ x', Index k (winner Outlasts (mem maxWord) ((numbers mem).take k)) x' ∧
      maximum.Runs ⟨0x1000, x, mem⟩ ⟨loop, x', mem⟩ := by
  induction k with
  | zero => exact start_runs mem x
  | succ k ih =>
    obtain ⟨x₁, hx₁, h₁⟩ := ih (by omega)
    obtain ⟨x₂, hx₂, h₂⟩ := turn_runs mem hk hx₁
    rw [take_numbers mem hk, winner_concat]
    exact ⟨x₂, hx₂, h₁.trans h₂⟩

theorem exit_runs (hx : Index 10 u x) :
    ∃ x', Index 10 u x' ∧ maximum.Runs ⟨loop, x, mem⟩ ⟨done, x', mem⟩ := by
  obtain ⟨r0, r1, r2, r3, r4, r5, r6, r7⟩ := x
  obtain ⟨rfl, rfl, rfl, rfl, rfl⟩ := hx
  refine ⟨⟨BitVec.ofNat 32 10, -BitVec.ofNat 32 10, addr maxWord, r3, addr aWord,
    -BitVec.ofNat 32 10 + BitVec.ofNat 32 10, r6, r7⟩, ⟨rfl, rfl, rfl, rfl, rfl⟩, ?_⟩
  refine .steps 2 ⟨0x101e, _, _⟩ rfl ?_
  exact .beq_taken rfl ((neg_add_eq_zero (le_refl 10) (by decide)).mpr rfl) (.refl _)

theorem done_runs (hx : Index 10 u x) :
    ∃ x', maximum.Runs ⟨done, x, mem⟩
      ⟨0x103c, x', Function.update (Function.update mem maxWord u) iWord 10⟩ := by
  obtain ⟨r0, r1, r2, r3, r4, r5, r6, r7⟩ := x
  obtain ⟨rfl, rfl, rfl, rfl, rfl⟩ := hx
  refine ⟨⟨BitVec.ofNat 32 10, addr iWord, addr maxWord, r3, addr aWord, r5, r6, r7⟩, ?_⟩
  refine .st _ rfl rfl (by decide) (by decide) rfl ?_
  refine .steps 1 ⟨0x103a, _, _⟩ rfl ?_
  exact .st _ rfl rfl (by decide) (by decide) rfl (.refl _)

/-- **The whole program.** -/
theorem maximum_runs (x : Registers) :
    ∃ x', maximum.Runs ⟨0x1000, x, mem⟩ ⟨0x103c, x',
      Function.update (Function.update mem maxWord
        (winner Outlasts (mem maxWord) (numbers mem))) iWord 10⟩ := by
  obtain ⟨x₁, hx₁, h₁⟩ := turns_runs mem x (le_refl 10)
  obtain ⟨x₂, hx₂, h₂⟩ := exit_runs mem hx₁
  obtain ⟨x₃, h₃⟩ := done_runs mem hx₂
  exact ⟨x₃, h₁.trans (h₂.trans h₃)⟩

/-! ## The program in the simulator -/

variable {W : Type}

/-- The initial `max` and the words of `a`. -/
def inputs : List (BitVec 32) := mem maxWord :: numbers mem

/-- What the program is for. -/
structure Maximal (mem mem' : Memory memSize) : Prop where
  largest : Largest (word mem' maxWord) (inputs (word mem))
  count : word mem' iWord = 10
  unchanged : ∀ k < 10, word mem' (aWord + k) = word mem (aWord + k)

theorem maximum_computes (ext : Externals memSize W) {m : Machine memSize W} (hpc : m.pc = 0x1000)
    (hcode : Loaded maximum m.mem) :
    ∃ m', Switch.Compute ext m m' ∧ word m'.mem = Function.update (Function.update (word m.mem)
      maxWord (winner Outlasts (word m.mem maxWord) (numbers (word m.mem)))) iWord 10 := by
  obtain ⟨x', hruns⟩ := maximum_runs (word m.mem) (Registers.ofRegs m.reg)
  have hcore : m.core = ⟨0x1000, .ofRegs m.reg, word m.mem⟩ := by
    unfold Machine.core
    rw [hpc]
    rfl
  rw [← hcore] at hruns
  obtain ⟨m', hcompute, hm'⟩ := hruns.compute ext hcode rfl
  exact ⟨m', hcompute, congrArg Core.mem hm'⟩

theorem maximal_iff {mem mem' : Memory memSize} {w : BitVec 32}
    (h : word mem' = Function.update (Function.update (word mem) maxWord w) iWord 10) :
    Maximal mem mem' ↔ Largest w (inputs (word mem)) := by
  have hmax : word mem' maxWord = w := by
    rw [h, Function.update_of_ne (by decide), Function.update_self]
  constructor
  · intro hm
    rw [← hmax]
    exact hm.largest
  · intro hw
    refine ⟨hmax.symm ▸ hw, ?_, fun k _ => ?_⟩
    · rw [h, Function.update_self]
    · rw [h, Function.update_of_ne (by unfold aWord iWord; omega),
        Function.update_of_ne (by unfold aWord maxWord; omega)]

theorem computes_maximal_iff (ext : Externals memSize W) {m : Machine memSize W}
    (hpc : m.pc = 0x1000) (hcode : Loaded maximum m.mem) :
    (∃ m', Switch.Compute ext m m' ∧ Maximal m.mem m'.mem) ↔
      Largest (winner Outlasts (word m.mem maxWord) (numbers (word m.mem)))
        (inputs (word m.mem)) := by
  obtain ⟨m', hcompute, hword⟩ := maximum_computes ext hpc hcode
  rw [← maximal_iff hword]
  constructor
  · rintro ⟨m'', hcompute', hmax⟩
    rw [hcompute.unique hcompute']
    exact hmax
  · exact fun hmax => ⟨m', hcompute, hmax⟩

theorem reaches_loop (ext : Externals memSize W) {m : Machine memSize W} (hpc : m.pc = 0x1000)
    (hcode : Loaded maximum m.mem) {k : ℕ} (hk : k ≤ 10) :
    ∃ m', Reaches ext m m' ∧ m'.core.pc = loop ∧ m'.core.reg.r0 = BitVec.ofNat 32 k ∧
      m'.core.reg.r3 =
        winner Outlasts (word m.mem maxWord) ((numbers (word m.mem)).take k) := by
  obtain ⟨x', hx, hruns⟩ := turns_runs (word m.mem) (Registers.ofRegs m.reg) hk
  have hcore : m.core = ⟨0x1000, .ofRegs m.reg, word m.mem⟩ := by
    unfold Machine.core
    rw [hpc]
    rfl
  rw [← hcore] at hruns
  obtain ⟨m', hcycles, hm', -⟩ := hruns.sim ext hcode
  refine ⟨m', hcycles.reaches, by rw [hm'], ?_, ?_⟩
  · rw [hm']
    exact hx.r0
  · rw [hm']
    exact hx.r3

/-- **Where the program computes the maximum.** It does if each word of `a` is less than `2 ^ 31` away
from the largest one of `max` and of the words before it. If not, then there is a turn after which the
loop does not have the largest word so far. -/
theorem maximum_of_prefixesFit (ext : Externals memSize W) {m : Machine memSize W}
    (hpc : m.pc = 0x1000) (hcode : Loaded maximum m.mem) :
    (PrefixesFit (word m.mem maxWord) (numbers (word m.mem)) →
      ∃ m', Switch.Compute ext m m' ∧ Maximal m.mem m'.mem) ∧
    (¬PrefixesFit (word m.mem maxWord) (numbers (word m.mem)) →
      ∃ k ≤ 10, ∃ m', Reaches ext m m' ∧ m'.core.pc = loop ∧
        m'.core.reg.r0 = BitVec.ofNat 32 k ∧
        ¬Largest m'.core.reg.r3 ((inputs (word m.mem)).take (k + 1))) := by
  refine ⟨fun h => ?_, fun h => ?_⟩
  · rw [computes_maximal_iff ext hpc hcode]
    exact largest_winner_of_prefixesFit h
  · rw [← largest_take_iff] at h
    push Not at h
    obtain ⟨k, hk, hwrong⟩ := h
    have hk' : k ≤ 10 := by simpa [numbers] using hk
    obtain ⟨m', hreaches, hloop, h0, h3⟩ := reaches_loop ext hpc hcode hk'
    refine ⟨k, hk', m', hreaches, hloop, h0, ?_⟩
    rw [h3]
    exact hwrong

/-- **When the program computes the maximum**: wrong turns may be made up for by a later word. -/
theorem maximum_iff (ext : Externals memSize W) {m : Machine memSize W} (hpc : m.pc = 0x1000)
    (hcode : Loaded maximum m.mem) :
    (∃ m', Switch.Compute ext m m' ∧ Maximal m.mem m'.mem) ↔
      Decided (word m.mem maxWord) (numbers (word m.mem)) :=
  (computes_maximal_iff ext hpc hcode).trans largest_winner_iff

/-- The machine with the program, `max`, and the numbers of a list. -/
def machineWith (top : BitVec 32) (ws : List (BitVec 32)) : Machine memSize Unit :=
  { Machine.initial () with
    pc := 0x1000
    mem := maximum.image fun k =>
      if k = maxWord then top
      else if k < aWord then 0
      else ws.getD (k - aWord) 0 }

theorem max_machineWith (top : BitVec 32) (ws : List (BitVec 32)) :
    word (machineWith top ws).mem maxWord = top := by
  refine (maximum.word_image _ (by decide) (by decide)).trans ?_
  rw [if_pos rfl]

theorem numbers_machineWith (top : BitVec 32) {ws : List (BitVec 32)} (hws : ws.length = 10) :
    numbers (word (machineWith top ws).mem) = ws := by
  have hword : ∀ k < 10, word (machineWith top ws).mem (aWord + k) = ws.getD k 0 := fun k hk => by
    refine (maximum.word_image _ (by unfold aWord memSize; omega) (.inr ?_)).trans ?_
    · change 0x103e ≤ 4 * (aWord + k)
      unfold aWord
      omega
    · rw [if_neg (by unfold aWord maxWord; omega), if_neg (by omega), Nat.add_sub_cancel_left]
  unfold numbers
  apply List.ext_getElem
  · rw [List.length_map, List.length_range, hws]
  intro k _ hk'
  have hlt : k < 10 := hws ▸ hk'
  rw [List.getElem_map, List.getElem_range, hword k hlt, List.getD_eq_getElem ws 0 hk']

/-- The numbers of the file. -/
def fileNumbers : List (BitVec 32) := [2, 40, 6, 80, 10, 120, 14, 16, 18, 20]

theorem maximum_of_prefixesFit_file :
    (∃ m', Switch.Compute noCalls (machineWith (-1) fileNumbers) m' ∧
      Maximal (machineWith (-1) fileNumbers).mem m'.mem) ∧
    ∃ k ≤ 10, ∃ m', Reaches noCalls (machineWith 0x7fffffff (List.replicate 10 (-1))) m' ∧
      m'.core.pc = loop ∧ m'.core.reg.r0 = BitVec.ofNat 32 k ∧ ¬Largest m'.core.reg.r3
        ((inputs (word (machineWith 0x7fffffff (List.replicate 10 (-1))).mem)).take (k + 1)) := by
  refine ⟨(maximum_of_prefixesFit (m := machineWith (-1) fileNumbers) noCalls rfl
      (by decide +kernel)).1 ?_,
    (maximum_of_prefixesFit (m := machineWith 0x7fffffff (List.replicate 10 (-1))) noCalls rfl
      (by decide +kernel)).2 ?_⟩
  · rw [max_machineWith, numbers_machineWith _ rfl]
    have hsmall : ∀ v ∈ (-1) :: fileNumbers, -1 ≤ v.toInt ∧ v.toInt ≤ 120 := by
      simp [fileNumbers]
    refine prefixesFit_of_fits fun w hw v hv => ?_
    have hw := hsmall w hw
    have hv := hsmall v (List.mem_cons_of_mem _ hv)
    unfold Fits
    omega
  · rw [max_machineWith, numbers_machineWith _ rfl]
    intro h
    have hfits : Fits 0x7fffffff (-1) :=
      h [] (-1) (List.replicate 9 (-1)) rfl 0x7fffffff (largest_singleton _)
    exact absurd hfits.2 (by decide)

/-- The first of these words is taken for larger than `5`. -/
def repairedNumbers : List (BitVec 32) := 0x80000000 :: -1 :: List.replicate 8 7

theorem maximum_iff_repaired :
    ¬PrefixesFit 5 repairedNumbers ∧ ∃ m', Switch.Compute noCalls (machineWith 5 repairedNumbers) m' ∧
      Maximal (machineWith 5 repairedNumbers).mem m'.mem := by
  constructor
  · intro h
    have hfits : Fits 5 0x80000000 :=
      h [] 0x80000000 (-1 :: List.replicate 8 7) rfl 5 (largest_singleton 5)
    exact absurd hfits.2 (by decide)
  · refine (maximum_iff (m := machineWith 5 repairedNumbers) noCalls rfl (by decide +kernel)).mpr ?_
    rw [max_machineWith, numbers_machineWith _ rfl]
    have hsucc : Succession Outlasts 5 ([] ++ 0x80000000 :: ([] ++ -1 :: [])) (-1) :=
      .next (List.forall_mem_nil _) (by decide)
        (.next (List.forall_mem_nil _) (by decide) (.last (List.forall_mem_nil _)))
    refine ⟨7, ⟨by simp [repairedNumbers], by simp [repairedNumbers]⟩, .inr
      ⟨[0x80000000, -1], List.replicate 7 7, -1, rfl, hsucc, by unfold Fits; decide, ?_⟩⟩
    intro v hv
    rw [List.eq_of_mem_replicate hv]
    unfold Fits
    decide

/-- `0x7fffffff` gives way to `-1`. -/
theorem maximum_far : Loaded maximum (machineWith 0x7fffffff (List.replicate 10 (-1))).mem ∧
    ¬∃ m', Switch.Compute noCalls (machineWith 0x7fffffff (List.replicate 10 (-1))) m' ∧
      Maximal (machineWith 0x7fffffff (List.replicate 10 (-1))).mem m'.mem := by
  have hcode : Loaded maximum (machineWith 0x7fffffff (List.replicate 10 (-1))).mem := by
    decide +kernel
  refine ⟨hcode, ?_⟩
  rw [computes_maximal_iff noCalls rfl hcode, inputs, max_machineWith, numbers_machineWith _ rfl]
  exact fun h => absurd (h.2 0x7fffffff List.mem_cons_self) (by decide +kernel)

end IntroSystems.SM213.Maximum
