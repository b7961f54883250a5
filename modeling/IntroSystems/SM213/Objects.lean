import IntroSystems.Lib.Transition
import IntroSystems.SM213.Assembled

/-!
# Objects of a hand-compiled program

The constructors and `malloc` of `SA-dynamic-call.s`. A constructor asks for the size of its
arguments, and stores the address of its class table in front of them.

* `objects`: the code, with the labels resolved.
* `Class`: what the constructors differ in. **`construct_runs`**: what they do.
* `Step`, `sys`: a program calls constructors, and leaves what they have written alone.
* `Stacked`, `Inv`: the objects are one behind another, with one word in common.
* **`objects_intact_iff`**: no two objects are apart; which of them keep their fields.
-/

set_option autoImplicit false

namespace IntroSystems.SM213.Objects

open Reg

/-! ## The code -/

/-- The word that holds the heap free pointer. -/
def heapFr : ℕ := 0x3000 / 4

/-- The first word of the heap. -/
def heap : ℕ := 0x4000 / 4

def mallocPc : ℕ := 0x700

/-- Which of the constructors. -/
inductive Class
  | A | B | C
  deriving DecidableEq

namespace Class

/-- The labels `new_A`, `new_B` and `new_C`. -/
def entry : Class → ℕ
  | A => 0x400
  | B => 0x500
  | C => 0x600

/-- The labels `A_class`, `B_class` and `C_class`. -/
def table : Class → BitVec 32
  | A => 0x2200
  | B => 0x220c
  | C => 0x221c

/-- What the constructor takes for the size of an object. -/
def size : Class → BitVec 32
  | A => 0x4
  | B => 0x4
  | C => 0x8

/-- The number of arguments. -/
def arity : Class → ℕ
  | A => 1
  | B => 1
  | C => 2

/-- A constructor, given how it stores its arguments. -/
def code (K : Class) (copy : List Ins) : List Ins :=
  [.deca r5, .st r6 0 r5, .ldi K.size r0, .gpc 3 r6, .j mallocPc, .ldi K.table r1, .st r1 0 r0] ++
    copy ++ [.ld 0 r5 r6, .inca r5, .jr r6]

end Class

def newA : List Ins := Class.code .A [.ld 1 r5 r7, .st r7 1 r0]

def newB : List Ins := Class.code .B [.ld 1 r5 r7, .st r7 1 r0]

def newC : List Ins := Class.code .C [.ld 1 r5 r7, .st r7 1 r0, .ld 2 r5 r7, .st r7 2 r0]

def malloc : List Ins :=
  [.mov r0 r2, .ldi (addr heapFr) r1, .ld 0 r1 r0, .add r0 r2, .st r2 0 r1, .jr r6]

/-- The constructors and `malloc`. -/
def objects : Program where
  code := [(0x400, newA), (0x500, newB), (0x600, newC), (mallocPc, malloc)]
  lo := 0x400
  hi := 0x710
  hi_le := by decide
  fits := by decide

/-! ## What it does -/

variable {c : Core} {a p : ℕ} {K : Class}

theorem addr_sub (p : ℕ) : addr (p + 1) - 4 = addr p := by
  rw [← addr_add]
  exact BitVec.add_sub_cancel _ _

theorem addr_succ (p : ℕ) : addr p + 4 = addr (p + 1) := addr_add p 1

/-- `malloc` gives the heap free pointer, and moves it up. -/
theorem malloc_runs (hpc : c.pc = mallocPc) (ha : c.mem heapFr = addr a) :
    objects.Runs c
      { pc := c.reg.r6.toNat
        reg := { c.reg with r0 := addr a, r1 := addr heapFr, r2 := addr a + c.reg.r0 }
        mem := Function.update c.mem heapFr (addr a + c.reg.r0) } := by
  obtain ⟨pc, ⟨r0, r1, r2, r3, r4, r5, r6, r7⟩, mem⟩ := c
  cases hpc
  refine .steps 2 ⟨0x708, ⟨r0, addr heapFr, r0, r3, r4, r5, r6, r7⟩, mem⟩ rfl ?_
  refine .ld ⟨0x70a, ⟨addr a, addr heapFr, r0, r3, r4, r5, r6, r7⟩, mem⟩ rfl rfl (by decide) ha
    rfl ?_
  refine .steps 1 ⟨0x70c, ⟨addr a, addr heapFr, addr a + r0, r3, r4, r5, r6, r7⟩, mem⟩ rfl ?_
  refine .st ⟨0x70e, ⟨addr a, addr heapFr, addr a + r0, r3, r4, r5, r6, r7⟩,
    Function.update mem heapFr (addr a + r0)⟩ rfl rfl (by decide) (by decide) rfl ?_
  exact .steps 1 _ rfl (.refl _)

/-- There is memory for an object at the word `a`, apart from the frame and the arguments at `p`. -/
structure Room (K : Class) (a p : ℕ) : Prop where
  heap : heap ≤ a
  object : a + K.arity < memSize / 4
  frame : p + K.arity < memSize / 4
  code : objects.Writable p
  heapFr : heapFr < p ∨ p + K.arity < heapFr
  apart : p + K.arity < Objects.heap ∨ a + K.arity < p

/-- What a constructor leaves. -/
structure Constructed (K : Class) (a p : ℕ) (c c' : Core) : Prop where
  pc : c'.pc = c.reg.r6.toNat
  r0 : c'.reg.r0 = addr a
  r5 : c'.reg.r5 = addr (p + 1)
  r6 : c'.reg.r6 = c.reg.r6
  table : c'.mem a = K.table
  args : ∀ j < K.arity, c'.mem (a + 1 + j) = c.mem (p + 1 + j)
  heapFr : c'.mem Objects.heapFr = addr (a + K.arity)
  others : ∀ k, k ≠ p → k ≠ Objects.heapFr → ¬(a ≤ k ∧ k ≤ a + K.arity) → c'.mem k = c.mem k

theorem size_eq (K : Class) : K.size = addr K.arity := by
  cases K <;> rfl

theorem writable_of_heap (h : heap ≤ a) : objects.Writable a := by
  unfold heap at h
  exact .inr (show 0x710 ≤ 4 * a by omega)

/-- What memory is when a constructor has stored the class table. -/
def entered (K : Class) (a p : ℕ) (ra : BitVec 32) (mem : ℕ → BitVec 32) : ℕ → BitVec 32 :=
  Function.update (Function.update (Function.update mem p ra) heapFr (addr (a + K.arity))) a K.table

/-- A constructor up to the store of the class table. -/
theorem enter_runs (x : Registers) {mem : ℕ → BitVec 32} (h5 : x.r5 = addr (p + 1))
    (hr : Room K a p) (ha : mem heapFr = addr a) :
    ∃ ra, objects.Runs ⟨K.entry, x, mem⟩
      { pc := K.entry + 0x1a
        reg := { x with
          r0 := addr a, r1 := K.table, r2 := addr (a + K.arity), r5 := addr p, r6 := ra }
        mem := entered K a p x.r6 mem } := by
  obtain ⟨r0, r1, r2, r3, r4, r5, r6, r7⟩ := x
  cases h5
  have hp : p < memSize / 4 := lt_of_le_of_lt (Nat.le_add_right _ _) hr.frame
  have halloc : Function.update mem p r6 heapFr = addr a := by
    rw [Function.update_of_ne (by have := hr.heapFr; omega), ha]
  have hsize : addr a + K.size = addr (a + K.arity) := by rw [size_eq, addr_add]
  have hobj : a < memSize / 4 := lt_of_le_of_lt (Nat.le_add_right _ _) hr.object
  have hw := writable_of_heap hr.heap
  refine ⟨BitVec.ofNat 32 (K.entry + 0x12), ?_⟩
  unfold entered
  rw [← hsize]
  cases K
  all_goals
    refine .steps 1 ⟨_, ⟨r0, r1, r2, r3, r4, addr (p + 1) - 4, r6, r7⟩, mem⟩ rfl ?_
    rw [addr_sub]
    refine .st ⟨_, ⟨r0, r1, r2, r3, r4, addr p, r6, r7⟩, Function.update mem p r6⟩ rfl rfl hp
      hr.code rfl ?_
    refine .steps 3 _ rfl ?_
    refine .trans (malloc_runs rfl halloc) ?_
    refine .steps 1 _ rfl ?_
    exact .st _ rfl rfl hobj hw rfl (.refl _)

/-- Memory with the first `n` arguments in the object. -/
def copied (mem : ℕ → BitVec 32) (a p : ℕ) : ℕ → ℕ → BitVec 32
  | 0 => mem
  | n + 1 => Function.update (copied mem a p n) (a + 1 + n) (copied mem a p n (p + 1 + n))

section Copied

variable {mem : ℕ → BitVec 32} {n k : ℕ}

theorem copied_of_not (h : ¬(a < k ∧ k ≤ a + n)) : copied mem a p n k = mem k := by
  induction n with
  | zero => rfl
  | succ n ih =>
    unfold copied
    rw [Function.update_of_ne (by omega), ih (by omega)]

theorem copied_arg (hap : p + n < a ∨ a + n < p) {j : ℕ} (hj : j < n) :
    copied mem a p n (a + 1 + j) = mem (p + 1 + j) := by
  induction n with
  | zero => exact absurd hj (Nat.not_lt_zero j)
  | succ n ih =>
    unfold copied
    rcases Nat.lt_succ_iff_lt_or_eq.mp hj with hlt | rfl
    · rw [Function.update_of_ne (by omega), ih (by omega) hlt]
    · rw [Function.update_self, copied_of_not (by omega)]

end Copied

theorem leave_runs (x : Registers) {ra : BitVec 32} {mem : ℕ → BitVec 32} (h0 : x.r0 = addr a)
    (h5 : x.r5 = addr p) (hr : Room K a p) (hra : mem p = ra) :
    ∃ v, objects.Runs ⟨K.entry + 0x1a, x, mem⟩
      { pc := ra.toNat
        reg := { x with r5 := addr (p + 1), r6 := ra, r7 := v }
        mem := copied mem a p K.arity } := by
  obtain ⟨r0, r1, r2, r3, r4, r5, r6, r7⟩ := x
  cases h0
  cases h5
  have hframe := hr.frame
  have hobj := hr.object
  have hp : p < memSize / 4 := by omega
  have hw : ∀ j, objects.Writable (a + j) := fun j =>
    writable_of_heap (le_trans hr.heap (Nat.le_add_right a j))
  have hback : copied mem a p K.arity p = ra := by
    rw [copied_of_not (by have := hr.apart; have := hr.heap; omega), hra]
  refine ⟨copied mem a p (K.arity - 1) (p + K.arity), ?_⟩
  rw [← addr_succ]
  cases K
  case C =>
    refine .ld _ rfl rfl (by change p + 1 < _; have : p + 2 < _ := hframe; omega) rfl rfl ?_
    refine .st _ rfl rfl (by change a + 1 < _; have : a + 2 < _ := hobj; omega) (hw 1) rfl ?_
    refine .ld _ rfl rfl hframe rfl rfl ?_
    refine .st _ rfl rfl hobj (hw 2) rfl ?_
    refine .ld _ rfl rfl hp hback rfl ?_
    exact .steps 2 _ rfl (.refl _)
  all_goals
    refine .ld _ rfl rfl hframe rfl rfl ?_
    refine .st _ rfl rfl hobj (hw 1) rfl ?_
    refine .ld _ rfl rfl hp hback rfl ?_
    exact .steps 2 _ rfl (.refl _)

/-- **What a constructor does.** -/
theorem construct_runs (hpc : c.pc = K.entry) (h5 : c.reg.r5 = addr (p + 1)) (hr : Room K a p)
    (ha : c.mem heapFr = addr a) : ∃ c', objects.Runs c c' ∧ Constructed K a p c c' := by
  obtain ⟨pc, x, mem⟩ := c
  cases hpc
  have hheap := hr.heap
  have hapart := hr.apart
  have hfr := hr.heapFr
  unfold heap at hheap hapart
  unfold heapFr at hfr
  have hentered : ∀ k, k ≠ p → k ≠ heapFr → k ≠ a → entered K a p x.r6 mem k = mem k := by
    intro k h₁ h₂ h₃
    unfold entered
    rw [Function.update_of_ne h₃, Function.update_of_ne h₂, Function.update_of_ne h₁]
  have hra : entered K a p x.r6 mem p = x.r6 := by
    unfold entered
    rw [Function.update_of_ne (by omega), Function.update_of_ne (by unfold heapFr; omega),
      Function.update_self]
  obtain ⟨ra, henter⟩ := enter_runs x h5 hr ha
  obtain ⟨v, hleave⟩ := leave_runs
    { x with r0 := addr a, r1 := K.table, r2 := addr (a + K.arity), r5 := addr p, r6 := ra }
    rfl rfl hr hra
  refine ⟨_, henter.trans hleave, rfl, rfl, rfl, rfl, ?_, fun j hj => ?_, ?_, fun k h₁ h₂ h₃ => ?_⟩
  · dsimp only
    rw [copied_of_not (by omega)]
    exact Function.update_self _ _ _
  · dsimp only
    rw [copied_arg (by omega) hj, hentered _ (by omega) (by unfold heapFr; omega) (by omega)]
  · dsimp only
    rw [copied_of_not (by unfold heapFr; omega)]
    unfold entered
    rw [Function.update_of_ne (by unfold heapFr; omega), Function.update_self]
  · dsimp only
    rw [copied_of_not (by omega), hentered k h₁ h₂ (by omega)]

/-! ## Programs with objects -/

/-- What a constructor has returned, and the arguments it got. -/
structure Object where
  cls : Class
  loc : BitVec 32
  args : List (BitVec 32)

/-- What the constructor has stored, word by word. -/
def Object.fields (o : Object) : List (BitVec 32) := o.cls.table :: o.args

/-- The fields are still there. -/
def Object.Intact (mem : Memory memSize) (o : Object) : Prop :=
  ∀ j < o.fields.length, load mem (o.loc + addr j) = o.fields[j]?

/-- Two objects have no word in common. -/
def Object.Apart (o o' : Object) : Prop :=
  ∀ j < o.fields.length, ∀ j' < o'.fields.length, o.loc + addr j ≠ o'.loc + addr j'

/-- The machine, and the objects, the newest one first. -/
structure State (W : Type) where
  machine : Machine memSize W
  objects : List Object

inductive Label
  | caller
  | call (K : Class)

variable {W : Type}

/-- The caller leaves the code, `heapFr` and the objects alone. A call finds its arguments at the
word `p + 1`, memory for the object and its own frame, and a return address in the caller. -/
inductive Step (ext : Externals memSize W) : State W → Label → State W → Prop
  | caller {s : State W} {m' : Machine memSize W} (loaded : Loaded objects m'.mem)
      (heapFr : load m'.mem (addr heapFr) = load s.machine.mem (addr heapFr))
      (fields : ∀ o ∈ s.objects, ∀ j < o.fields.length,
        load m'.mem (o.loc + addr j) = load s.machine.mem (o.loc + addr j)) :
      Step ext s .caller ⟨m', s.objects⟩
  | call {s : State W} {m' : Machine memSize W} {K : Class} {a p : ℕ}
      (pc : s.machine.pc.toNat = K.entry) (r5 : s.machine.reg 5 = addr (p + 1))
      (r6 : ¬(objects.lo ≤ (s.machine.reg 6).toNat ∧ (s.machine.reg 6).toNat < objects.hi))
      (heapFr : load s.machine.mem (addr heapFr) = some (addr a)) (room : Room K a p)
      (returns : objects.Returns ext s.machine m') :
      Step ext s (.call K)
        ⟨m', ⟨K, m'.reg 0, (List.range K.arity).map fun j => word s.machine.mem (p + 1 + j)⟩ ::
          s.objects⟩

def sys (ext : Externals memSize W) : Sys (State W) Label where
  init s := Loaded objects s.machine.mem ∧
    load s.machine.mem (addr heapFr) = some (addr heap) ∧ s.objects = []
  step := Step ext

/-! ## Where the objects are -/

/-- The objects are one behind another up to the word `a`. Of each, the last field is at the place
of the next one. -/
def Stacked (mem : Memory memSize) : ℕ → List Object → Prop
  | a, [] => a = heap
  | a, o :: os => ∃ b, o.loc = addr b ∧ a = b + o.cls.arity ∧ o.args.length = o.cls.arity ∧
      (∀ j < o.cls.arity, load mem (addr (b + j)) = o.fields[j]?) ∧ Stacked mem b os

structure Inv (s : State W) (a : ℕ) : Prop where
  loaded : Loaded objects s.machine.mem
  heapFr : load s.machine.mem (addr heapFr) = some (addr a)
  stacked : Stacked s.machine.mem a s.objects
  last : ∀ o ∈ s.objects.head?, load s.machine.mem (addr a) = o.fields.getLast?
  lt : a < memSize / 4

variable {mem mem' : Memory memSize} {o o' : Object} {os : List Object} {b : ℕ}

theorem arity_pos (K : Class) : 0 < K.arity := by
  cases K <;> decide

theorem load_word {k : ℕ} (hk : k < memSize / 4) : load mem (addr k) = some (word mem k) :=
  load_addr memSize_le (by unfold memSize at hk ⊢; omega)

theorem addr_inj {k : ℕ} (ha : a < memSize / 4) (hk : k < memSize / 4) (h : addr a = addr k) :
    a = k := by
  unfold memSize at ha hk
  have := congrArg BitVec.toNat h
  unfold addr at this
  rw [BitVec.toNat_ofNat, BitVec.toNat_ofNat] at this
  omega

theorem Object.length_fields (hargs : o.args.length = o.cls.arity) :
    o.fields.length = o.cls.arity + 1 := congrArg (· + 1) hargs

theorem Stacked.heap_le (h : Stacked mem a os) : heap ≤ a := by
  induction os generalizing a with
  | nil => exact le_of_eq h.symm
  | cons o os ih =>
    obtain ⟨b, -, rfl, -, -, hrest⟩ := h
    exact le_trans (ih hrest) (Nat.le_add_right b _)

theorem Stacked.congr (h : Stacked mem a os) (hsame : ∀ o ∈ os, ∀ j < o.fields.length,
    load mem' (o.loc + addr j) = load mem (o.loc + addr j)) : Stacked mem' a os := by
  induction os generalizing a with
  | nil => exact h
  | cons o os ih =>
    obtain ⟨b, hb, ha, hlen, hfields, hrest⟩ := h
    refine ⟨b, hb, ha, hlen, fun j hj => ?_, ih hrest fun x hx => hsame x (.tail o hx)⟩
    have hj' : j < o.fields.length := by
      rw [Object.length_fields hlen]
      omega
    have := hsame o List.mem_cons_self j hj'
    rwa [hb, addr_add, hfields j hj] at this

theorem Stacked.below (h : Stacked mem a os)
    (hsame : ∀ k, heap ≤ k → k < a → load mem' (addr k) = load mem (addr k)) :
    Stacked mem' a os := by
  induction os generalizing a with
  | nil => exact h
  | cons o os ih =>
    obtain ⟨b, hb, rfl, hlen, hfields, hrest⟩ := h
    have hle := hrest.heap_le
    refine ⟨b, hb, rfl, hlen, fun j hj => ?_, ih hrest fun k hk hkb => hsame k hk (by omega)⟩
    rw [hsame (b + j) (by omega) (by omega), hfields j hj]

theorem Object.intact_iff (hb : o.loc = addr b) (hlen : o.args.length = o.cls.arity)
    (hfields : ∀ j < o.cls.arity, load mem (addr (b + j)) = o.fields[j]?) :
    o.Intact mem ↔ load mem (addr (b + o.cls.arity)) = o.fields.getLast? := by
  have hlast : o.fields.getLast? = o.fields[o.cls.arity]? := by
    rw [List.getLast?_eq_getElem?, Object.length_fields hlen]
    rfl
  unfold Object.Intact
  rw [hlast, Object.length_fields hlen, hb]
  constructor
  · intro h
    have := h o.cls.arity (Nat.lt_succ_self _)
    rwa [addr_add] at this
  · intro h j hj
    rw [addr_add]
    rcases Nat.lt_succ_iff_lt_or_eq.mp hj with hlt | rfl
    · exact hfields j hlt
    · exact h

/-- The condition on one object and the next: its last argument is the address of the class table
that has taken its place. -/
def Survives (o o' : Object) : Prop := o'.fields.getLast? = some o.cls.table

theorem Stacked.intact_iff (h : Stacked mem a os) :
    (∀ o ∈ os, o.Intact mem) ↔
      (∀ o ∈ os.head?, load mem (addr a) = o.fields.getLast?) ∧ os.IsChain Survives := by
  induction os generalizing a with
  | nil => exact iff_of_true (by simp) ⟨by simp, .nil⟩
  | cons o os ih =>
    obtain ⟨b, hb, rfl, hlen, hfields, hrest⟩ := h
    have htable : load mem (addr b) = some o.cls.table := hfields 0 (arity_pos _)
    rw [List.forall_mem_cons, Object.intact_iff hb hlen hfields, ih hrest, List.isChain_cons,
      htable]
    simp only [List.head?_cons, Option.mem_some_iff, forall_eq', Survives, eq_comm]

theorem Stacked.not_apart (h : Stacked mem a (o :: o' :: os)) : ¬o.Apart o' := by
  obtain ⟨b, hb, -, hlen, -, b', hb', rfl, hlen', -, -⟩ := h
  intro hap
  refine hap 0 ?_ o'.cls.arity ?_ ?_
  · rw [Object.length_fields hlen]
    exact Nat.succ_pos _
  · rw [Object.length_fields hlen']
    exact Nat.lt_succ_self _
  · rw [hb, hb', addr_add, addr_add, Nat.add_zero]

/-! ## Every run -/

variable {ext : Externals memSize W} {s s' : State W} {m' : Machine memSize W}

/-- **What a call does.** -/
theorem returns_spec (ext : Externals memSize W) (hl : Loaded objects s.machine.mem)
    (hpc : s.machine.pc.toNat = K.entry)
    (h5 : s.machine.reg 5 = addr (p + 1))
    (h6 : ¬(objects.lo ≤ (s.machine.reg 6).toNat ∧ (s.machine.reg 6).toNat < objects.hi))
    (ha : load s.machine.mem (addr heapFr) = some (addr a)) (hr : Room K a p) :
    ∃ m', objects.Returns ext s.machine m' ∧ Loaded objects m'.mem ∧
      Constructed K a p s.machine.core m'.core := by
  have hword : s.machine.core.mem heapFr = addr a := by
    rw [load_word (by decide)] at ha
    exact Option.some.inj ha
  obtain ⟨c', hruns, hc⟩ := construct_runs (c := s.machine.core) hpc h5 hr hword
  obtain ⟨m', hret, rfl, hl'⟩ := hruns.returns ext hl (by rw [hc.pc]; exact h6)
  exact ⟨m', hret, hl', hc⟩

theorem Inv.call (hi : Inv s a) (hl : Loaded objects m'.mem)
    (hc : Constructed K a p s.machine.core m'.core) (hr : Room K a p) :
    Inv ⟨m', ⟨K, m'.reg 0, (List.range K.arity).map fun j => word s.machine.mem (p + 1 + j)⟩ ::
      s.objects⟩ (a + K.arity) := by
  have hheap := hr.heap
  have hapart := hr.apart
  have hobj := hr.object
  have hload : ∀ k < memSize / 4, load m'.mem (addr k) = some (m'.core.mem k) := fun k => load_word
  have harg : ∀ j < K.arity, load m'.mem (addr (a + 1 + j)) =
      ((List.range K.arity).map fun j => word s.machine.mem (p + 1 + j))[j]? := fun j hj => by
    rw [hload _ (by omega), hc.args j hj, List.getElem?_map, List.getElem?_range hj]
    rfl
  have hfields : ∀ j ≤ K.arity, load m'.mem (addr (a + j)) =
      (Object.fields ⟨K, m'.reg 0, (List.range K.arity).map fun j =>
        word s.machine.mem (p + 1 + j)⟩)[j]? := by
    intro j hj
    cases j with
    | zero => rw [Nat.add_zero, hload a (by omega), hc.table]; rfl
    | succ j => rw [Nat.add_comm j 1, ← Nat.add_assoc, harg j hj, Nat.add_comm 1 j]; rfl
  refine ⟨hl, ?_, ⟨a, hc.r0, rfl, by simp, fun j hj => hfields j (le_of_lt hj), ?_⟩, ?_, hobj⟩
  · rw [hload _ (by decide), hc.heapFr]
  · refine hi.stacked.below fun k hk hka => ?_
    rw [hload k (by omega), hc.others k (by omega) ?_ (by omega)]
    · exact (load_word (by omega)).symm
    · unfold heap at hk
      unfold Objects.heapFr
      omega
  · rintro o ho
    cases ho
    rw [hfields _ (le_refl _), List.getLast?_eq_getElem?]
    simp [Object.fields]

theorem Inv.caller (hi : Inv s a) (hl : Loaded objects m'.mem)
    (hfr : load m'.mem (addr Objects.heapFr) = load s.machine.mem (addr Objects.heapFr))
    (hfields : ∀ o ∈ s.objects, ∀ j < o.fields.length,
      load m'.mem (o.loc + addr j) = load s.machine.mem (o.loc + addr j)) :
    Inv ⟨m', s.objects⟩ a := by
  refine ⟨hl, hfr.trans hi.heapFr, hi.stacked.congr hfields, fun o ho => ?_, hi.lt⟩
  obtain ⟨os, hos⟩ := List.head?_eq_some_iff.mp ho
  have hst := hi.stacked
  rw [hos] at hst
  obtain ⟨b, hb, ha, hlen, -, -⟩ := hst
  have hsame := hfields o (hos ▸ List.mem_cons_self) o.cls.arity
    (by rw [Object.length_fields hlen]; exact Nat.lt_succ_self _)
  rw [hb, addr_add, ← ha] at hsame
  rw [hsame, hi.last o ho]

/-- **The objects in every run.** -/
theorem reach_inv (h : (sys ext).Reach s) : ∃ a, Inv s a := by
  refine h.invariant (I := fun s => ∃ a, Inv s a) ?_ ?_
  · rintro s ⟨hl, hfr, hnil⟩
    exact ⟨heap, hl, hfr, by rw [hnil]; rfl, by rw [hnil]; nofun, by decide⟩
  · rintro s l s' - ⟨a, hi⟩ hstep
    cases hstep with
    | caller loaded heapFr fields => exact ⟨a, hi.caller loaded heapFr fields⟩
    | call pc r5 r6 heapFr room returns =>
      obtain ⟨m', hret, hl, hc⟩ := returns_spec ext hi.loaded pc r5 r6 heapFr room
      cases returns.unique hret
      have heq := addr_inj hi.lt (lt_of_le_of_lt (Nat.le_add_right _ _) room.object)
        (Option.some.inj (hi.heapFr.symm.trans heapFr))
      subst heq
      exact ⟨_, hi.call hl hc room⟩

/-- **Which objects keep their fields.** One does if its last argument is the address of the class
table of the next one. No two of them are apart. -/
theorem objects_intact_iff (h : (sys ext).Reach s) :
    ((∀ o ∈ s.objects, o.Intact s.machine.mem) ↔ s.objects.IsChain Survives) ∧
      ((∀ o ∈ s.objects, o.Intact s.machine.mem) ∧ s.objects.Pairwise Object.Apart ↔
        s.objects.length ≤ 1) := by
  obtain ⟨a, hi⟩ := reach_inv h
  have hiff := hi.stacked.intact_iff
  refine ⟨hiff.trans (and_iff_right hi.last), ?_⟩
  rw [hiff, and_iff_right hi.last]
  have hst := hi.stacked
  rcases hos : s.objects with _ | ⟨o, _ | ⟨o', os⟩⟩
  · simp
  · simp
  · rw [hos] at hst
    refine iff_of_false (fun h => hst.not_apart ?_) (by simp)
    exact (List.pairwise_cons.mp h.2).1 o' List.mem_cons_self

/-- The machine at a call of `new_A (10)`, with the stack at `0x5000`. -/
def firstCall : Machine memSize Unit :=
  { Machine.initial () with
    mem := objects.image fun k => if k = heapFr then addr heap else if k = 0x1401 then 10 else 0
    reg := fun r => if r = Reg.r5.num then addr 0x1401 else 0x206
    pc := 0x400 }

theorem firstCall_returns : ∃ m', (sys noCalls).Reach ⟨m', [⟨.A, m'.reg 0, [10]⟩]⟩ ∧
    m'.reg 5 = addr 0x1401 ∧ m'.reg 6 = 0x206 := by
  have hl : Loaded objects firstCall.mem := by decide +kernel
  have hfr : load firstCall.mem (addr heapFr) = some (addr heap) := by decide +kernel
  have harg : word firstCall.mem 0x1401 = 10 := by decide +kernel
  have hr : Room .A heap 0x1400 :=
    ⟨by decide, by decide, by decide, by decide, by decide, by decide⟩
  have h₀ : (sys noCalls).Reach ⟨firstCall, []⟩ := .init ⟨hl, hfr, rfl⟩
  obtain ⟨m', hret, -, hc⟩ :=
    returns_spec noCalls (s := ⟨firstCall, []⟩) hl rfl rfl (by decide) hfr hr
  have h₁ := h₀.step (.call rfl rfl (by decide) hfr hr hret)
  have hargs :
      ((List.range Class.A.arity).map fun j => word firstCall.mem (0x1400 + 1 + j)) = [10] := by
    change [word firstCall.mem 0x1401] = [10]
    rw [harg]
  dsimp only at h₁
  rw [hargs] at h₁
  exact ⟨m', h₁, hc.r5, hc.r6⟩

/-- One object is intact. -/
theorem objects_intact_one : ∃ s : State Unit, (sys noCalls).Reach s ∧ s.objects.length = 1 ∧
    ∀ o ∈ s.objects, o.Intact s.machine.mem := by
  obtain ⟨m', h, -, -⟩ := firstCall_returns
  exact ⟨_, h, rfl, ((objects_intact_iff h).2.mpr (le_refl 1)).1⟩

/-- `new_B` overwrites the argument of the object that `new_A (10)` has returned. -/
theorem second_call_overwrites : ∃ s : State Unit, (sys noCalls).Reach s ∧
    s.objects.map Object.cls = [.B, .A] ∧ ¬∀ o ∈ s.objects, o.Intact s.machine.mem := by
  obtain ⟨m₁, h₁, h5, h6⟩ := firstCall_returns
  obtain ⟨a, hi⟩ := reach_inv h₁
  obtain ⟨b, -, ha, -, -, hb⟩ := hi.stacked
  obtain rfl : a = heap + 1 := by rw [ha, show b = heap from hb]; rfl
  have h₂ : (sys noCalls).Reach ⟨{ m₁ with pc := 0x500 }, [⟨.A, m₁.reg 0, [10]⟩]⟩ :=
    h₁.step (.caller hi.loaded rfl fun _ _ _ _ => rfl)
  have hr : Room .B (heap + 1) 0x1400 :=
    ⟨by decide, by decide, by decide, by decide, by decide, by decide⟩
  have hout : ¬(objects.lo ≤ (m₁.reg 6).toNat ∧ (m₁.reg 6).toNat < objects.hi) := by
    rw [h6]
    decide
  obtain ⟨m₃, hret, -, -⟩ := returns_spec noCalls
    (s := ⟨{ m₁ with pc := 0x500 }, []⟩) hi.loaded rfl h5 hout hi.heapFr hr
  have h₃ := h₂.step (.call rfl h5 hout hi.heapFr hr hret)
  refine ⟨_, h₃, rfl, fun hall => ?_⟩
  obtain ⟨a, hi₃⟩ := reach_inv h₃
  have hchain := (hi₃.stacked.intact_iff.mp hall).2
  have hlast : (10 : BitVec 32) = 0x220c := Option.some.inj (List.isChain_cons_cons.mp hchain).1
  exact absurd hlast (by decide)

end IntroSystems.SM213.Objects
