import IntroSystems.SM213.Memory

/-!
# The memory of the Java machine

`MainMemory.java` of assignment 2.

* `get`, `set`, `isAccessAligned`, `bytesToInteger`, `integerToBytes`: its methods.
* `load_eq`, `store_eq`: its integers are the words that `sm.c` loads and stores.
-/

set_option autoImplicit false

namespace IntroSystems.SM213

/-- What an access to memory can throw: `InvalidAddressException`, or Java's own exception for an
array index. -/
inductive MemoryExn
  | invalidAddress
  | arrayIndexOutOfBounds
  deriving DecidableEq

namespace MainMemory

variable {n : ℕ}

def isAccessAligned (address : BitVec 32) (length : ℤ) : Bool := address.toInt.tmod length == 0

def bytesToInteger (b0 b1 b2 b3 : BitVec 8) : BitVec 32 :=
  (b0.signExtend 32 &&& 0xff) <<< 24 ||| (b1.signExtend 32 &&& 0xff) <<< 16 |||
    (b2.signExtend 32 &&& 0xff) <<< 8 ||| (b3.signExtend 32 &&& 0xff)

def integerToBytes (i : BitVec 32) : List (BitVec 8) :=
  [(i >>> 24).setWidth 8, (i >>> 16).setWidth 8, (i >>> 8).setWidth 8, i.setWidth 8]

/-- An access to an array, with what it gives when the index is in bounds. -/
def checked {α : Type} : Option α → Except MemoryExn α
  | some x => .ok x
  | none => .error .arrayIndexOutOfBounds

/-- The test that `get` and `set` begin with. -/
def isInvalid (n : ℕ) (address : BitVec 32) (length : ℕ) : Bool :=
  decide (address.toInt < 0) || decide (n ≤ (address + BitVec.ofNat 32 length - 1).toInt)

def get (m : Memory n) (address : BitVec 32) (length : ℕ) : Except MemoryExn (List (BitVec 8)) :=
  if isInvalid n address length then .error .invalidAddress
  else (List.range length).mapM fun i => checked (m.get (address + BitVec.ofNat 32 i))

def set (m : Memory n) (address : BitVec 32) (value : List (BitVec 8)) :
    Except MemoryExn (Memory n) :=
  if isInvalid n address value.length then .error .invalidAddress
  else value.zipIdx.foldlM (fun m (b, i) => checked (m.set (address + BitVec.ofNat 32 i) b)) m

/-! ## The bytes that `get` and `set` access -/

theorem checked_eq_ok {α : Type} {o : Option α} {x : α} : checked o = .ok x ↔ o = some x := by
  cases o <;> simp [checked]

theorem add_ofNat_succ (a : BitVec 32) (i : ℕ) :
    a + BitVec.ofNat 32 (i + 1) = a + BitVec.ofNat 32 i + 1 := by
  rw [BitVec.ofNat_add, BitVec.add_assoc]
  rfl

theorem bytes_of_get_loop {m : Memory n} {a : BitVec 32} (l i : ℕ) {bs : List (BitVec 8)}
    (h : (List.range' i l).mapM (fun j => checked (m.get (a + BitVec.ofNat 32 j))) = .ok bs) :
    m.bytes (a + BitVec.ofNat 32 i) l = some bs := by
  induction l generalizing i bs with
  | zero =>
    cases h
    rfl
  | succ l ih =>
    rw [List.range'_succ, List.mapM_cons] at h
    cases hb : checked (m.get (a + BitVec.ofNat 32 i)) with
    | error e =>
      rw [hb] at h
      cases h
    | ok b =>
      cases hbs : (List.range' (i + 1) l).mapM
          (fun j => checked (m.get (a + BitVec.ofNat 32 j))) with
      | error e =>
        rw [hb, hbs] at h
        cases h
      | ok bs' =>
        rw [hb, hbs] at h
        cases h
        have := ih (i + 1) hbs
        rw [add_ofNat_succ] at this
        exact Memory.bytes_cons.2 ⟨checked_eq_ok.1 hb, this⟩

theorem bytes_of_get {m : Memory n} {a : BitVec 32} {l : ℕ} {bs : List (BitVec 8)}
    (h : get m a l = .ok bs) : m.bytes a l = some bs := by
  unfold get at h
  split at h
  · cases h
  · rw [List.range_eq_range'] at h
    simpa using bytes_of_get_loop l 0 h

theorem setBytes_of_set_loop {m m' : Memory n} {a : BitVec 32} (i : ℕ) (value : List (BitVec 8))
    (h : (value.zipIdx i).foldlM (fun m (b, j) => checked (m.set (a + BitVec.ofNat 32 j) b)) m =
      .ok m') :
    m.setBytes (a + BitVec.ofNat 32 i) value = some m' := by
  induction value generalizing i m with
  | nil =>
    cases h
    rfl
  | cons b value ih =>
    rw [List.zipIdx_cons, List.foldlM_cons] at h
    cases hb : checked (m.set (a + BitVec.ofNat 32 i) b) with
    | error e =>
      simp only [hb] at h
      cases h
    | ok m1 =>
      simp only [hb] at h
      have := ih (i + 1) h
      rw [add_ofNat_succ] at this
      rw [Memory.setBytes, checked_eq_ok.1 hb]
      exact this

theorem setBytes_of_set {m m' : Memory n} {a : BitVec 32} {value : List (BitVec 8)}
    (h : set m a value = .ok m') : m.setBytes a value = some m' := by
  unfold set at h
  split at h
  · cases h
  · simpa using setBytes_of_set_loop 0 value h

/-! ## The words of the two languages -/

theorem getLsbD_ff (i : ℕ) : (0xff : BitVec 32).getLsbD i = decide (i < 8) := by
  have h : (0xff : BitVec 32) = (BitVec.allOnes 8).setWidth 32 := rfl
  rw [h, BitVec.getLsbD_setWidth, BitVec.getLsbD_allOnes]
  by_cases h : i < 8
  · simp [h, show i < 32 by omega]
  · simp [h]

theorem signExtend_and (b : BitVec 8) : b.signExtend 32 &&& 0xff = b.setWidth 32 := by
  apply BitVec.eq_of_getLsbD_eq
  intro i hi
  rw [BitVec.getLsbD_and, getLsbD_ff, BitVec.getLsbD_signExtend, BitVec.getLsbD_setWidth]
  by_cases h : i < 8
  · simp [h, hi]
  · simp [h, hi, BitVec.getLsbD_of_ge b i (by omega)]

theorem setWidth_and (v : BitVec 32) : (v &&& 0xff).setWidth 8 = v.setWidth 8 := by
  apply BitVec.eq_of_getLsbD_eq
  intro i hi
  rw [BitVec.getLsbD_setWidth, BitVec.getLsbD_and, getLsbD_ff, BitVec.getLsbD_setWidth]
  simp [hi]

theorem sshiftRight_and (v : BitVec 32) {k : ℕ} (hk : k ≤ 24) :
    (v.sshiftRight k &&& 0xff).setWidth 8 = (v >>> k).setWidth 8 := by
  rw [setWidth_and]
  apply BitVec.eq_of_getLsbD_eq
  intro i hi
  have h : ¬ 32 ≤ i := by omega
  rw [BitVec.getLsbD_setWidth, BitVec.getLsbD_setWidth, BitVec.getLsbD_sshiftRight,
    BitVec.getLsbD_ushiftRight, if_pos (by omega)]
  simp only [hi, h, decide_true, decide_false, Bool.not_false, Bool.true_and]

theorem bytesToInteger_eq (b0 b1 b2 b3 : BitVec 8) : bytesToInteger b0 b1 b2 b3 =
    b0.setWidth 32 <<< 24 ||| b1.setWidth 32 <<< 16 ||| b2.setWidth 32 <<< 8 |||
      b3.setWidth 32 := by
  simp only [bytesToInteger, signExtend_and]

/-- **The words that `sm.c` loads** are the integers of the Java machine. -/
theorem load_eq {m : Memory n} {a : BitVec 32} {b0 b1 b2 b3 : BitVec 8}
    (h : m.bytes a 4 = some [b0, b1, b2, b3]) : load m a = some (bytesToInteger b0 b1 b2 b3) := by
  obtain ⟨h0, h⟩ := Memory.bytes_cons.1 h
  obtain ⟨h1, h⟩ := Memory.bytes_cons.1 h
  obtain ⟨h2, h⟩ := Memory.bytes_cons.1 h
  obtain ⟨h3, -⟩ := Memory.bytes_cons.1 h
  rw [BitVec.add_assoc] at h2
  rw [BitVec.add_assoc, BitVec.add_assoc] at h3
  rw [bytesToInteger_eq, load, h0, h1, show a + 2 = a + (1 + 1) from rfl, h2,
    show a + 3 = a + (1 + (1 + 1)) from rfl, h3]
  rfl

/-- **The words that `sm.c` stores** are the integers of the Java machine. -/
theorem store_eq (m : Memory n) (a v : BitVec 32) :
    store m a v = m.setBytes a (integerToBytes v) := by
  have h1 : a + 1 + 1 = a + 2 := by rw [BitVec.add_assoc]; rfl
  have h2 : a + 2 + 1 = a + 3 := by rw [BitVec.add_assoc]; rfl
  simp only [store, integerToBytes, Memory.setBytes, sshiftRight_and v (Nat.le_refl 24),
    sshiftRight_and v (show 16 ≤ 24 by decide), sshiftRight_and v (show 8 ≤ 24 by decide),
    setWidth_and, h1, h2, Option.bind_eq_bind, Option.bind_fun_some]

end MainMemory

end IntroSystems.SM213
