import IntroSystems.SM213.MainMemory
import Mathlib.Algebra.Order.Ring.Int

/-!
# Which addresses the Java memory checks

`get` and `set` of `MainMemory.java` compute `address + length - 1` as an `int`, where it may wrap
around. The loops behind the test then run into the end of the array.

* `setRun`: `set`, with the memory that it leaves behind when it throws.
* `Outside`: some address of an access is not in memory. `NoWrap`: the last one is an `int`.
* `GetChecked`, `SetChecked`: the access throws `InvalidAddressException` for those, and nothing
  else.
* **`access_checked_iff`**: so it is exactly if there is no wrap.
* **`access_unchecked`**: two bytes from the last `int` on.
-/

set_option autoImplicit false

namespace IntroSystems.SM213.MainMemory

variable {n : ℕ}

/-- The loop of `set`. -/
def setLoop (m : Memory n) (address : BitVec 32) :
    List (BitVec 8 × ℕ) → Memory n × Except MemoryExn Unit
  | [] => (m, .ok ())
  | (b, i) :: rest =>
    match m.set (address + BitVec.ofNat 32 i) b with
    | none => (m, .error .arrayIndexOutOfBounds)
    | some m => setLoop m address rest

/-- `set (address, value)`: the memory afterwards, also where it throws. -/
def setRun (m : Memory n) (address : BitVec 32) (value : List (BitVec 8)) :
    Memory n × Except MemoryExn Unit :=
  if isInvalid n address value.length then (m, .error .invalidAddress)
  else setLoop m address value.zipIdx

/-- Some address of the range is not in memory. -/
def Outside (n : ℕ) (a : BitVec 32) (l : ℕ) : Prop :=
  ∃ i < l, ¬(0 ≤ a.toInt + i ∧ a.toInt + i < n)

/-- The last address of the range is an `int`, or the first one is negative. -/
def NoWrap (a : BitVec 32) (l : ℕ) : Prop := a.toInt < 0 ∨ a.toInt + l ≤ 2 ^ 31

/-- **`get` checks its addresses**: it throws exactly for those outside, and nothing else. -/
structure GetChecked (m : Memory n) (a : BitVec 32) (l : ℕ) : Prop where
  throws : get m a l = .error .invalidAddress ↔ Outside n a l
  returns : ¬Outside n a l → ∃ bs, get m a l = .ok bs
  only : ∀ e, get m a l = .error e → e = .invalidAddress

/-- **`set` checks its addresses**, and leaves memory alone where it throws. -/
structure SetChecked (m : Memory n) (a : BitVec 32) (value : List (BitVec 8)) : Prop where
  throws : (setRun m a value).2 = .error .invalidAddress ↔ Outside n a value.length
  returns : ¬Outside n a value.length → (setRun m a value).2 = .ok ()
  only : ∀ e, (setRun m a value).2 = .error e → e = .invalidAddress
  unchanged : ∀ e, (setRun m a value).2 = .error e → (setRun m a value).1 = m

/-! ## What `setRun` is -/

theorem setLoop_eq (m : Memory n) (a : BitVec 32) (bs : List (BitVec 8 × ℕ)) :
    bs.foldlM (fun m (b, i) => checked (m.set (a + BitVec.ofNat 32 i) b)) m =
      (setLoop m a bs).2.map fun _ => (setLoop m a bs).1 := by
  induction bs generalizing m with
  | nil => rfl
  | cons x bs ih =>
    obtain ⟨b, i⟩ := x
    rw [List.foldlM_cons, setLoop]
    dsimp only
    cases m.set (a + BitVec.ofNat 32 i) b with
    | none => rfl
    | some m' => exact ih m'

/-- **`setRun` is `set`**. -/
theorem set_eq_setRun (m : Memory n) (a : BitVec 32) (value : List (BitVec 8)) :
    set m a value = (setRun m a value).2.map fun _ => (setRun m a value).1 := by
  unfold set setRun
  split
  · rfl
  · exact setLoop_eq m a value.zipIdx

/-! ## The addresses of an access -/

variable {m : Memory n} {a : BitVec 32} {l i : ℕ}

/-- The address of a byte. One beyond the `int`s is negative. -/
theorem toInt_address (ha : 0 ≤ a.toInt) (hi : i < 2 ^ 31) :
    (a + BitVec.ofNat 32 i).toInt = a.toInt + i ∧ a.toInt + i < 2 ^ 31 ∨
      (a + BitVec.ofNat 32 i).toInt < 0 ∧ 2 ^ 31 ≤ a.toInt + i := by
  have hlt := a.isLt
  rw [BitVec.toInt_eq_toNat_cond] at ha ⊢
  rw [BitVec.toInt_eq_toNat_cond, BitVec.toNat_add, BitVec.toNat_ofNat]
  omega

theorem inside_iff (hn : n < 2 ^ 31) (ha : 0 ≤ a.toInt) (hi : i < 2 ^ 31) :
    (0 ≤ (a + BitVec.ofNat 32 i).toInt ∧ (a + BitVec.ofNat 32 i).toInt < n) ↔
      a.toInt + i < n := by
  have hcases := toInt_address ha hi
  omega

/-- **What the test tests.** -/
theorem isInvalid_iff (hn : n < 2 ^ 31) (hpos : 0 < l) (hl : l < 2 ^ 31) :
    isInvalid n a l = true ↔ NoWrap a l ∧ Outside n a l := by
  have hlast : Outside n a l ↔ a.toInt < 0 ∨ n < a.toInt + l := by
    constructor
    · rintro ⟨i, hi, h⟩
      omega
    · rintro (h | h)
      · exact ⟨0, hpos, by omega⟩
      · exact ⟨l - 1, by omega, by omega⟩
  have hlt := a.isLt
  rw [hlast, NoWrap, isInvalid, Bool.or_eq_true, decide_eq_true_iff, decide_eq_true_iff]
  rw [BitVec.toInt_eq_toNat_cond, BitVec.toInt_eq_toNat_cond, BitVec.toNat_sub, BitVec.toNat_add,
    BitVec.toNat_ofNat]
  simp only [BitVec.reduceToNat]
  omega

/-! ## The loops -/

theorem get_address (hn : n < 2 ^ 31) (ha : 0 ≤ a.toInt) (hin : a.toInt + i < n) :
    ∃ b, m.get (a + BitVec.ofNat 32 i) = some b :=
  ⟨_, dif_pos ((inside_iff hn ha (by omega)).mpr hin)⟩

theorem getLoop_ok (hn : n < 2 ^ 31) (ha : 0 ≤ a.toInt) (i l : ℕ) (hin : a.toInt + i + l ≤ n) :
    ∃ bs, (List.range' i l).mapM (fun j => checked (m.get (a + BitVec.ofNat 32 j))) = .ok bs := by
  induction l generalizing i with
  | zero => exact ⟨[], rfl⟩
  | succ l ih =>
    obtain ⟨b, hb⟩ := get_address (m := m) hn ha (i := i) (by omega)
    obtain ⟨bs, hbs⟩ := ih (i + 1) (by omega)
    refine ⟨b :: bs, ?_⟩
    rw [List.range'_succ, List.mapM_cons, hb, hbs]
    rfl

theorem getLoop_error (hn : n < 2 ^ 31) (ha : 0 ≤ a.toInt) (i l : ℕ) (hpos : 0 < l)
    (hl : i + l < 2 ^ 31) (hout : n < a.toInt + i + l) :
    (List.range' i l).mapM (fun j => checked (m.get (a + BitVec.ofNat 32 j))) =
      .error .arrayIndexOutOfBounds := by
  induction l generalizing i with
  | zero => exact absurd hpos (Nat.lt_irrefl 0)
  | succ l ih =>
    rw [List.range'_succ, List.mapM_cons]
    by_cases hi : a.toInt + i < n
    · obtain ⟨b, hb⟩ := get_address (m := m) hn ha hi
      rw [hb, ih (i + 1) (by omega) (by omega) (by omega)]
      rfl
    · rw [Memory.get, dif_neg fun h => hi ((inside_iff hn ha (by omega)).mp h)]
      rfl

theorem setLoop_cons (hn : n < 2 ^ 31) (ha : 0 ≤ a.toInt) (hin : a.toInt + i < n) (b : BitVec 8)
    (value : List (BitVec 8)) :
    ∃ m', setLoop m a ((b :: value).zipIdx i) = setLoop m' a (value.zipIdx (i + 1)) := by
  rw [List.zipIdx_cons, setLoop, Memory.set,
    dif_pos ((inside_iff hn ha (by omega)).mpr hin)]
  exact ⟨_, rfl⟩

theorem setLoop_ok (hn : n < 2 ^ 31) (ha : 0 ≤ a.toInt) (value : List (BitVec 8)) (i : ℕ)
    (hin : a.toInt + i + value.length ≤ n) : (setLoop m a (value.zipIdx i)).2 = .ok () := by
  induction value generalizing m i with
  | nil => rfl
  | cons b value ih =>
    rw [List.length_cons] at hin
    obtain ⟨m', hm⟩ := setLoop_cons (m := m) hn ha (i := i) (by omega) b value
    rw [hm]
    exact ih (i + 1) (by omega)

theorem setLoop_error (hn : n < 2 ^ 31) (ha : 0 ≤ a.toInt) (value : List (BitVec 8)) (i : ℕ)
    (hpos : 0 < value.length) (hl : i + value.length < 2 ^ 31)
    (hout : n < a.toInt + i + value.length) :
    (setLoop m a (value.zipIdx i)).2 = .error .arrayIndexOutOfBounds := by
  induction value generalizing m i with
  | nil => exact absurd hpos (Nat.lt_irrefl 0)
  | cons b value ih =>
    rw [List.length_cons] at hl hout
    by_cases hi : a.toInt + i < n
    · obtain ⟨m', hm⟩ := setLoop_cons (m := m) hn ha hi b value
      rw [hm]
      exact ih (i + 1) (by omega) (by omega) (by omega)
    · rw [List.zipIdx_cons, setLoop, Memory.set,
        dif_neg fun h => hi ((inside_iff hn ha (by omega)).mp h)]

/-! ## The accesses -/

theorem wraps_of_not (h : ¬NoWrap a l) : 0 ≤ a.toInt ∧ 2 ^ 31 < a.toInt + l := by
  unfold NoWrap at h
  omega

theorem inside_of_not (hpos : 0 < l) (h : ¬Outside n a l) : 0 ≤ a.toInt ∧ a.toInt + l ≤ n := by
  have hfirst : 0 ≤ a.toInt := by
    by_contra hneg
    exact h ⟨0, hpos, by omega⟩
  refine ⟨hfirst, ?_⟩
  by_contra hlast
  exact h ⟨l - 1, by omega, by omega⟩

theorem getChecked_iff (hn : n < 2 ^ 31) (m : Memory n) (a : BitVec 32) (hpos : 0 < l)
    (hl : l < 2 ^ 31) : GetChecked m a l ↔ NoWrap a l := by
  have htest := isInvalid_iff (a := a) hn hpos hl
  constructor
  · intro h
    by_contra hwrap
    obtain ⟨ha, hout⟩ := wraps_of_not hwrap
    have herror : get m a l = .error .arrayIndexOutOfBounds := by
      rw [get, if_neg fun h => hwrap (htest.mp h).1, List.range_eq_range']
      exact getLoop_error hn ha 0 l hpos (by omega) (by omega)
    exact absurd (h.only _ herror) (by decide)
  · intro hwrap
    by_cases hout : Outside n a l
    · have hget : get m a l = .error .invalidAddress := if_pos (htest.mpr ⟨hwrap, hout⟩)
      refine ⟨iff_of_true hget hout, fun h => absurd hout h, fun e he => ?_⟩
      rw [hget] at he
      exact (Except.error.inj he).symm
    · obtain ⟨ha, hin⟩ := inside_of_not hpos hout
      obtain ⟨bs, hbs⟩ := getLoop_ok (m := m) hn ha 0 l (by omega)
      have hget : get m a l = .ok bs := by
        rw [get, if_neg fun h => hout (htest.mp h).2, List.range_eq_range', hbs]
      refine ⟨iff_of_false ?_ hout, fun _ => ⟨bs, hget⟩, fun e he => ?_⟩
      · rw [hget]
        exact nofun
      · rw [hget] at he
        cases he

theorem setChecked_iff (hn : n < 2 ^ 31) (m : Memory n) (a : BitVec 32) {value : List (BitVec 8)}
    (hpos : 0 < value.length) (hl : value.length < 2 ^ 31) :
    SetChecked m a value ↔ NoWrap a value.length := by
  have htest := isInvalid_iff (a := a) hn hpos hl
  constructor
  · intro h
    by_contra hwrap
    obtain ⟨ha, hout⟩ := wraps_of_not hwrap
    have herror : (setRun m a value).2 = .error .arrayIndexOutOfBounds := by
      rw [setRun, if_neg fun h => hwrap (htest.mp h).1]
      exact setLoop_error hn ha value 0 hpos (by omega) (by omega)
    exact absurd (h.only _ herror) (by decide)
  · intro hwrap
    by_cases hout : Outside n a value.length
    · have hset : setRun m a value = (m, .error .invalidAddress) := if_pos (htest.mpr ⟨hwrap, hout⟩)
      rw [Prod.ext_iff] at hset
      refine ⟨iff_of_true hset.2 hout, fun h => absurd hout h, fun e he => ?_, fun _ _ => hset.1⟩
      rw [hset.2] at he
      exact (Except.error.inj he).symm
    · obtain ⟨ha, hin⟩ := inside_of_not hpos hout
      have hset : (setRun m a value).2 = .ok () := by
        rw [setRun, if_neg fun h => hout (htest.mp h).2]
        exact setLoop_ok hn ha value 0 (by omega)
      have hnone : ∀ e, (setRun m a value).2 ≠ .error e := fun e => by
        rw [hset]
        exact nofun
      exact ⟨iff_of_false (hnone _) hout, fun _ => hset, fun e he => absurd he (hnone e),
        fun e he => absurd he (hnone e)⟩

/-- **When addresses are checked**: the last one of the access must be an `int`. A memory has fewer
than `2 ^ 31` bytes, and so has an array of Java. -/
theorem access_checked_iff (hn : n < 2 ^ 31) (m : Memory n) (a : BitVec 32) {l : ℕ} (hpos : 0 < l)
    (hl : l < 2 ^ 31) :
    (GetChecked m a l ↔ NoWrap a l) ∧
      ∀ value, value.length = l → (SetChecked m a value ↔ NoWrap a l) := by
  refine ⟨getChecked_iff hn m a hpos hl, ?_⟩
  rintro value rfl
  exact setChecked_iff hn m a hpos hl

/-- One byte at the first address of a memory of four bytes. -/
theorem access_checked_one :
    (GetChecked (fun _ => 0 : Memory 4) 0 1 ↔ NoWrap 0 1) ∧
      ∀ value, value.length = 1 → (SetChecked (fun _ => 0 : Memory 4) 0 value ↔ NoWrap 0 1) :=
  access_checked_iff (by decide) (fun _ => 0) 0 (by decide) (by decide)

/-- **The last `int` and the address after it**: no `InvalidAddressException` is thrown. -/
theorem access_unchecked :
    ¬(GetChecked (fun _ => 0 : Memory 4) 0x7fffffff 2 ∧
      SetChecked (fun _ => 0 : Memory 4) 0x7fffffff [1, 2]) ∧
    get (fun _ => 0 : Memory 4) 0x7fffffff 2 = .error .arrayIndexOutOfBounds := by
  refine ⟨fun h => ?_, rfl⟩
  exact absurd (h.1.only .arrayIndexOutOfBounds rfl) (by decide)

end IntroSystems.SM213.MainMemory
