import IntroSystems.Lib.Tiling
import IntroSystems.Malloc.Model
import Mathlib.Tactic.Linarith

/-!
# Header words

* `headerWord`: the word `set_block_header` writes for a size and an in-use flag;
  `toNat_headerWord`.
* `getSizeToAllocate_eq`: the conversions to `size_t` and back cancel. The result is the rounded
  size for requests up to `2 ^ 31 - 12` (`toInt_getSizeToAllocate`), and at most `8` for every
  larger one (`toInt_getSizeToAllocate_le`).
* `Stored`: a block whose two words are in memory, and what the accessors read there.
-/

set_option autoImplicit false

namespace IntroSystems.Malloc

open ByteMem Tiling

/-! ## Clearing the last two bits -/

theorem setWidth_signExtend (w : BitVec 32) : (w.signExtend 64).setWidth 32 = w := by
  ext i hi
  rw [BitVec.getElem_setWidth, BitVec.getLsbD_signExtend]
  simp [hi, show i < 64 by omega, BitVec.getLsbD_eq_getElem]

theorem setWidth_clear (x : BitVec 64) :
    ((x >>> 2) <<< 2).setWidth 32 = ((x.setWidth 32) >>> 2) <<< 2 := by
  ext i hi
  simp only [BitVec.getElem_setWidth, BitVec.getLsbD_shiftLeft, BitVec.getLsbD_ushiftRight,
    BitVec.getElem_shiftLeft, BitVec.getElem_ushiftRight]
  by_cases h : i < 2
  · simp [h]
  · simp [h, show i < 64 by omega, show 2 + (i - 2) = i by omega, hi]

theorem and_neg_HEADER_SIZE (w : BitVec 32) :
    (-HEADER_SIZE &&& w.signExtend 64).setWidth 32 = (w >>> 2) <<< 2 := by
  rw [BitVec.setWidth_and, setWidth_signExtend]
  have h : (-HEADER_SIZE).setWidth 32 = (BitVec.allOnes 32 >>> 2) <<< 2 := by decide
  rw [h]
  ext i hi
  rw [BitVec.getElem_and, BitVec.getElem_shiftLeft, BitVec.getElem_shiftLeft]
  by_cases h : i < 2
  · simp only [h, decide_true, Bool.not_true, Bool.false_and]
  · simp only [h, decide_false, Bool.not_false, Bool.true_and, BitVec.getElem_ushiftRight,
      BitVec.getLsbD_allOnes]
    simp [show 2 + (i - 2) = i by omega, hi, BitVec.getLsbD_eq_getElem]

theorem toNat_clear (w : BitVec 32) : ((w >>> 2) <<< 2).toNat = 4 * (w.toNat / 4) := by
  simp only [BitVec.toNat_shiftLeft, BitVec.toNat_ushiftRight, Nat.shiftLeft_eq,
    Nat.shiftRight_eq_div_pow]
  omega

/-! ## The size of a new block -/

/-- The casts of `get_size_to_allocate` cancel. -/
theorem getSizeToAllocate_eq (u : BitVec 32) :
    getSizeToAllocate u = (((u + 3) >>> 2) <<< 2) + 8 := by
  unfold getSizeToAllocate
  rw [setWidth_clear, BitVec.setWidth_add _ _ (by omega), setWidth_signExtend,
    BitVec.setWidth_add _ _ (by omega), setWidth_signExtend]
  rfl

/-- **Requests up to `2 ^ 31 - 12` bytes are rounded up to whole words.** -/
theorem toInt_getSizeToAllocate {u : BitVec 32} (hu : u.toNat ≤ 2 ^ 31 - 12) :
    (getSizeToAllocate u).toInt = 4 * ((u.toNat + 3 : ℤ) / 4) + 8 := by
  rw [getSizeToAllocate_eq, BitVec.toInt_eq_toNat_cond, BitVec.toNat_add, toNat_clear,
    BitVec.toNat_add]
  simp only [BitVec.reduceToNat]
  omega

/-- **A larger request wraps around to a block of at most `8` bytes.** -/
theorem toInt_getSizeToAllocate_le {u : BitVec 32} (hu : 2 ^ 31 - 12 < u.toNat) :
    (getSizeToAllocate u).toInt ≤ 8 := by
  have := u.isLt
  rw [getSizeToAllocate_eq, BitVec.toInt_eq_toNat_cond, BitVec.toNat_add, toNat_clear,
    BitVec.toNat_add]
  simp only [BitVec.reduceToNat]
  omega

/-! ## Header words -/

/-- The third argument of `set_block_header`. -/
def inUseFlag (used : Bool) : BitVec 32 := if used then 1 else 0

/-- The word written for a block of `size` bytes. -/
def headerWord (size : ℤ) (used : Bool) : BitVec 32 := BitVec.ofInt 32 size ||| inUseFlag used

/-- A block size an `int` can hold, with its last two bits clear. -/
def IsSize (s : ℤ) : Prop := 8 ≤ s ∧ s < 2 ^ 31 ∧ s % 4 = 0

theorem IsSize.pos {s : ℤ} (hs : IsSize s) : 0 < s := by
  have := hs.1
  omega

theorem toNat_ofInt_size {s : ℤ} (hs : IsSize s) : (BitVec.ofInt 32 s).toNat = s.toNat := by
  obtain ⟨h1, h2, -⟩ := hs
  rw [BitVec.toNat_ofInt]
  omega

theorem toInt_ofInt_size {s : ℤ} (hs : IsSize s) : (BitVec.ofInt 32 s).toInt = s := by
  rw [BitVec.toInt_eq_toNat_cond, toNat_ofInt_size hs]
  obtain ⟨h1, h2, -⟩ := hs
  omega

theorem eq_ofInt_of_toInt {w : BitVec 32} {s : ℤ} (h : w.toInt = s) : w = BitVec.ofInt 32 s := by
  rw [← h, BitVec.ofInt_toInt]

theorem toNat_or_inUseFlag {w : BitVec 32} (hw : w.toNat % 4 = 0) (used : Bool) :
    (w ||| inUseFlag used).toNat = w.toNat + if used then 1 else 0 := by
  cases used with
  | false => simp [inUseFlag]
  | true =>
    have h : w &&& 1 = 0 := by
      apply BitVec.eq_of_toNat_eq
      simp only [BitVec.toNat_and, BitVec.reduceToNat, Nat.and_one_is_mod]
      omega
    have := w.isLt
    rw [inUseFlag, if_pos rfl, ← BitVec.add_eq_or_of_and_eq_zero _ _ h, BitVec.toNat_add]
    simp only [BitVec.reduceToNat, if_true]
    omega

theorem toNat_headerWord {s : ℤ} (hs : IsSize s) (used : Bool) :
    (headerWord s used).toNat = s.toNat + if used then 1 else 0 := by
  have h4 := hs.2.2
  have h8 := hs.1
  rw [headerWord, toNat_or_inUseFlag, toNat_ofInt_size hs]
  rw [toNat_ofInt_size hs]
  omega

variable {m m' : Mem} {b s : ℤ} {used : Bool}

theorem getBlockSize_of_word (hs : IsSize s) (h : load32 m b = headerWord s used) :
    getBlockSize m b = BitVec.ofInt 32 s := by
  apply BitVec.eq_of_toNat_eq
  have h8 := hs.1
  have h4 := hs.2.2
  rw [getBlockSize, h, and_neg_HEADER_SIZE, toNat_clear, toNat_headerWord hs, toNat_ofInt_size hs]
  cases used <;> simp <;> omega

theorem blockIsInUse_of_word (hs : IsSize s) (h : load32 m b = headerWord s used) :
    blockIsInUse m b = inUseFlag used := by
  apply BitVec.eq_of_toNat_eq
  have h8 := hs.1
  have h4 := hs.2.2
  rw [blockIsInUse, h, BitVec.and_comm, BitVec.toNat_and, toNat_headerWord hs]
  cases used <;> simp [inUseFlag] <;> omega

/-! ## Blocks in memory -/

/-- The block's size is legal and both its words are in memory. -/
structure Stored (m : Mem) (x : Block ℤ) : Prop where
  isSize : IsSize (x.hi - x.lo)
  header : load32 m x.lo = headerWord (x.hi - x.lo) x.used
  trailer : load32 m (x.hi - 4) = headerWord (x.hi - x.lo) x.used

variable {x y : Block ℤ}

theorem ofSize_HEADER_SIZE : ofSize HEADER_SIZE = 4 := rfl

theorem Stored.getBlockSize (h : Stored m x) : getBlockSize m x.lo = BitVec.ofInt 32 (x.hi - x.lo) :=
  getBlockSize_of_word h.isSize h.header

theorem Stored.toInt_getBlockSize (h : Stored m x) : (Malloc.getBlockSize m x.lo).toInt = x.hi - x.lo := by
  rw [h.getBlockSize, toInt_ofInt_size h.isSize]

theorem Stored.getNextBlock (h : Stored m x) : getNextBlock m x.lo = x.hi := by
  rw [Malloc.getNextBlock, h.toInt_getBlockSize]
  omega

theorem Stored.getPreviousBlock (h : Stored m x) : getPreviousBlock m x.hi = x.lo := by
  rw [Malloc.getPreviousBlock, ofSize_HEADER_SIZE, getBlockSize_of_word h.isSize h.trailer,
    toInt_ofInt_size h.isSize]
  omega

theorem Stored.blockIsInUse (h : Stored m x) : blockIsInUse m x.lo = inUseFlag x.used :=
  blockIsInUse_of_word h.isSize h.header

/-- The test the source makes for a free block. -/
theorem Stored.free_iff (h : Stored m x) : (Malloc.blockIsInUse m x.lo == 0) = !x.used := by
  rw [h.blockIsInUse]
  cases x.used <;> rfl

theorem Stored.congr (h : Stored m x) (hm : ∀ a, x.lo ≤ a → a < x.hi → m' a = m a) :
    Stored m' x := by
  have h8 := h.isSize.1
  refine ⟨h.isSize, ?_, ?_⟩
  · rw [← h.header]
    exact load32_congr fun a h1 h2 => hm a h1 (by omega)
  · rw [← h.trailer]
    exact load32_congr fun a h1 h2 => hm a (by omega) (by omega)

theorem setBlockHeader_apply {s : ℤ} (hs : IsSize s) {a : ℤ} (h1 : a < b ∨ b + 4 ≤ a)
    (h2 : a < b + s - 4 ∨ b + s ≤ a) (flag : BitVec 32) :
    setBlockHeader m b (BitVec.ofInt 32 s) flag a = m a := by
  rw [setBlockHeader, toInt_ofInt_size hs, ofSize_HEADER_SIZE,
    store32_apply_of_notMem _ (by omega), store32_apply_of_notMem _ (by omega)]

theorem setBlockHeader_outside {s : ℤ} (hs : IsSize s) {a : ℤ} (h : a < b ∨ b + s ≤ a)
    (flag : BitVec 32) : setBlockHeader m b (BitVec.ofInt 32 s) flag a = m a := by
  have := hs.1
  exact setBlockHeader_apply hs (by omega) (by omega) flag

/-- **`set_block_header` stores the block it is given.** -/
theorem stored_setBlockHeader (m : Mem) (hx : IsSize (x.hi - x.lo)) :
    Stored (setBlockHeader m x.lo (BitVec.ofInt 32 (x.hi - x.lo)) (inUseFlag x.used)) x := by
  have h8 := hx.1
  have htr : x.lo + (BitVec.ofInt 32 (x.hi - x.lo)).toInt - ofSize HEADER_SIZE = x.hi - 4 := by
    rw [toInt_ofInt_size hx, ofSize_HEADER_SIZE]
    omega
  refine ⟨hx, ?_, ?_⟩
  · rw [setBlockHeader, htr, load32_store32_of_disjoint _ (by omega), load32_store32_self]
    rfl
  · rw [setBlockHeader, htr, load32_store32_self]
    rfl

end IntroSystems.Malloc
