import IntroSystems.SM213.Image

/-!
# Memory as words

Programs for the Simple Machine use words at addresses that are multiples of 4.

* `addr k`: the address of the word `k`. `word mem k`: what it holds.
* **`load_addr`**, **`store_addr`**: `load` and `store` read and write these words.
-/

set_option autoImplicit false

namespace IntroSystems.SM213

/-- The address of the word `k`. -/
def addr (k : ℕ) : BitVec 32 := BitVec.ofNat 32 (4 * k)

variable {n : ℕ}

/-- The word `k`. Outside the array it is `0`. -/
def word (mem : Memory n) (k : ℕ) : BitVec 32 :=
  if h : 4 * k + 3 < n then
    mem ⟨4 * k, by omega⟩ ++ mem ⟨4 * k + 1, by omega⟩ ++ mem ⟨4 * k + 2, by omega⟩ ++
      mem ⟨4 * k + 3, h⟩
  else 0

/-- The bytes of a word, the most significant one first. -/
def byteOf (v : BitVec 32) (i : ℕ) : BitVec 8 := v.extractLsb' (8 * (3 - i)) 8

/-- Overwrite the word `k`. -/
def putWord (mem : Memory n) (k : ℕ) (v : BitVec 32) : Memory n := fun i =>
  if (i : ℕ) / 4 = k then byteOf v (i % 4) else mem i

variable {mem : Memory n} {k j : ℕ} {v : BitVec 32}

theorem addr_add (k j : ℕ) : addr k + addr j = addr (k + j) := by
  unfold addr
  rw [← BitVec.ofNat_add, Nat.mul_add]

/-! ## Bytes -/

theorem Memory.get_ofNat (hn : n ≤ 2 ^ 31) {a : ℕ} (ha : a < n) :
    mem.get (BitVec.ofNat 32 a) = some (mem ⟨a, ha⟩) := by
  have hint : (BitVec.ofNat 32 a).toInt = a := Counter.toInt_ofNat (by omega)
  rw [Memory.get, dif_pos (by omega)]
  congr 2
  exact Fin.ext (by simp [hint])

theorem Memory.set_ofNat (hn : n ≤ 2 ^ 31) {a : ℕ} (ha : a < n) (b : BitVec 8) :
    mem.set (BitVec.ofNat 32 a) b = some (Function.update mem ⟨a, ha⟩ b) := by
  have hint : (BitVec.ofNat 32 a).toInt = a := Counter.toInt_ofNat (by omega)
  rw [Memory.set, dif_pos (by omega)]
  congr 2
  exact Fin.ext (by simp [hint])

theorem append_eq_or (b0 b1 b2 b3 : BitVec 8) :
    b0.setWidth 32 <<< 24 ||| b1.setWidth 32 <<< 16 ||| b2.setWidth 32 <<< 8 ||| b3.setWidth 32 =
      b0 ++ b1 ++ b2 ++ b3 := by
  apply BitVec.eq_of_getLsbD_eq
  intro i hi
  simp only [BitVec.getLsbD_or, BitVec.getLsbD_shiftLeft, BitVec.getLsbD_setWidth,
    BitVec.getLsbD_append]
  have hfar : ∀ (b : BitVec 8) (j : ℕ), 8 ≤ j → b.getLsbD j = false := fun b j h =>
    BitVec.getLsbD_of_ge b j h
  rcases (by omega : i < 8 ∨ (8 ≤ i ∧ i < 16) ∨ (16 ≤ i ∧ i < 24) ∨ 24 ≤ i) with
    h | ⟨h1, h2⟩ | ⟨h1, h2⟩ | h
  · simp [h, hi, show i < 16 by omega, show i < 24 by omega]
  · simp [hi, h2, hfar b3 i h1, show ¬i < 8 by omega, show i - 8 < 8 by omega,
      show i < 24 by omega, show i - 8 < 32 by omega]
  · simp [hi, h2, hfar b3 i (by omega), hfar b2 (i - 8) (by omega), show ¬i < 8 by omega,
      show ¬i < 16 by omega, show ¬i - 8 < 8 by omega, show i - 8 - 8 = i - 16 by omega,
      show i - 16 < 8 by omega, show i - 16 < 32 by omega]
  · simp [hi, hfar b3 i (by omega), hfar b2 (i - 8) (by omega), hfar b1 (i - 16) (by omega),
      show ¬i < 24 by omega, show ¬i < 8 by omega, show ¬i < 16 by omega, show ¬i - 8 < 8 by omega,
      show i - 8 - 8 - 8 = i - 24 by omega, show ¬i - 8 - 8 < 8 by omega, show i - 24 < 32 by omega]

theorem sshiftRight_and_ff (v : BitVec 32) {s : ℕ} (h : s ≤ 24) :
    (v.sshiftRight s &&& 0xff).setWidth 8 = v.extractLsb' s 8 := by
  apply BitVec.eq_of_getLsbD_eq
  intro i hi
  have hff : (0xff : BitVec 32) = (BitVec.allOnes 8).setWidth 32 := by decide
  simp only [BitVec.getLsbD_setWidth, BitVec.getLsbD_and, BitVec.getLsbD_sshiftRight,
    BitVec.getLsbD_extractLsb', hff, BitVec.getLsbD_allOnes]
  simp [hi, show i < 32 by omega, show s + i < 32 by omega]

theorem append_byteOf (v : BitVec 32) :
    byteOf v 0 ++ byteOf v 1 ++ byteOf v 2 ++ byteOf v 3 = v := by
  apply BitVec.eq_of_getLsbD_eq
  intro i hi
  unfold byteOf
  simp only [BitVec.getLsbD_append, BitVec.getLsbD_extractLsb']
  split_ifs with h1 h2 h3
  · simp [h1]
  · simp [h2, show 8 + (i - 8) = i by omega]
  · simp [h3, show 16 + (i - 8 - 8) = i by omega]
  · simp [show i - 8 - 8 - 8 < 8 by omega, show 24 + (i - 8 - 8 - 8) = i by omega]

/-! ## Words -/

theorem addr_add_ofNat (k i : ℕ) : addr k + BitVec.ofNat 32 i = BitVec.ofNat 32 (4 * k + i) :=
  (BitVec.ofNat_add _ _).symm

/-- **`load` at the address of a word.** -/
theorem load_addr (hn : n ≤ 2 ^ 31) (hk : 4 * k + 3 < n) :
    load mem (addr k) = some (word mem k) := by
  have hget : ∀ i, (hi : i < 4) → mem.get (addr k + BitVec.ofNat 32 i) =
      some (mem ⟨4 * k + i, by omega⟩) := fun i hi => by
    rw [addr_add_ofNat]
    exact Memory.get_ofNat hn _
  have h0 : mem.get (addr k) = some (mem ⟨4 * k, by omega⟩) := Memory.get_ofNat hn _
  have h1 : mem.get (addr k + 1) = _ := hget 1 (by decide)
  have h2 : mem.get (addr k + 2) = _ := hget 2 (by decide)
  have h3 : mem.get (addr k + 3) = _ := hget 3 (by decide)
  unfold load word
  rw [dif_pos hk, ← append_eq_or]
  simp only [h0, h1, h2, h3, Option.bind_eq_bind, Option.bind_some]

theorem putWord_eq (hk : 4 * k + 3 < n) (v : BitVec 32) :
    putWord mem k v =
      Function.update (Function.update (Function.update (Function.update mem
        ⟨4 * k, by omega⟩ (byteOf v 0)) ⟨4 * k + 1, by omega⟩ (byteOf v 1))
        ⟨4 * k + 2, by omega⟩ (byteOf v 2)) ⟨4 * k + 3, hk⟩ (byteOf v 3) := by
  funext ⟨x, hx⟩
  unfold putWord
  simp only [Function.update_apply, Fin.mk.injEq]
  split_ifs with h h3 h2 h1 h0
  all_goals first
    | (exfalso; omega)
    | rfl
    | (congr 1; omega)

/-- **`store` at the address of a word.** -/
theorem store_addr (hn : n ≤ 2 ^ 31) (hk : 4 * k + 3 < n) (v : BitVec 32) :
    store mem (addr k) v = some (putWord mem k v) := by
  have hset : ∀ (mem : Memory n) i (hi : i < 4) (b : BitVec 8),
      mem.set (addr k + BitVec.ofNat 32 i) b =
        some (Function.update mem ⟨4 * k + i, by omega⟩ b) := fun mem i hi b => by
    rw [addr_add_ofNat]
    exact Memory.set_ofNat hn _ b
  have h0 : ∀ (mem : Memory n) b, mem.set (addr k) b = _ := fun mem b =>
    Memory.set_ofNat hn (show 4 * k < n by omega) b
  have h1 : ∀ (mem : Memory n) b, mem.set (addr k + 1) b = _ := fun mem => hset mem 1 (by decide)
  have h2 : ∀ (mem : Memory n) b, mem.set (addr k + 2) b = _ := fun mem => hset mem 2 (by decide)
  have h3 : ∀ (mem : Memory n) b, mem.set (addr k + 3) b = _ := fun mem => hset mem 3 (by decide)
  have hlast : (v &&& 0xff).setWidth 8 = byteOf v 3 := by
    have := sshiftRight_and_ff v (Nat.zero_le 24)
    rwa [BitVec.sshiftRight_zero] at this
  rw [putWord_eq hk]
  unfold store
  simp only [h0, h1, h2, h3, Option.bind_eq_bind, Option.bind_some, hlast,
    sshiftRight_and_ff v (le_refl 24), sshiftRight_and_ff v (show 16 ≤ 24 by decide),
    sshiftRight_and_ff v (show 8 ≤ 24 by decide)]
  rfl

theorem putWord_apply_self {i : ℕ} (hi : i < 4) (h : 4 * k + i < n) (v : BitVec 32) :
    putWord mem k v ⟨4 * k + i, h⟩ = byteOf v i := by
  unfold putWord
  rw [if_pos (by dsimp only; omega)]
  congr 1
  dsimp only
  omega

theorem putWord_apply_of_ne {x : Fin n} (h : (x : ℕ) / 4 ≠ k) (v : BitVec 32) :
    putWord mem k v x = mem x := if_neg h

/-- **A store changes one word.** -/
theorem word_putWord (hk : 4 * k + 3 < n) (v : BitVec 32) :
    word (putWord mem k v) = Function.update (word mem) k v := by
  funext j
  unfold word
  by_cases hj : j = k
  · subst hj
    have h0 : putWord mem j v ⟨4 * j, by omega⟩ = byteOf v 0 :=
      putWord_apply_self (show 0 < 4 by decide) _ v
    rw [Function.update_self, dif_pos hk, h0, putWord_apply_self (show 1 < 4 by decide),
      putWord_apply_self (show 2 < 4 by decide), putWord_apply_self (show 3 < 4 by decide),
      append_byteOf]
  · rw [Function.update_of_ne hj]
    split
    case isTrue h =>
      rw [putWord_apply_of_ne (by dsimp only; omega), putWord_apply_of_ne (by dsimp only; omega),
        putWord_apply_of_ne (by dsimp only; omega), putWord_apply_of_ne (by dsimp only; omega)]
    case isFalse => rfl

theorem get_putWord {a : ℕ} (hn : n ≤ 2 ^ 31) (ha : a < n) (h : a / 4 ≠ k) (v : BitVec 32) :
    (putWord mem k v).get (BitVec.ofNat 32 a) = mem.get (BitVec.ofNat 32 a) := by
  rw [Memory.get_ofNat hn ha, Memory.get_ofNat hn ha, putWord_apply_of_ne h]

end IntroSystems.SM213
