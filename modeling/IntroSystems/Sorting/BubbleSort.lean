import IntroSystems.Lib.ExchangeSort
import IntroSystems.Lib.Loop
import Mathlib.Data.BitVec
import Mathlib.Order.OrderDual

/-!
# Bubble sort

`sort` of `bubble_sort_static.c`, `bubble_sort_dynamic.c` and `bubble_sort_awesome.c`. They differ in
what `val` is and in how its elements are accessed.

* `sort`: the loops; `indexed` and `pointed`: `val[i]` of an array and `*(val + i)` in memory.
* `Sees`: the array from its far end. `Sees.exchange`, `Sees.inner`, `Sees.sort`: seen from there, and
  with the larger entries first, the loops are those of an exchange sort.
* `Simulates.sort`: the accesses are all that makes a difference.
* **`bubble_sorts`**: all three sort, within bounds, and do the same.
-/

set_option autoImplicit false

namespace IntroSystems.BubbleSort

/-! ## The code -/

/-- Reading and writing `val[i]` in `M`; `none` is outside of the array. -/
structure Access (M : Type) where
  read : M → ℤ → Option (BitVec 32)
  write : M → ℤ → BitVec 32 → Option M

/-- Where `val` is, and which of its elements have been accessed. -/
structure State (M : Type) where
  mem : M
  accessed : List ℤ

variable {M : Type}

def read (acc : Access M) (s : State M) (i : ℤ) : Option (BitVec 32 × State M) :=
  (acc.read s.mem i).map fun v => (v, { s with accessed := s.accessed ++ [i] })

def write (acc : Access M) (s : State M) (i : ℤ) (v : BitVec 32) : Option (State M) :=
  (acc.write s.mem i v).map fun mem => { mem, accessed := s.accessed ++ [i] }

/-- The body of the inner loop. -/
def exchange (acc : Access M) (i j : ℤ) (s : State M) : Option (State M) := do
  let (vi, s) ← read acc s i
  let (vj, s) ← read acc s j
  if vi.toInt < vj.toInt then
    let (t, s) ← read acc s i
    let (vj, s) ← read acc s j
    let s ← write acc s i vj
    write acc s j t
  else some s

/-- `for (int j=i-1; j>=0; j--)`. -/
def inner (acc : Access M) (i : ℤ) (s : State M) : Option (State M) :=
  Loop.down (exchange acc i) (i - 1) i.toNat s

/-- `for (int i=n-1; i>0; i--)`. -/
def sort (acc : Access M) (n : ℤ) (s : State M) : Option (State M) :=
  Loop.down (inner acc) (n - 1) (n - 1).toNat s

/-- `val[i]`. -/
def indexed : Access (List (BitVec 32)) where
  read val i := if 0 ≤ i then val[i.toNat]? else none
  write val i v := if 0 ≤ i ∧ i < val.length then some (val.set i.toNat v) else none

/-- The `int`s in memory, by their addresses. -/
abbrev Memory := ℤ → Option (BitVec 32)

/-- `*(val + i)`. An `int` has four bytes. -/
def pointed (val : ℤ) : Access Memory where
  read m i := m (val + 4 * i)
  write m i v := (m (val + 4 * i)).map fun _ => Function.update m (val + 4 * i) (some v)

/-- `sort` of `bubble_sort_dynamic.c`. -/
def sortDynamic (n : ℤ) (val : List (BitVec 32)) : Option (State (List (BitVec 32))) :=
  sort indexed n ⟨val, []⟩

/-- `sort` of `bubble_sort_static.c`. -/
def sortStatic (n : ℤ) (val : List (BitVec 32)) : Option (State (List (BitVec 32))) :=
  sort indexed n ⟨val, []⟩

/-- `sort` of `bubble_sort_awesome.c`. -/
def sortAwesome (n val : ℤ) (m : Memory) : Option (State Memory) := sort (pointed val) n ⟨m, []⟩

/-! ## The array from its far end -/

/-- Places below `n`, counted from the far end. -/
def flip (n k : ℕ) : ℕ := if k < n then n - 1 - k else k

/-- The larger entries come first. -/
def key (v : BitVec 32) : OrderDual ℤ := OrderDual.toDual v.toInt

variable {n i j k len : ℕ} {b : ℕ → BitVec 32} {val : List (BitVec 32)}
  {s : State (List (BitVec 32))}

theorem key_lt_key {v w : BitVec 32} : key v < key w ↔ w.toInt < v.toInt :=
  OrderDual.toDual_lt_toDual

theorem flip_of_lt (hk : k < n) : flip n k = n - 1 - k := if_pos hk

theorem flip_of_le (hk : n ≤ k) : flip n k = k := if_neg (Nat.not_lt.mpr hk)

theorem flip_flip (n k : ℕ) : flip n (flip n k) = k := by
  unfold flip
  split_ifs <;> omega

theorem flip_ne (h : i ≠ j) : flip n i ≠ flip n j := fun e => h (by rw [← flip_flip n i, e, flip_flip])

/-- The array has the entries `b`, the first `n` of them from the far end, and no others than these
have been accessed. -/
structure Sees (n len : ℕ) (s : State (List (BitVec 32))) (b : ℕ → BitVec 32) : Prop where
  le : n ≤ len
  length : s.mem.length = len
  entry : ∀ k < len, s.mem[k]? = some (b (flip n k))
  within : ∀ i ∈ s.accessed, 0 ≤ i ∧ i < n

theorem sees_start (hn : n ≤ val.length) :
    Sees n val.length ⟨val, []⟩ fun k => val.getD (flip n k) 0 where
  le := hn
  length := rfl
  entry := fun k hk => by
    rw [flip_flip, List.getD_eq_getElem?_getD, List.getElem?_eq_getElem hk]
    rfl
  within := fun i hi => absurd hi List.not_mem_nil

theorem within_append {log : List ℤ} (h : ∀ i ∈ log, 0 ≤ i ∧ i < (n : ℤ)) (hi : i < n) :
    ∀ x ∈ log ++ [(i : ℤ)], 0 ≤ x ∧ x < (n : ℤ) := by
  intro x hx
  rcases List.mem_append.mp hx with hx | hx
  · exact h x hx
  · rw [List.mem_singleton.mp hx]
    omega

theorem Sees.read (h : Sees n len s b) (hi : i < n) :
    ∃ s', read indexed s i = some (b (flip n i), s') ∧ Sees n len s' b := by
  have hlen : i < len := Nat.lt_of_lt_of_le hi h.le
  refine ⟨⟨s.mem, s.accessed ++ [(i : ℤ)]⟩, ?_, h.le, h.length, h.entry, within_append h.within hi⟩
  have hget : indexed.read s.mem i = some (b (flip n i)) := by
    dsimp only [indexed]
    rw [if_pos (Int.natCast_nonneg i), Int.toNat_natCast, h.entry i hlen]
  rw [BubbleSort.read, hget]
  rfl

theorem Sees.write (h : Sees n len s b) (hi : i < n) (v : BitVec 32) :
    ∃ s', write indexed s i v = some s' ∧ Sees n len s' (Function.update b (flip n i) v) := by
  have hlen : i < s.mem.length := by
    rw [h.length]
    exact Nat.lt_of_lt_of_le hi h.le
  refine ⟨⟨s.mem.set i v, s.accessed ++ [(i : ℤ)]⟩, ?_, h.le, ?_, fun k hk => ?_,
    within_append h.within hi⟩
  · have hset : indexed.write s.mem i v = some (s.mem.set i v) := if_pos (by omega)
    rw [BubbleSort.write, hset]
    rfl
  · rw [List.length_set, h.length]
  · by_cases hki : k = i
    · rw [hki, List.getElem?_set_self hlen, Function.update_self]
    · rw [List.getElem?_set_ne (Ne.symm hki), h.entry k hk, Function.update_of_ne (flip_ne hki)]

/-- **One comparison**, from the far end. -/
theorem Sees.exchange (h : Sees n len s b) (hi : i < n) (hj : j < n) :
    ∃ s', exchange indexed i j s = some s' ∧
      Sees n len s' (ExchangeSort.exchange key b (flip n i) (flip n j)) := by
  obtain ⟨s₁, hs₁, h₁⟩ := h.read hi
  obtain ⟨s₂, hs₂, h₂⟩ := h₁.read hj
  unfold BubbleSort.exchange ExchangeSort.exchange
  rw [hs₁, Option.bind_eq_bind, Option.bind_some]
  dsimp only
  rw [hs₂, Option.bind_eq_bind, Option.bind_some]
  dsimp only
  by_cases hlt : (b (flip n i)).toInt < (b (flip n j)).toInt
  · obtain ⟨s₃, hs₃, h₃⟩ := h₂.read hi
    obtain ⟨s₄, hs₄, h₄⟩ := h₃.read hj
    obtain ⟨s₅, hs₅, h₅⟩ := h₄.write hi (b (flip n j))
    obtain ⟨s₆, hs₆, h₆⟩ := h₅.write hj (b (flip n i))
    rw [if_pos hlt, if_pos (key_lt_key.mpr hlt), Equiv.swap_comm,
      Equiv.comp_swap_eq_update]
    refine ⟨s₆, ?_, h₆⟩
    simp only [hs₃, Option.bind_some, hs₄, hs₅, hs₆]
  · rw [if_neg hlt, if_neg fun hlt' => hlt (key_lt_key.mp hlt')]
    exact ⟨s₂, rfl, h₂⟩

/-! ## The loops -/

/-- **The inner loop** puts the largest of the first entries at `i`. -/
theorem Sees.inner (h : Sees n len s b) (hi : i < n) :
    ∃ s', inner indexed i s = some s' ∧
      Sees n len s' (ExchangeSort.inner key (flip n i) i (flip n i + 1) b) := by
  have hloop := Loop.down_spec (BubbleSort.exchange indexed i) (a := i - 1) (k := i)
    (fun t s => ∃ b', Sees n len s b' ∧
      ExchangeSort.inner key (flip n i) (i - t) (flip n i + 1 + t) b' =
        ExchangeSort.inner key (flip n i) i (flip n i + 1) b) ?_ ⟨b, h, rfl⟩
  · obtain ⟨s', hs, b', hb', heq⟩ := hloop
    rw [Nat.sub_self] at heq
    refine ⟨s', hs, ?_⟩
    rw [← heq]
    exact hb'
  · rintro t ht s ⟨b', hb', heq⟩
    have hj : (i : ℤ) - 1 - t = (i - 1 - t : ℕ) := by omega
    have hflip : flip n (i - 1 - t) = flip n i + 1 + t := by
      rw [flip_of_lt hi, flip_of_lt (by omega)]
      omega
    obtain ⟨s', hs, h'⟩ := hb'.exchange hi (j := i - 1 - t) (by omega)
    rw [hj]
    refine ⟨s', hs, _, h', ?_⟩
    rw [← heq, hflip, show i - t = i - (t + 1) + 1 by omega, ExchangeSort.inner]
    rfl

/-- **The outer loop** is an exchange sort. -/
theorem Sees.sort (h : Sees n len s b) :
    ∃ s', sort indexed n s = some s' ∧ Sees n len s' (ExchangeSort.exchangeSort key n b) := by
  have hloop := Loop.down_spec (BubbleSort.inner indexed) (a := n - 1) (k := n - 1)
    (fun t s => ∃ b', Sees n len s b' ∧
      ExchangeSort.outer key (n - t) t b' = ExchangeSort.exchangeSort key n b) ?_ ⟨b, h, rfl⟩
  · obtain ⟨s', hs, b', hb', heq⟩ := hloop
    refine ⟨s', ?_, ?_⟩
    · rw [← hs]
      exact congrArg (fun k => Loop.down (BubbleSort.inner indexed) (n - 1) k s) (by omega)
    · -- the last turn would find nothing to compare
      rw [← heq]
      rcases Nat.eq_zero_or_pos n with hn | hn
      · rw [hn] at hb' ⊢
        exact hb'
      · rw [show n - (n - 1) = 1 by omega]
        exact hb'
  · rintro t ht s ⟨b', hb', heq⟩
    have hi : (n : ℤ) - 1 - t = (n - 1 - t : ℕ) := by omega
    have hflip : flip n (n - 1 - t) = t := by
      rw [flip_of_lt (by omega)]
      omega
    obtain ⟨s', hs, h'⟩ := hb'.inner (i := n - 1 - t) (by omega)
    rw [hi]
    refine ⟨s', hs, _, h', ?_⟩
    rw [← heq, hflip, show n - t = n - (t + 1) + 1 by omega, ExchangeSort.outer]
    congr 2
    omega

/-! ## What the loops make of the array -/

/-- The first `n` elements have been sorted, and nothing else has been touched. -/
structure Sorts (n : ℕ) (val : List (BitVec 32)) (s : State (List (BitVec 32))) : Prop where
  sorted : (s.mem.take n).Pairwise fun v w => v.toInt ≤ w.toInt
  perm : (s.mem.take n).Perm (val.take n)
  rest : s.mem.drop n = val.drop n
  within : ∀ i ∈ s.accessed, 0 ≤ i ∧ i < n

theorem Sees.take (h : Sees n len s b) : s.mem.take n = ((List.range n).map b).reverse := by
  have hn := h.le
  refine List.ext_getElem (by simp [h.length, hn]) fun k hk _ => ?_
  have hkn : k < n := by
    rw [List.length_take] at hk
    omega
  have hentry := h.entry k (by omega)
  rw [List.getElem_take, List.getElem_reverse, List.getElem_map, List.getElem_range]
  rw [flip_of_lt hkn] at hentry
  simp only [List.length_map, List.length_range]
  exact (List.getElem_eq_iff _).mpr hentry

theorem Sees.drop_eq {s' : State (List (BitVec 32))} {b' : ℕ → BitVec 32} (h : Sees n len s b)
    (h' : Sees n len s' b') (hb : ∀ k, n ≤ k → b' k = b k) : s'.mem.drop n = s.mem.drop n := by
  refine List.ext_getElem? fun k => ?_
  rw [List.getElem?_drop, List.getElem?_drop]
  by_cases hk : n + k < len
  · rw [h.entry _ hk, h'.entry _ hk, flip_of_le (Nat.le_add_right n k),
      hb _ (Nat.le_add_right n k)]
  · rw [List.getElem?_eq_none (by rw [h'.length]; omega),
      List.getElem?_eq_none (by rw [h.length]; omega)]

/-- **`sort` sorts.** -/
theorem sort_indexed (hn : n ≤ val.length) :
    ∃ s, sort indexed n ⟨val, []⟩ = some s ∧ Sorts n val s := by
  obtain ⟨s, hs, h⟩ := (sees_start hn).sort
  have hmoved := ExchangeSort.exchangeSort_rearranges key n fun k => val.getD (flip n k) 0
  refine ⟨s, hs, ?_, ?_, ?_, h.within⟩
  · rw [h.take, List.pairwise_reverse]
    exact (ExchangeSort.exchangeSort_sorted key n _).imp OrderDual.toDual_le_toDual.mp
  · rw [h.take, show val.take n = _ from (sees_start hn).take]
    exact (List.reverse_perm _).trans (hmoved.perm.trans (List.reverse_perm _).symm)
  · refine (sees_start hn).drop_eq h fun k hk => ?_
    exact hmoved.eq_of_not (by omega)

/-! ## The accesses make the difference -/

section Simulate

variable {N : Type} {acc : Access M} {acc' : Access N} {R : State M → State N → Prop}
  {t : State M} {u : State N}

/-- One access after another does the same to related states. -/
structure Simulates (acc : Access M) (acc' : Access N) (R : State M → State N → Prop) : Prop where
  read : ∀ {t u t' i v}, R t u → read acc t i = some (v, t') →
    ∃ u', read acc' u i = some (v, u') ∧ R t' u'
  write : ∀ {t u t' i v}, R t u → write acc t i v = some t' →
    ∃ u', write acc' u i v = some u' ∧ R t' u'

theorem Simulates.exchange (h : Simulates acc acc' R) (i j : ℤ) (t t' : State M) (u : State N)
    (hR : R t u) (ht : exchange acc i j t = some t') :
    ∃ u', exchange acc' i j u = some u' ∧ R t' u' := by
  obtain ⟨⟨vi, t₁⟩, ht₁, ht⟩ := Option.bind_eq_some_iff.mp ht
  obtain ⟨⟨vj, t₂⟩, ht₂, ht⟩ := Option.bind_eq_some_iff.mp ht
  obtain ⟨u₁, hu₁, hR₁⟩ := h.read hR ht₁
  obtain ⟨u₂, hu₂, hR₂⟩ := h.read hR₁ ht₂
  unfold BubbleSort.exchange
  simp only [Option.bind_eq_bind, hu₁, Option.bind_some, hu₂]
  dsimp only at ht
  split at ht
  · obtain ⟨⟨v, t₃⟩, ht₃, ht⟩ := Option.bind_eq_some_iff.mp ht
    obtain ⟨⟨w, t₄⟩, ht₄, ht⟩ := Option.bind_eq_some_iff.mp ht
    obtain ⟨t₅, ht₅, ht₆⟩ := Option.bind_eq_some_iff.mp ht
    obtain ⟨u₃, hu₃, hR₃⟩ := h.read hR₂ ht₃
    obtain ⟨u₄, hu₄, hR₄⟩ := h.read hR₃ ht₄
    obtain ⟨u₅, hu₅, hR₅⟩ := h.write hR₄ ht₅
    obtain ⟨u₆, hu₆, hR₆⟩ := h.write hR₅ ht₆
    refine ⟨u₆, ?_, hR₆⟩
    rw [if_pos ‹_›]
    simp only [hu₃, Option.bind_some, hu₄, hu₅, hu₆]
  · cases ht
    exact ⟨u₂, if_neg ‹_›, hR₂⟩

/-- **The same loops** over other accesses. -/
theorem Simulates.sort (h : Simulates acc acc' R) {n : ℤ} {t' : State M} (hR : R t u)
    (ht : sort acc n t = some t') : ∃ u', sort acc' n u = some u' ∧ R t' u' := by
  have hinner : ∀ i t t' u, R t u → inner acc i t = some t' →
      ∃ u', inner acc' i u = some u' ∧ R t' u' := fun i t t' u =>
    Loop.down_simulate (h.exchange i)
  exact Loop.down_simulate hinner hR ht

end Simulate

/-- The array `val` is in memory at `base`. -/
def PointsTo (m : Memory) (base : ℤ) (val : List (BitVec 32)) : Prop :=
  ∀ (k : ℕ) v, val[k]? = some v → m (base + 4 * k) = some v

/-- The array is in memory at `base`, where all else is as it was in `m`. -/
structure Same (m : Memory) (base : ℤ) (len : ℕ) (t : State (List (BitVec 32)))
    (u : State Memory) : Prop where
  length : t.mem.length = len
  points : PointsTo u.mem base t.mem
  frame : ∀ p, (∀ k < len, p ≠ base + 4 * (k : ℕ)) → u.mem p = m p
  accessed : u.accessed = t.accessed

theorem simulates_pointed (m : Memory) (base : ℤ) (len : ℕ) :
    Simulates indexed (pointed base) (Same m base len) where
  read := by
    intro t u t' i v hR ht
    obtain ⟨w, hw, heq⟩ := Option.map_eq_some_iff.mp ht
    cases heq
    dsimp only [indexed] at hw
    by_cases hi : 0 ≤ i
    · obtain ⟨k, rfl⟩ := Int.eq_ofNat_of_zero_le hi
      rw [if_pos hi, Int.toNat_natCast] at hw
      refine ⟨⟨u.mem, u.accessed ++ [(k : ℤ)]⟩, ?_, hR.length, hR.points, hR.frame,
        congrArg (· ++ [(k : ℤ)]) hR.accessed⟩
      have hget : (pointed base).read u.mem k = some v := hR.points k v hw
      rw [BubbleSort.read, hget]
      rfl
    · rw [if_neg hi] at hw
      cases hw
  write := by
    intro t u t' i v hR ht
    obtain ⟨val', hval, rfl⟩ := Option.map_eq_some_iff.mp ht
    dsimp only [indexed] at hval
    by_cases hi : 0 ≤ i ∧ i < t.mem.length
    · obtain ⟨k, rfl⟩ := Int.eq_ofNat_of_zero_le hi.1
      rw [if_pos hi, Int.toNat_natCast] at hval
      cases hval
      have hk : k < t.mem.length := by omega
      have hget := hR.points k _ (List.getElem?_eq_getElem hk)
      refine ⟨⟨Function.update u.mem (base + 4 * k) (some v), u.accessed ++ [(k : ℤ)]⟩, ?_, ?_,
        fun l w hl => ?_, fun p hp => ?_, congrArg (· ++ [(k : ℤ)]) hR.accessed⟩
      · have hset : (pointed base).write u.mem k v =
            some (Function.update u.mem (base + 4 * k) (some v)) := by
          dsimp only [pointed]
          rw [hget]
          rfl
        rw [BubbleSort.write, hset]
        rfl
      · rw [List.length_set, hR.length]
      · dsimp only at hl ⊢
        by_cases hlk : l = k
        · rw [hlk, List.getElem?_set_self hk] at hl
          rw [hlk, Function.update_self, hl]
        · rw [List.getElem?_set_ne (Ne.symm hlk)] at hl
          rw [Function.update_of_ne (by omega), hR.points l w hl]
      · have hpk : p ≠ base + 4 * k := hp k (by rw [← hR.length]; exact hk)
        exact (Function.update_of_ne hpk _ _).trans (hR.frame p hp)
    · rw [if_neg hi] at hval
      cases hval

/-- **Bubble sort sorts.** The array versions sort what `malloc` has given for `n` elements, and up to
four elements of the static array; the pointer version leaves the same array in memory, after the
same accesses, wherever the array is and with all other memory as it was. -/
theorem bubble_sorts :
    (∀ val, ∃ s, sortDynamic val.length val = some s ∧ Sorts val.length val s ∧
      ∀ m base, PointsTo m base val → ∃ u, sortAwesome val.length base m = some u ∧
        Same m base val.length s u) ∧
    ∀ val (n : ℕ), val.length = 4 → n ≤ 4 →
      ∃ s, sortStatic n val = some s ∧ Sorts n val s := by
  constructor
  · intro val
    obtain ⟨s, hs, hsorts⟩ := sort_indexed (le_refl val.length)
    refine ⟨s, hs, hsorts, fun m base hm => ?_⟩
    exact (simulates_pointed m base val.length).sort ⟨rfl, hm, fun p _ => rfl, rfl⟩ hs
  · intro val n hlen hn
    exact sort_indexed (by omega)

/-- Two numbers, in an array and at the start of memory, and three of four. -/
theorem bubble_sorts_small :
    (∃ s, sortDynamic 2 [5, -3] = some s ∧ Sorts 2 [5, -3] s ∧
      ∃ u, sortAwesome 2 0 (fun p => if p = 0 then some 5 else if p = 4 then some (-3) else none) =
        some u ∧ PointsTo u.mem 0 s.mem) ∧
    ∃ s, sortStatic 3 [2, 9, 2, 0] = some s ∧ Sorts 3 [2, 9, 2, 0] s := by
  obtain ⟨s, hs, hsorts, hpointed⟩ := bubble_sorts.1 [5, -3]
  obtain ⟨u, hu, hsame⟩ := hpointed
    (fun p => if p = 0 then some 5 else if p = 4 then some (-3) else none) 0 fun k v hk => by
      match k, hk with
      | 0, hk => exact hk
      | 1, hk => exact hk
      | k + 2, hk => cases hk
  exact ⟨⟨s, hs, hsorts, u, hu, hsame.points⟩, bubble_sorts.2 [2, 9, 2, 0] 3 rfl (by decide)⟩

end IntroSystems.BubbleSort
