import Mathlib.Data.List.Nodup
import Mathlib.Data.List.Perm.Basic
import Mathlib.Data.Nat.Basic
import Mathlib.Logic.Equiv.Basic
import Mathlib.Order.Lattice

/-!
# Exchange sort

For each place `i` in turn, the entry there is compared with each later one, and exchanged with it
if that one is smaller.

* `exchange`, `inner`, `outer`, `exchangeSort`: the loops.
* `Rearranges`: the entries at some places have changed places. **`Rearranges.perm`**.
* `inner_min`: the entry at `i` is the smallest of the rest. **`exchangeSort_sorted`**,
  **`exchangeSort_rearranges`**.
-/

set_option autoImplicit false

namespace ExchangeSort

variable {α κ : Type*} [LinearOrder κ]

/-- The body of the inner loop. -/
def exchange (key : α → κ) (a : ℕ → α) (i j : ℕ) : ℕ → α :=
  if key (a j) < key (a i) then a ∘ Equiv.swap i j else a

/-- The inner loop at `j`, with `count` turns to go. -/
def inner (key : α → κ) (i : ℕ) : ℕ → ℕ → (ℕ → α) → ℕ → α
  | 0, _, a => a
  | count + 1, j, a => inner key i count (j + 1) (exchange key a i j)

/-- The outer loop at `i`, with `count` turns to go. -/
def outer (key : α → κ) : ℕ → ℕ → (ℕ → α) → ℕ → α
  | 0, _, a => a
  | count + 1, i, a => outer key count (i + 1) (inner key i count (i + 1) a)

/-- The first `n` entries, sorted. -/
def exchangeSort (key : α → κ) (n : ℕ) (a : ℕ → α) : ℕ → α := outer key n 0 a

/-! ## Permutations -/

/-- The entries from `i` to `n` have changed places. -/
def Rearranges (i n : ℕ) (a a' : ℕ → α) : Prop :=
  ∃ σ : Equiv.Perm ℕ, (∀ k, σ k ≠ k → i ≤ k ∧ k < n) ∧ a' = a ∘ σ

variable {key : α → κ} {a a' a'' : ℕ → α} {i j k n count : ℕ}

namespace Rearranges

theorem refl (a : ℕ → α) : Rearranges i n a a := ⟨Equiv.refl ℕ, fun _ h => absurd rfl h, rfl⟩

theorem trans (h : Rearranges i n a a') (h' : Rearranges i n a' a'') : Rearranges i n a a'' := by
  obtain ⟨σ, hσ, rfl⟩ := h
  obtain ⟨τ, hτ, rfl⟩ := h'
  refine ⟨τ.trans σ, fun k hk => ?_, rfl⟩
  by_cases hk' : τ k = k
  · rw [Equiv.trans_apply, hk'] at hk
    exact hσ k hk
  · exact hτ k hk'

theorem mono (h : Rearranges i n a a') (hj : j ≤ i) : Rearranges j n a a' := by
  obtain ⟨σ, hσ, rfl⟩ := h
  exact ⟨σ, fun k hk => ⟨le_trans hj (hσ k hk).1, (hσ k hk).2⟩, rfl⟩

theorem eq_or (h : Rearranges i n a a') (k : ℕ) :
    a' k = a k ∨ ∃ l, i ≤ l ∧ l < n ∧ a' k = a l := by
  obtain ⟨σ, hσ, rfl⟩ := h
  by_cases hk : σ k = k
  · exact .inl (congrArg a hk)
  · have hmove : σ (σ k) ≠ σ k := fun e => hk (σ.injective e)
    exact .inr ⟨σ k, (hσ _ hmove).1, (hσ _ hmove).2, rfl⟩

theorem eq_of_not (h : Rearranges i n a a') (hk : ¬(i ≤ k ∧ k < n)) : a' k = a k := by
  obtain ⟨σ, hσ, rfl⟩ := h
  exact congrArg a (not_not.mp fun e => hk (hσ k e))

theorem forall_lt (h : Rearranges i n a a') {P : α → Prop} (hP : ∀ k < n, P (a k)) :
    ∀ k < n, P (a' k) := by
  intro k hk
  rcases h.eq_or k with e | ⟨l, -, hl, e⟩
  · rw [e]
    exact hP k hk
  · rw [e]
    exact hP l hl

/-- **The entries are the same ones.** -/
theorem perm (h : Rearranges i n a a') : ((List.range n).map a').Perm ((List.range n).map a) := by
  obtain ⟨σ, hσ, rfl⟩ := h
  have hlt : ∀ k, k < n → σ k < n := fun k hk => by
    by_cases hk' : σ k = k
    · rwa [hk']
    · exact (hσ _ fun e => hk' (σ.injective e)).2
  have hrange : ((List.range n).map σ).Perm (List.range n) := by
    rw [List.perm_ext_iff_of_nodup (List.nodup_range.map σ.injective) List.nodup_range]
    intro k
    simp only [List.mem_map, List.mem_range]
    constructor
    · rintro ⟨l, hl, rfl⟩
      exact hlt l hl
    · intro hk
      refine ⟨σ.symm k, ?_, σ.apply_symm_apply k⟩
      by_cases hk' : σ k = k
      · rwa [← hk', σ.symm_apply_apply]
      · refine (hσ _ fun e => hk' ?_).2
        rw [σ.apply_symm_apply] at e
        exact (congrArg σ e).trans (σ.apply_symm_apply k)
  rw [← List.map_map]
  exact hrange.map a

end Rearranges

/-! ## The loops -/

theorem exchange_rearranges (hij : i < j) (hj : j < n) : Rearranges i n a (exchange key a i j) := by
  unfold exchange
  split
  · refine ⟨Equiv.swap i j, fun k hk => ?_, rfl⟩
    by_cases hki : k = i
    · omega
    · by_cases hkj : k = j
      · omega
      · exact absurd (Equiv.swap_apply_of_ne_of_ne hki hkj) hk
  · exact .refl a

theorem inner_rearranges (hij : i < j) (hn : j + count ≤ n) :
    Rearranges i n a (inner key i count j a) := by
  induction count generalizing j a with
  | zero => exact .refl a
  | succ count ih =>
    have hj : j < n := by omega
    exact (exchange_rearranges hij hj).trans (ih (by omega) (by omega))

theorem exchange_min (hij : i < j) (h : ∀ k, i ≤ k → k < j → key (a i) ≤ key (a k)) :
    ∀ k, i ≤ k → k < j + 1 → key (exchange key a i j i) ≤ key (exchange key a i j k) := by
  intro k hik hk
  unfold exchange
  split
  case isTrue hlt =>
    change key (a (Equiv.swap i j i)) ≤ key (a (Equiv.swap i j k))
    rw [Equiv.swap_apply_left]
    by_cases hki : k = i
    · rw [hki, Equiv.swap_apply_left]
    · by_cases hkj : k = j
      · rw [hkj, Equiv.swap_apply_right]
        exact le_of_lt hlt
      · rw [Equiv.swap_apply_of_ne_of_ne hki hkj]
        exact le_trans (le_of_lt hlt) (h k hik (by omega))
  case isFalse hge =>
    rcases Nat.lt_succ_iff_lt_or_eq.mp hk with hlt | rfl
    · exact h k hik hlt
    · exact not_lt.mp hge

theorem inner_min (hij : i < j) (h : ∀ k, i ≤ k → k < j → key (a i) ≤ key (a k)) :
    ∀ k, i ≤ k → k < j + count →
      key (inner key i count j a i) ≤ key (inner key i count j a k) := by
  induction count generalizing j a with
  | zero => exact h
  | succ count ih =>
    intro k hik hk
    exact ih (Nat.lt_succ_of_lt hij) (exchange_min hij h) k hik (by omega)

theorem outer_rearranges (hn : i + count = n) : Rearranges i n a (outer key count i a) := by
  induction count generalizing i a with
  | zero => exact .refl a
  | succ count ih =>
    have hinner : Rearranges i n a (inner key i count (i + 1) a) :=
      inner_rearranges (Nat.lt_succ_self i) (by omega)
    exact hinner.trans ((ih (by omega)).mono (Nat.le_succ i))

/-- The entries up to `i` are in their places. -/
def Placed (key : α → κ) (a : ℕ → α) (i n : ℕ) : Prop :=
  ∀ k < i, ∀ l, k ≤ l → l < n → key (a k) ≤ key (a l)

theorem inner_placed (hn : i + 1 + count = n) (h : Placed key a i n) :
    Placed key (inner key i count (i + 1) a) (i + 1) n := by
  have hr : Rearranges i n a (inner key i count (i + 1) a) :=
    inner_rearranges (Nat.lt_succ_self i) (le_of_eq hn)
  intro k hk l hkl hl
  rcases Nat.lt_succ_iff_lt_or_eq.mp hk with hki | rfl
  · rw [hr.eq_of_not (k := k) (by omega)]
    rcases hr.eq_or l with e | ⟨l', hil, hl', e⟩
    · rw [e]
      exact h k hki l hkl hl
    · rw [e]
      exact h k hki l' (by omega) hl'
  · refine inner_min (Nat.lt_succ_self k) (fun l h₁ h₂ => ?_) l hkl (by omega)
    obtain rfl : k = l := by omega
    exact le_refl _

theorem outer_placed (hn : i + count = n) (h : Placed key a i n) :
    Placed key (outer key count i a) n n := by
  induction count generalizing i a with
  | zero =>
    obtain rfl : i = n := hn
    exact h
  | succ count ih => exact ih (by omega) (inner_placed (by omega) h)

theorem exchangeSort_rearranges (key : α → κ) (n : ℕ) (a : ℕ → α) :
    Rearranges 0 n a (exchangeSort key n a) := outer_rearranges (Nat.zero_add n)

/-- **The result is sorted.** -/
theorem exchangeSort_sorted (key : α → κ) (n : ℕ) (a : ℕ → α) :
    ((List.range n).map (exchangeSort key n a)).Pairwise fun x y => key x ≤ key y := by
  have h : Placed key (exchangeSort key n a) n n :=
    outer_placed (Nat.zero_add n) fun k hk => absurd hk (Nat.not_lt_zero k)
  rw [List.pairwise_map]
  refine List.pairwise_lt_range.imp_of_mem fun {k l} hk hl hlt => ?_
  exact h k (List.mem_range.mp hk) l (le_of_lt hlt) (List.mem_range.mp hl)

end ExchangeSort
