import IntroSystems.Lib.Locks
import Mathlib.Tactic.Common

/-!
# The table

What the three philosopher programs of assignment 10 have in common. There are `n` philosophers,
`num_phils`, and as many forks; `lock`, `forfree` and `free` of `fork_t` are the mutex, the
condition and the flag of a resource.

* `leftfork`, `rightfork`.
* `Local`: where a philosopher is, with its local `meals`.
* `Mannered`: what is to hold in every state of a run.
-/

set_option autoImplicit false

namespace IntroSystems.Philosophers

open Locks

variable {n : ℕ}

def leftfork (i : Fin n) : Fin n := i

def rightfork (i : Fin n) : Fin n := ⟨(i + 1) % n, Nat.mod_lt _ i.pos⟩

inductive Side
  | left
  | right
  deriving DecidableEq

def Side.other : Side → Side
  | .left => .right
  | .right => .left

def fork (p : Fin n) : Side → Fin n
  | .left => leftfork p
  | .right => rightfork p

theorem rightfork_ne_leftfork (hn : 2 ≤ n) (p : Fin n) : rightfork p ≠ leftfork p := by
  intro h
  have hv : (p + 1 : ℕ) % n = p := congrArg Fin.val h
  by_cases hp : (p + 1 : ℕ) < n
  · rw [Nat.mod_eq_of_lt hp] at hv
    omega
  · have : (p + 1 : ℕ) = n := by omega
    rw [this, Nat.mod_self] at hv
    omega

theorem fork_injective (hn : 2 ≤ n) (p : Fin n) : Function.Injective (fork p) := by
  have h := rightfork_ne_leftfork hn p
  intro a b hab
  cases a <;> cases b
  · rfl
  · exact absurd hab.symm h
  · exact absurd hab h
  · rfl

theorem fork_other_ne (hn : 2 ≤ n) (p : Fin n) (s : Side) : fork p s.other ≠ fork p s := by
  intro h
  have := fork_injective hn p h
  cases s <;> exact absurd this (by simp [Side.other])

/-- Both forks of a philosopher. -/
def both (p : Fin n) : Set (Fin n) := {leftfork p, rightfork p}

theorem pair_fork (p : Fin n) (s : Side) : {fork p s.other, fork p s} = both p := by
  cases s
  · exact Set.pair_comm _ _
  · rfl

theorem both_diff_right (hn : 2 ≤ n) (p : Fin n) :
    both p \ {rightfork p} = {leftfork p} := by
  rw [both, Set.pair_sdiff_right (rightfork_ne_leftfork hn p).symm]

/-- A place in `phil_thread`, and the local `meals`. -/
structure Local (Place : Type) where
  place : Place
  meals : ℤ
  deriving DecidableEq

/-- The head of `while (meals < num_meals)`. -/
def Local.loop {Place : Type} (l : Local Place) (num_meals : ℤ) (body done : Place) :
    Local Place :=
  { l with place := if l.meals < num_meals then body else done }

theorem Local.loop_cases {Place : Type} (l : Local Place) (num_meals : ℤ) (body done : Place) :
    l.meals < num_meals ∧ l.loop num_meals body done = { l with place := body } ∨
      num_meals ≤ l.meals ∧ l.loop num_meals body done = { l with place := done } := by
  by_cases h : l.meals < num_meals
  · exact .inl ⟨h, by rw [Local.loop, if_pos h]⟩
  · exact .inr ⟨not_lt.mp h, by rw [Local.loop, if_neg h]⟩

/-- Philosophers that eat, from the second `free = 0` to the first `putfork`, have their forks to
themselves, mutexes are released by their holders, and who is finished has eaten its meals and has
put its forks back. -/
structure Mannered {Place : Type} (P : Program (Fin n) (Fin n) (Local Place))
    (eats : Place → Prop) (num_meals : ℤ) (s : State (Fin n) (Fin n) (Local Place)) : Prop where
  holder : ∀ p d, eats (s.pc p).place → s.holder (fork p d) = some p ∧ s.flag (fork p d) = 0
  neighbours : ∀ p q, p ≠ q → rightfork p = leftfork q →
    ¬(eats (s.pc p).place ∧ eats (s.pc q).place)
  free : ∀ f, s.holder f = none → s.flag f = 1
  release : ∀ p f l, P.instr p (s.pc p) = .unlock f l ∨ P.instr p (s.pc p) = .wait f l →
    s.holder f = some p
  finished : ∀ p, P.instr p (s.pc p) = .stop →
    (s.pc p).meals = max num_meals 0 ∧ ∀ f, s.holder f ≠ some p

/-- Roles in which an eater uses both forks and a finished philosopher has had its meals are
enough. -/
theorem mannered_of_roles {Place : Type} {P : Program (Fin n) (Fin n) (Local Place)}
    {eats : Place → Prop} {num_meals : ℤ} {s : State (Fin n) (Fin n) (Local Place)}
    {ρ : Roles (Fin n) (Fin n) (Local Place)} (hf : ρ.Fit P) (hi : ρ.Inv s)
    (heats : ∀ p l, eats l.place → ρ.uses p l = both p)
    (hstop : ∀ p l, ρ.visits p l → P.instr p l = .stop → l.meals = max num_meals 0) :
    Mannered P eats num_meals s := by
  have huse : ∀ p d, eats (s.pc p).place → fork p d ∈ ρ.uses p (s.pc p) := by
    intro p d he
    rw [heats p _ he]
    cases d <;> simp [both, fork]
  have hhold : ∀ p d, eats (s.pc p).place → fork p d ∈ ρ.holds p (s.pc p) := fun p d he =>
    hf.uses_subset p _ (hi.visits p) (huse p d he)
  refine ⟨fun p d he => ?_, fun p q hne hpq he => ?_, fun f h => hi.flag_of_free hf h,
    fun p f l h => hi.holder_of_release hf h, fun p h => ?_⟩
  · exact ⟨(hi.holder _ p).mpr (hhold p d he), hi.used p _ (huse p d he)⟩
  · have hp := hhold p .right he.1
    have hq := hhold q .left he.2
    rw [fork, hpq] at hp
    exact hne (hi.holds_unique hp hq)
  · exact ⟨hstop p _ (hi.visits p) h, fun f => hi.holder_of_stop hf h f⟩

end IntroSystems.Philosophers
