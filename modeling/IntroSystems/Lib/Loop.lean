import Mathlib.Data.Int.Notation
import Mathlib.Logic.Relation
import Mathlib.Tactic.Common

/-!
# Loops

The body of a loop takes a state to the next one; it may be undefined. That of a do-while loop says
whether to go on.

* `Stops`: the loop, as a relation between the states where it is entered and where it stops.
* `trace`: what the iterations give, one after another.
* `restrict`: the loop as long as a condition holds.
* `Stops.after`: some iterations before.
* `Stops.simulate`: two bodies that keep a relation stop together.
* `up`, `down`: loops that count. **`up_spec`**, **`down_spec`**: their invariant rules;
  `down_simulate`.
-/

set_option autoImplicit false

universe u v

namespace Loop

variable {S : Type u} {T : Type v}

/-- Loop bodies. -/
abbrev Body (S : Type u) := S → Option (S × Bool)

/-- What the first `k` iterations give. The list ends early where the loop stops and where the body
is undefined. -/
def trace (body : Body S) : ℕ → S → List (Option (S × Bool))
  | 0, _ => []
  | k + 1, s =>
    body s ::
      match body s with
      | some (t, true) => trace body k t
      | _ => []

/-- **The loop entered in `s` stops in `t`.** -/
inductive Stops (body : Body S) : S → S → Prop
  | last {s t : S} (h : body s = some (t, false)) : Stops body s t
  | again {s s' t : S} (h : body s = some (s', true)) (rest : Stops body s' t) : Stops body s t

/-- The body on the states that satisfy `p` only. -/
def restrict (p : S → Bool) (body : Body S) : Body S := fun s => if p s then body s else none

variable {body : Body S} {s t : S}

theorem restrict_eq_some {p : S → Bool} {x : S × Bool} :
    restrict p body s = some x ↔ p s = true ∧ body s = some x := by
  unfold restrict
  split <;> simp_all

theorem Stops.after {s' : S} (hstop : Stops body s' t)
    (h : Relation.ReflTransGen (fun s s' => body s = some (s', true)) s s') : Stops body s t := by
  induction h using Relation.ReflTransGen.head_induction_on with
  | refl => exact hstop
  | head hstep _ ih => exact .again hstep ih

theorem Stops.unique {t' : S} (h : Stops body s t) (h' : Stops body s t') : t = t' := by
  induction h with
  | last h =>
    cases h' with
    | last h' => cases h.symm.trans h'; rfl
    | again h' _ => cases h.symm.trans h'
  | again h _ ih =>
    cases h' with
    | last h' => cases h.symm.trans h'
    | again h' rest => cases h.symm.trans h'; exact ih rest

/-- **Two loops whose bodies keep `R` stop together**, in related states. -/
theorem Stops.simulate {other : Body T} {R : S → T → Prop} {u : T}
    (keep : ∀ {s s' u c}, R s u → body s = some (s', c) → ∃ u', other u = some (u', c) ∧ R s' u')
    (h : Stops body s t) (hR : R s u) : ∃ u', Stops other u u' ∧ R t u' := by
  induction h generalizing u with
  | last h =>
    obtain ⟨u', hu, hR'⟩ := keep hR h
    exact ⟨u', .last hu, hR'⟩
  | again h _ ih =>
    obtain ⟨u', hu, hR'⟩ := keep hR h
    obtain ⟨v, hv, hRv⟩ := ih hR'
    exact ⟨v, .again hu hv, hRv⟩

/-! ### Loops that count -/

/-- `for (int i = a; i < a + k; i++)`. -/
def up (body : ℤ → S → Option S) : ℤ → ℕ → S → Option S
  | _, 0, s => some s
  | a, k + 1, s => (body a s).bind (up body (a + 1) k)

/-- `for (int i = a; i > a - k; i--)`. -/
def down (body : ℤ → S → Option S) : ℤ → ℕ → S → Option S
  | _, 0, s => some s
  | a, k + 1, s => (body a s).bind (down body (a - 1) k)

theorem up_add (body : ℤ → S → Option S) (a : ℤ) (k l : ℕ) (s : S) :
    up body a (k + l) s = (up body a k s).bind (up body (a + k) l) := by
  induction k generalizing a s with
  | zero => rw [Nat.zero_add, up, Option.bind_some, Int.natCast_zero, Int.add_zero]
  | succ k ih =>
    rw [Nat.succ_add, up, up, Option.bind_assoc]
    refine Option.bind_congr fun t _ => ?_
    rw [ih, Int.natCast_succ, Int.add_comm (k : ℤ), ← Int.add_assoc]

/-- **Loops that count down together**: where the one is defined, so is the other. -/
theorem down_simulate {body : ℤ → S → Option S} {other : ℤ → T → Option T} {R : S → T → Prop}
    (keep : ∀ i s s' u, R s u → body i s = some s' → ∃ u', other i u = some u' ∧ R s' u')
    {a : ℤ} {k : ℕ} {s t : S} {u : T} (hR : R s u) (h : down body a k s = some t) :
    ∃ u', down other a k u = some u' ∧ R t u' := by
  induction k generalizing a s u with
  | zero =>
    cases h
    exact ⟨u, rfl, hR⟩
  | succ k ih =>
    obtain ⟨s', hs, ht⟩ := Option.bind_eq_some_iff.mp h
    obtain ⟨u', hu, hR'⟩ := keep a s s' u hR hs
    obtain ⟨v, hv, hRv⟩ := ih hR' ht
    exact ⟨v, by rw [down, hu, Option.bind_some, hv], hRv⟩

section Count

variable (body : ℤ → S → Option S) (I : ℕ → S → Prop) {a : ℤ} {k : ℕ} {s t : S}

/-- **A loop that counts up** keeps what each of its iterations keeps. -/
theorem up_spec (hstep : ∀ j < k, ∀ s, I j s → ∃ s', body (a + j) s = some s' ∧ I (j + 1) s')
    (h0 : I 0 s) : ∃ t, up body a k s = some t ∧ I k t := by
  induction k generalizing a s I with
  | zero => exact ⟨s, rfl, h0⟩
  | succ k ih =>
    obtain ⟨s', hs', h1⟩ := hstep 0 (Nat.succ_pos k) s h0
    rw [Int.natCast_zero, Int.add_zero] at hs'
    obtain ⟨t, ht, hk⟩ := ih (fun j => I (j + 1)) (a := a + 1) (fun j hj s hs => by
      have h := hstep (j + 1) (Nat.succ_lt_succ hj) s hs
      rwa [Int.natCast_succ, Int.add_comm (j : ℤ), ← Int.add_assoc] at h) h1
    exact ⟨t, by rw [up, hs', Option.bind_some, ht], hk⟩

/-- **A loop that counts down**, as well. -/
theorem down_spec (hstep : ∀ j < k, ∀ s, I j s → ∃ s', body (a - j) s = some s' ∧ I (j + 1) s')
    (h0 : I 0 s) : ∃ t, down body a k s = some t ∧ I k t := by
  induction k generalizing a s I with
  | zero => exact ⟨s, rfl, h0⟩
  | succ k ih =>
    obtain ⟨s', hs', h1⟩ := hstep 0 (Nat.succ_pos k) s h0
    rw [Int.natCast_zero, Int.sub_zero] at hs'
    obtain ⟨t, ht, hk⟩ := ih (fun j => I (j + 1)) (a := a - 1) (fun j hj s hs => by
      have h := hstep (j + 1) (Nat.succ_lt_succ hj) s hs
      rwa [Int.natCast_succ, Int.add_comm (j : ℤ), ← Int.sub_sub] at h) h1
    exact ⟨t, by rw [down, hs', Option.bind_some, ht], hk⟩

theorem up_invariant (hstep : ∀ j < k, ∀ s s', I j s → body (a + j) s = some s' → I (j + 1) s')
    (h0 : I 0 s) (h : up body a k s = some t) : I k t := by
  induction k generalizing a s I with
  | zero => exact Option.some.inj h ▸ h0
  | succ k ih =>
    obtain ⟨s', hs', ht⟩ := Option.bind_eq_some_iff.mp h
    refine ih (fun j => I (j + 1)) (a := a + 1) (fun j hj s s'' hs hs'' => ?_)
      (hstep 0 (Nat.succ_pos k) s s' h0 (by rwa [Int.natCast_zero, Int.add_zero])) ht
    refine hstep (j + 1) (Nat.succ_lt_succ hj) s s'' hs ?_
    rwa [Int.natCast_succ, Int.add_comm (j : ℤ), ← Int.add_assoc]

end Count

end Loop
