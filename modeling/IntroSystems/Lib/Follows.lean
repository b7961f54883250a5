import Mathlib.Tactic.Common

/-!
# Following a computation

`Follows P R c j`: where the computation `j` gives a value, `c` is defined and gives a value related
to it by `R`; what `j` throws satisfies `P`. One rule for each way to build a computation:
`Follows.ok`, `Follows.error`, `Follows.bind`, `Follows.ite`.
-/

set_option autoImplicit false

universe u v w

/-- **`c` follows `j`.** -/
def Follows {α : Type u} {β : Type v} {ε : Type w} (P : ε → Prop) (R : α → β → Prop)
    (c : Option α) : Except ε β → Prop
  | .ok y => ∃ x, c = some x ∧ R x y
  | .error e => P e

namespace Follows

section

variable {α : Type u} {β : Type v} {ε : Type w} {P : ε → Prop} {R : α → β → Prop} {c : Option α}

theorem ok {x : α} {y : β} (h : R x y) : Follows P R (some x) (.ok y) := ⟨x, rfl, h⟩

theorem error {e : ε} (h : P e) : Follows P R c (.error e) := h

theorem ite {p q : Prop} [Decidable p] [Decidable q] {c' : Option α} {j j' : Except ε β}
    (hpq : p ↔ q) (h : q → Follows P R c j) (h' : ¬ q → Follows P R c' j') :
    Follows P R (if p then c else c') (if q then j else j') := by
  by_cases hq : q
  · rw [if_pos hq, if_pos (hpq.2 hq)]
    exact h hq
  · rw [if_neg hq, if_neg (mt hpq.1 hq)]
    exact h' hq

end

variable {α β γ δ : Type u} {ε : Type w} {P : ε → Prop} {R : α → β → Prop} {Q : γ → δ → Prop}

/-- **Sequences follow step by step.** -/
theorem bind {c : Option α} {j : Except ε β} {f : α → Option γ} {g : β → Except ε δ}
    (h : Follows P R c j) (hf : ∀ x y, R x y → Follows P Q (f x) (g y)) :
    Follows P Q (c >>= f) (j >>= g) := by
  cases j with
  | error e => exact h
  | ok y =>
    obtain ⟨x, rfl, hR⟩ := h
    exact hf x y hR

end Follows
