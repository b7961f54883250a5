import Mathlib.Logic.Function.Basic

/-!
# Two families and what holds between them

Processes `a` with states `x a` and objects `b` with states `y b`. An invariant of the form
`Pairs Q x y` says something about each process and each object. A step of one process that touches
one object has to be checked against the others in two ways.

* `Pairs`; **`Pairs.update`**, `Pairs.update_left`, `Pairs.update_right`.
-/

set_option autoImplicit false

variable {A B X Y : Type}

/-- What holds between each process and each object. -/
def Pairs (Q : A → X → B → Y → Prop) (x : A → X) (y : B → Y) : Prop := ∀ a b, Q a (x a) b (y b)

namespace Pairs

variable {Q : A → X → B → Y → Prop} {x : A → X} {y : B → Y} {a : A} {b : B} {x' : X} {y' : Y}

/-- **A step of process `a` on object `b`.** -/
theorem update [DecidableEq A] [DecidableEq B] (h : Pairs Q x y) (hab : Q a x' b y')
    (ha : ∀ b', b' ≠ b → Q a (x a) b' (y b') → Q a x' b' (y b'))
    (hb : ∀ a', a' ≠ a → Q a' (x a') b (y b) → Q a' (x a') b y') :
    Pairs Q (Function.update x a x') (Function.update y b y') := by
  intro a' b'
  by_cases hA : a' = a
  · subst hA
    rw [Function.update_self]
    by_cases hB : b' = b
    · subst hB
      rwa [Function.update_self]
    · rw [Function.update_of_ne hB]
      exact ha b' hB (h a' b')
  · rw [Function.update_of_ne hA]
    by_cases hB : b' = b
    · subst hB
      rw [Function.update_self]
      exact hb a' hA (h a' b')
    · rw [Function.update_of_ne hB]
      exact h a' b'

theorem update_left [DecidableEq A] (h : Pairs Q x y) (ha : ∀ b, Q a (x a) b (y b) → Q a x' b (y b)) :
    Pairs Q (Function.update x a x') y := by
  intro a' b
  by_cases hA : a' = a
  · subst hA
    rw [Function.update_self]
    exact ha b (h a' b)
  · rw [Function.update_of_ne hA]
    exact h a' b

theorem update_right [DecidableEq B] (h : Pairs Q x y) (hb : ∀ a, Q a (x a) b (y b) → Q a (x a) b y') :
    Pairs Q x (Function.update y b y') := by
  intro a b'
  by_cases hB : b' = b
  · subst hB
    rw [Function.update_self]
    exact hb a (h a b')
  · rw [Function.update_of_ne hB]
    exact h a b'

end Pairs
