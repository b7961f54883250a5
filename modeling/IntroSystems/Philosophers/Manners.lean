import IntroSystems.Philosophers.Random
import IntroSystems.Philosophers.Waiting

/-!
# Neighbours never eat together

* **`neighbours_never_eat`**: manners at the table, in every run of the three programs.
* `no_meals`: with a negative `num_meals` a philosopher is finished at once.
-/

set_option autoImplicit false

namespace IntroSystems.Philosophers

open Locks

/-- **Neighbours never eat together.** -/
theorem neighbours_never_eat {n : ℕ} (hn : 2 ≤ n) (num_meals : ℤ) :
    (∀ s, (sys (Waiting.ordered n num_meals)).Reach s →
        Mannered (Waiting.ordered n num_meals) Waiting.Place.eats num_meals s) ∧
      (∀ s, (sys (Waiting.rightFirst n num_meals)).Reach s →
        Mannered (Waiting.rightFirst n num_meals) Waiting.Place.eats num_meals s) ∧
      ∀ s, (sys (Random.program n num_meals)).Reach s →
        Mannered (Random.program n num_meals) Random.Place.eats num_meals s :=
  ⟨fun _ hr => Waiting.mannered hn hr, fun _ hr => Waiting.mannered hn hr,
    fun _ hr => Random.mannered hn hr⟩

/-- Philosopher 0 eats, and its neighbour waits for a fork. -/
theorem neighbours_never_eat_two : ∃ s, (sys (Waiting.ordered 2 1)).Reach s ∧
    (decide ((s.pc 0).place = .eat) && decide ((s.pc 1).place = .get .first .lock)) = true ∧
    Mannered (Waiting.ordered 2 1) Waiting.Place.eats 1 s := by
  obtain ⟨s, hs, hp⟩ := reach_of_turns (P := Waiting.ordered 2 1)
    (p := fun s => decide ((s.pc 0).place = .eat) && decide ((s.pc 1).place = .get .first .lock))
    (List.replicate 7 (0, true) ++ [(1, true)]) (by decide)
  exact ⟨s, hs, hp, (neighbours_never_eat (by decide) 1).1 s hs⟩

/-- **A negative number of meals is none**: philosopher 0 has stopped without a meal. -/
theorem no_meals : ¬∀ s, (sys (Waiting.ordered 2 (-1))).Reach s →
    ∀ p, (Waiting.ordered 2 (-1)).instr p (s.pc p) = .stop → (s.pc p).meals = -1 := by
  intro h
  obtain ⟨s, hs, hp⟩ := reach_of_turns (P := Waiting.ordered 2 (-1))
    (p := fun s => decide (s.pc 0 = ⟨.done, 0⟩)) [(0, true)] (by decide)
  have hpc : s.pc 0 = ⟨.done, 0⟩ := by simpa using hp
  have := h s hs 0 (by rw [hpc]; rfl)
  rw [hpc] at this
  exact absurd this (by decide)

end IntroSystems.Philosophers
