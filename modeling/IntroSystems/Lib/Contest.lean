import Mathlib.Tactic.Common

/-!
# Contests

The holder of a title meets one challenger after another, and keeps the title or hands it over.

* `winner`: who holds it in the end.
* `Succession`: the holders, each of whom keeps the title until it goes to the next one.
  **`Succession.last_holder`**: the last one, and the one before.
* **`winner_eq_iff`**: the winner is the end of a succession.
-/

set_option autoImplicit false

universe u

namespace Contest

variable {α : Type u} (keeps : α → α → Prop)

/-- Who holds the title after the challengers of the list, when `a` held it before. -/
def winner [DecidableRel keeps] : α → List α → α
  | a, [] => a
  | a, b :: bs => winner (if keeps a b then a else b) bs

/-- `a` keeps the title until the end, or until it goes to the next holder. -/
inductive Succession : α → List α → α → Prop
  | last {a : α} {bs : List α} (h : ∀ b ∈ bs, keeps a b) : Succession a bs a
  | next {a b c : α} {bs cs : List α} (h : ∀ b ∈ bs, keeps a b) (hb : ¬keeps a b)
      (rest : Succession b cs c) : Succession a (bs ++ b :: cs) c

variable {keeps} {a b c : α} {bs cs : List α}

theorem Succession.cons (hb : keeps a b) (h : Succession keeps a bs c) :
    Succession keeps a (b :: bs) c := by
  cases h with
  | last h => exact .last (List.forall_mem_cons.mpr ⟨hb, h⟩)
  | next h hc rest => exact .next (List.forall_mem_cons.mpr ⟨hb, h⟩) hc rest

/-- **The last holder** has had the title from the start, or has it from somebody. -/
theorem Succession.last_holder (h : Succession keeps a bs c) :
    c = a ∧ (∀ b ∈ bs, keeps c b) ∨
      ∃ before after d, bs = before ++ c :: after ∧ Succession keeps a before d ∧ ¬keeps d c ∧
        ∀ b ∈ after, keeps c b := by
  induction h with
  | last h => exact .inl ⟨rfl, h⟩
  | @next a b c bs cs h hb rest ih =>
    right
    rcases ih with ⟨rfl, hall⟩ | ⟨before, after, d, rfl, hd, hdc, hall⟩
    · exact ⟨bs, cs, a, rfl, .last h, hb, hall⟩
    · have hsplit : bs ++ b :: (before ++ c :: after) = (bs ++ b :: before) ++ c :: after := by
        rw [List.append_assoc, List.cons_append]
      exact ⟨bs ++ b :: before, after, d, hsplit, .next h hb hd, hdc, hall⟩

section Winner

variable [DecidableRel keeps]

theorem winner_append (a : α) (bs cs : List α) :
    winner keeps a (bs ++ cs) = winner keeps (winner keeps a bs) cs := by
  induction bs generalizing a with
  | nil => rfl
  | cons b bs ih => exact ih _

theorem winner_eq_self (h : ∀ b ∈ bs, keeps a b ∨ b = a) : winner keeps a bs = a := by
  induction bs with
  | nil => rfl
  | cons b bs ih =>
    obtain ⟨hb, hbs⟩ := List.forall_mem_cons.mp h
    have hnext : (if keeps a b then a else b) = a := by
      split_ifs with hk
      · rfl
      · exact hb.resolve_left hk
    rw [winner, hnext, ih hbs]

theorem winner_mem (a : α) (bs : List α) : winner keeps a bs ∈ a :: bs := by
  induction bs generalizing a with
  | nil => exact List.mem_cons_self
  | cons b bs ih =>
    unfold winner
    split_ifs
    · rcases List.mem_cons.mp (ih a) with h | h
      · rw [h]
        exact List.mem_cons_self
      · exact List.mem_cons_of_mem a (List.mem_cons_of_mem b h)
    · exact List.mem_cons_of_mem a (ih b)

theorem succession_winner (a : α) (bs : List α) : Succession keeps a bs (winner keeps a bs) := by
  induction bs generalizing a with
  | nil => exact .last (List.forall_mem_nil _)
  | cons b bs ih =>
    unfold winner
    by_cases hb : keeps a b
    · rw [if_pos hb]
      exact (ih a).cons hb
    · rw [if_neg hb]
      exact .next (List.forall_mem_nil _) hb (ih b)

/-- **The winner is the last one of the succession.** -/
theorem winner_eq_iff : winner keeps a bs = c ↔ Succession keeps a bs c := by
  constructor
  · rintro rfl
    exact succession_winner a bs
  · intro h
    induction h with
    | last h => exact winner_eq_self fun b hb => .inl (h b hb)
    | @next a b c bs cs h hb rest ih =>
      rw [winner_append, winner_eq_self fun b hb => .inl (h b hb), winner, if_neg hb, ih]

end Winner

end Contest
