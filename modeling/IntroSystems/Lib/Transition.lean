import Mathlib.Logic.Relation
import Mathlib.Tactic.Common

/-!
# Transition systems

A system has initial states and labelled steps. `Sys.Reach` is the set of states of its runs.

* `Sys.Reach.invariant`: what holds initially and is kept by every step from a reachable state
  holds of every reachable state.
* `Sys.Moves`: runs from a given state; `Sys.Reach.moves` continues a run.
* `Sys.restrict P`: the runs all of whose steps meet the condition `P` on the state before the
  step and its label.
* `Sys.ofNext`: the runs of a program whose steps may be undefined; `Reach.defined`: when none is.
  `follow`, `Reach.of_follow`, `Reach.of_follow_restrict`: the state that a list of labels leads to.
* `Sys.Simulates`: every step of one system is matched by steps of another, up to a relation of their
  states; `Simulates.reach`: then so is every run.
-/

set_option autoImplicit false

/-- A labelled transition system. -/
structure Sys (S L : Type) where
  init : S → Prop
  step : S → L → S → Prop

namespace Sys

variable {S L S' L' : Type} {A : Sys S L} {B : Sys S' L'}

/-- The states of the runs of `A`. -/
inductive Reach (A : Sys S L) : S → Prop
  | init {s : S} : A.init s → Reach A s
  | step {s s' : S} {l : L} : Reach A s → A.step s l s' → Reach A s'

/-- **Invariant rule.** -/
theorem Reach.invariant {I : S → Prop} (h0 : ∀ s, A.init s → I s)
    (hstep : ∀ s l s', A.Reach s → I s → A.step s l s' → I s') {s : S} (h : A.Reach s) : I s := by
  induction h with
  | init hi => exact h0 _ hi
  | step hr hst ih => exact hstep _ _ _ hr ih hst

/-- Some number of steps lead from `s` to `s'`. -/
def Moves (A : Sys S L) : S → S → Prop :=
  Relation.ReflTransGen fun s s' => ∃ l, A.step s l s'

theorem Moves.refl (s : S) : A.Moves s s := Relation.ReflTransGen.refl

theorem Moves.trans {s t u : S} (h : A.Moves s t) (h' : A.Moves t u) : A.Moves s u :=
  Relation.ReflTransGen.trans h h'

theorem Moves.single {s t : S} (l : L) (h : A.step s l t) : A.Moves s t :=
  Relation.ReflTransGen.single ⟨l, h⟩

theorem Reach.moves {s t : S} (hs : A.Reach s) (h : A.Moves s t) : A.Reach t := by
  induction h with
  | refl => exact hs
  | tail _ hst ih =>
    obtain ⟨l, hl⟩ := hst
    exact ih.step hl

/-- The runs of `A` all of whose steps meet `P`. -/
def restrict (A : Sys S L) (P : S → L → Prop) : Sys S L where
  init := A.init
  step s l s' := P s l ∧ A.step s l s'

theorem Reach.step_restrict {P : S → L → Prop} {s s' : S} {l : L} (h : (A.restrict P).Reach s)
    (hp : P s l) (hs : A.step s l s') : (A.restrict P).Reach s' := .step h ⟨hp, hs⟩

theorem Reach.of_restrict {P : S → L → Prop} {s : S} (h : (A.restrict P).Reach s) : A.Reach s := by
  induction h with
  | init hi => exact .init hi
  | step _ hst ih => exact ih.step hst.2

theorem Reach.restrict_of_forall {P : S → L → Prop} (hp : ∀ s l, P s l) {s : S} (h : A.Reach s) :
    (A.restrict P).Reach s := by
  induction h with
  | init hi => exact .init hi
  | step _ hst ih => exact ih.step ⟨hp _ _, hst⟩

/-- The runs of a program that goes on by `next` where that is allowed. After an undefined step a
run is at `none`, and ends. -/
def ofNext (init : S → Prop) (allowed : S → L → Prop) (next : S → L → Option S) :
    Sys (Option S) L where
  init o := ∃ s, o = some s ∧ init s
  step o l o' := ∃ s, o = some s ∧ allowed s l ∧ next s l = o'

/-- **No step is undefined** where an invariant rules that out. -/
theorem Reach.defined {init : S → Prop} {allowed : S → L → Prop} {next : S → L → Option S}
    {P : Option S → L → Prop} {I : S → Prop} (h0 : ∀ s, init s → I s)
    (hstep : ∀ s l, I s → allowed s l → P (some s) l → ∃ s', next s l = some s' ∧ I s')
    {o : Option S} (h : ((ofNext init allowed next).restrict P).Reach o) :
    ∃ s, o = some s ∧ I s := by
  refine h.invariant (I := fun o => ∃ s, o = some s ∧ I s) ?_ ?_
  · rintro o ⟨s, rfl, hs⟩
    exact ⟨s, rfl, h0 s hs⟩
  · rintro o l o' - ⟨s, rfl, hs⟩ ⟨hp, t, ht, hallowed, rfl⟩
    cases ht
    exact hstep s l hs hallowed hp

/-- What the labels of a list lead to, one after the other, as long as they are `ok`. -/
def follow (ok : S → L → Prop) (next : S → L → Option S) [∀ s l, Decidable (ok s l)] (s : S)
    (ls : List L) : Option S :=
  ls.foldlM (fun s l => if ok s l then next s l else none) s

section Follow

variable {init : S → Prop} {allowed ok : S → L → Prop} {next : S → L → Option S}
  {P : Option S → L → Prop} [∀ s l, Decidable (ok s l)] {s : S}

theorem Reach.follow (hok : ∀ s l, ok s l → allowed s l ∧ P (some s) l) {s' : S} {ls : List L}
    (hs : ((ofNext init allowed next).restrict P).Reach (some s))
    (h : Sys.follow ok next s ls = some s') :
    ((ofNext init allowed next).restrict P).Reach (some s') := by
  induction ls generalizing s with
  | nil =>
    obtain rfl := Option.some.inj h
    exact hs
  | cons l ls ih =>
    rw [Sys.follow, List.foldlM_cons] at h
    obtain ⟨s₁, h1, h2⟩ := Option.bind_eq_some_iff.mp h
    split_ifs at h1 with hl
    obtain ⟨hallowed, hp⟩ := hok s l hl
    exact ih (hs.step_restrict hp ⟨s, rfl, hallowed, h1⟩) h2

/-- **A list of labels reaches a state** that is seen to have the property `q`. -/
theorem Reach.of_follow_restrict (hok : ∀ s l, ok s l → allowed s l ∧ P (some s) l) {q : S → Prop}
    [DecidablePred q] (hs : init s) (ls : List L)
    (h : (Sys.follow ok next s ls).any (fun s' => decide (q s')) = true) :
    ∃ s', ((ofNext init allowed next).restrict P).Reach (some s') ∧ q s' := by
  rw [Option.any_eq_true_iff_get] at h
  obtain ⟨hsome, hq⟩ := h
  have h0 : ((ofNext init allowed next).restrict P).Reach (some s) := .init ⟨s, rfl, hs⟩
  exact ⟨_, h0.follow hok (Option.some_get hsome).symm, of_decide_eq_true hq⟩

omit [∀ s l, Decidable (ok s l)] in
theorem Reach.of_follow [∀ s l, Decidable (allowed s l)] {q : S → Prop} [DecidablePred q]
    (hs : init s) (ls : List L)
    (h : (Sys.follow allowed next s ls).any (fun s' => decide (q s')) = true) :
    ∃ s', (ofNext init allowed next).Reach (some s') ∧ q s' := by
  obtain ⟨s', hreach, hq⟩ := Reach.of_follow_restrict (P := fun _ _ => True)
    (fun _ _ hl => ⟨hl, trivial⟩) hs ls h
  exact ⟨s', hreach.of_restrict, hq⟩

end Follow

/-- The steps of `A` are matched by steps of `B`, as long as `R` holds. -/
structure Simulates (A : Sys S L) (B : Sys S' L') (R : S → S' → Prop) : Prop where
  init : ∀ s, A.init s → ∃ t, B.init t ∧ R s t
  step : ∀ s l s' t, R s t → A.step s l s' → ∃ t', B.Moves t t' ∧ R s' t'

variable {R : S → S' → Prop}

/-- **Every run is matched by a run.** -/
theorem Simulates.reach (h : Simulates A B R) {s : S} (hs : A.Reach s) : ∃ t, B.Reach t ∧ R s t := by
  induction hs with
  | init hi =>
    obtain ⟨t, ht, hR⟩ := h.init _ hi
    exact ⟨t, .init ht, hR⟩
  | step _ hst ih =>
    obtain ⟨t, ht, hR⟩ := ih
    obtain ⟨t', hmoves, hR'⟩ := h.step _ _ _ t hR hst
    exact ⟨t', ht.moves hmoves, hR'⟩

end Sys
