import IntroSystems.Lib.Transition
import Mathlib.Data.Fintype.Basic
import Mathlib.Logic.Function.Basic

/-!
# Threads with a lock and counting semaphores

A thread runs critical sections under one lock, and between them it may wait on a semaphore. A wait
decrements the semaphore and blocks when that makes it negative; a signal increments it and wakes
the thread that has waited longest.

* `Sem`, `Sem.signal`, `Sem.wait`. `Sem.Balanced`: what they keep of a semaphore by itself.
* `Action`, `Program`, `State`, `Step`, `sys`. A section without a result has undefined behaviour.
* **`reach_induction`**: the invariant rule for what only sections and waits change.
* `playsIf`, `reach_of_playsIf`, `reach_of_plays`: the state that a schedule leads to.
-/

set_option autoImplicit false

namespace Semaphore

/-- A semaphore with its waiting threads. -/
structure Sem (T : Type) where
  value : ℤ
  queue : List T

def Sem.signal {T : Type} (s : Sem T) : Sem T := ⟨s.value + 1, s.queue.tail⟩

def Sem.wait {T : Type} (s : Sem T) (t : T) : Sem T :=
  if s.value - 1 < 0 then ⟨s.value - 1, s.queue ++ [t]⟩ else ⟨s.value - 1, s.queue⟩

section Balance

variable {T : Type} {s : Sem T}

/-- As many threads wait as the value is below zero. -/
def Sem.Balanced (s : Sem T) : Prop := (s.queue.length : ℤ) = max 0 (-s.value)

theorem Sem.Balanced.signal (h : s.Balanced) : s.signal.Balanced := by
  unfold Sem.Balanced Sem.signal at *
  dsimp only
  rw [List.length_tail]
  omega

theorem Sem.wait_of_lt {t : T} (h : s.value - 1 < 0) : s.wait t = ⟨s.value - 1, s.queue ++ [t]⟩ :=
  if_pos h

theorem Sem.wait_of_le {t : T} (h : ¬s.value - 1 < 0) : s.wait t = ⟨s.value - 1, s.queue⟩ :=
  if_neg h

theorem Sem.Balanced.wait (h : s.Balanced) (t : T) : (s.wait t).Balanced := by
  by_cases hv : s.value - 1 < 0
  · rw [Sem.wait_of_lt hv]
    unfold Sem.Balanced at *
    dsimp only
    rw [List.length_append, List.length_singleton]
    push_cast
    omega
  · rw [Sem.wait_of_le hv]
    unfold Sem.Balanced at *
    dsimp only
    omega

end Balance

/-- What a thread does next: nothing, a critical section that gives the new data, the semaphores it
signals and the next point, or a wait. -/
inductive Action (L D C : Type)
  | finished
  | locked (body : D → Option (D × List C × L))
  | wait (c : C) (next : L)

structure Program (T L D C : Type) where
  start : L
  data : D
  value : C → ℤ
  action : T → L → Action L D C

structure State (T L D C : Type) where
  data : D
  pc : T → L
  sem : C → Sem T
  holder : Option T

variable {T L D C : Type} [DecidableEq T] [DecidableEq C]

def signals (sem : C → Sem T) (cs : List C) : C → Sem T :=
  cs.foldl (fun sem c => Function.update sem c (sem c).signal) sem

/-- The thread waits on some semaphore. -/
def State.Blocked (s : State T L D C) (t : T) : Prop := ∃ c, t ∈ (s.sem c).queue

/-- The state after thread `t` has run its section. -/
def State.after (s : State T L D C) (t : T) (r : D × List C × L) : State T L D C where
  data := r.1
  pc := Function.update s.pc t r.2.2
  sem := signals s.sem r.2.1
  holder := none

/-- The state after thread `t` has begun to wait on `c`. -/
def State.afterWait (s : State T L D C) (t : T) (c : C) (l : L) : State T L D C where
  data := s.data
  pc := Function.update s.pc t l
  sem := Function.update s.sem c ((s.sem c).wait t)
  holder := s.holder

/-- What a thread does: it gets the lock, runs its section up to the release, or waits. -/
inductive Act (T : Type)
  | lock (t : T)
  | run (t : T)
  | wait (t : T)

inductive Step (P : Program T L D C) : State T L D C → Act T → State T L D C → Prop
  | lock {s : State T L D C} {t : T} {b : D → Option (D × List C × L)} : s.holder = none →
      ¬s.Blocked t → P.action t (s.pc t) = .locked b → Step P s (.lock t) { s with holder := some t }
  | run {s : State T L D C} {t : T} {b : D → Option (D × List C × L)} {r : D × List C × L} :
      s.holder = some t → P.action t (s.pc t) = .locked b → b s.data = some r →
      Step P s (.run t) (s.after t r)
  | wait {s : State T L D C} {t : T} {c : C} {l : L} : ¬s.Blocked t →
      P.action t (s.pc t) = .wait c l → Step P s (.wait t) (s.afterWait t c l)

def State.initial (P : Program T L D C) : State T L D C :=
  ⟨P.data, fun _ => P.start, fun c => ⟨P.value c, []⟩, none⟩

/-- The runs of the program. -/
def sys (P : Program T L D C) : Sys (State T L D C) (Act T) where
  init s := s = .initial P
  step := Step P

/-- **Invariant rule** for a property of the data and the points of the threads, in the runs whose
steps meet `G`. -/
theorem reach_induction {P : Program T L D C} {G : State T L D C → Act T → Prop}
    {I : D → (T → L) → Prop} (h0 : I P.data fun _ => P.start)
    (hrun : ∀ (s : State T L D C) t b r, G s (.run t) → I s.data s.pc → P.action t (s.pc t) = .locked b →
      b s.data = some r → I r.1 (Function.update s.pc t r.2.2))
    (hwait : ∀ (s : State T L D C) t c l, I s.data s.pc → P.action t (s.pc t) = .wait c l →
      I s.data (Function.update s.pc t l)) {s : State T L D C}
    (hr : ((sys P).restrict G).Reach s) : I s.data s.pc := by
  refine hr.invariant (I := fun s => I s.data s.pc) ?_ ?_
  · intro s hs
    rw [show s = _ from hs]
    exact h0
  · intro s a s' _ hi hst
    obtain ⟨hg, hst⟩ := hst
    cases hst with
    | lock _ _ _ => exact hi
    | run _ ha hb => exact hrun s _ _ _ hg hi ha hb
    | wait _ ha => exact hwait s _ _ _ hi ha

/-! ## Schedules -/

section Schedule

variable [Fintype C]

/-- Thread `t` gets the lock and runs its section, or waits, if it can. -/
def play (P : Program T L D C) (s : State T L D C) (t : T) : Option (State T L D C) :=
  if s.holder = none ∧ ∀ c, t ∉ (s.sem c).queue then
    match P.action t (s.pc t) with
    | .finished => none
    | .locked b => (b s.data).map (s.after t)
    | .wait c l => some (s.afterWait t c l)
  else none

/-- Whatever `t` does next meets `G`. -/
def Allows (G : State T L D C → Act T → Prop) (s : State T L D C) (t : T) : Prop :=
  G s (.lock t) ∧ G { s with holder := some t } (.run t) ∧ G s (.wait t)

theorem moves_play {P : Program T L D C} {G : State T L D C → Act T → Prop}
    {s s' : State T L D C} {t : T} (hg : Allows G s t) (h : play P s t = some s') :
    ((sys P).restrict G).Moves s s' := by
  obtain ⟨hlock, hrun, hwait⟩ := hg
  unfold play at h
  split_ifs at h with hc
  obtain ⟨hh, hq⟩ := hc
  have hb : ¬s.Blocked t := fun ⟨c, hm⟩ => hq c hm
  cases ha : P.action t (s.pc t) with
  | finished =>
    rw [ha] at h
    exact absurd h (by simp)
  | locked b =>
    rw [ha] at h
    obtain ⟨r, hr, rfl⟩ := Option.map_eq_some_iff.mp h
    have h1 : ((sys P).restrict G).step s (.lock t) { s with holder := some t } :=
      ⟨hlock, .lock hh hb ha⟩
    have h2 : ((sys P).restrict G).step { s with holder := some t } (.run t) (s.after t r) :=
      ⟨hrun, .run rfl ha hr⟩
    exact (Sys.Moves.single _ h1).trans (Sys.Moves.single _ h2)
  | wait c l =>
    rw [ha] at h
    obtain rfl := Option.some.inj h
    have h1 : ((sys P).restrict G).step s (.wait t) (s.afterWait t c l) := ⟨hwait, .wait hb ha⟩
    exact .single _ h1

/-- The plays of the threads `ts`, one after the other, as long as they are `ok`. -/
def playsIf (P : Program T L D C) (ok : State T L D C → T → Bool) (s : State T L D C) (ts : List T) :
    Option (State T L D C) :=
  ts.foldlM (fun s t => if ok s t then play P s t else none) s

variable {P : Program T L D C} {G : State T L D C → Act T → Prop} {ok : State T L D C → T → Bool}

theorem moves_playsIf (hok : ∀ s t, ok s t = true → Allows G s t) {s s' : State T L D C} {ts : List T}
    (h : playsIf P ok s ts = some s') : ((sys P).restrict G).Moves s s' := by
  induction ts generalizing s with
  | nil =>
    obtain rfl := Option.some.inj h
    exact .refl s
  | cons t ts ih =>
    rw [playsIf, List.foldlM_cons] at h
    obtain ⟨s₁, h1, h2⟩ := Option.bind_eq_some_iff.mp h
    split_ifs at h1 with ht
    exact (moves_play (hok s t ht) h1).trans (ih h2)

/-- **A schedule reaches a state** with whatever it is seen to have there. -/
theorem reach_of_playsIf (hok : ∀ s t, ok s t = true → Allows G s t) {p : State T L D C → Bool}
    (ts : List T) (h : (playsIf P ok (.initial P) ts).any p = true) :
    ∃ s, ((sys P).restrict G).Reach s ∧ p s = true := by
  rw [Option.any_eq_true_iff_get] at h
  obtain ⟨hs, hp⟩ := h
  exact ⟨_, Sys.Reach.moves (.init rfl) (moves_playsIf hok (Option.some_get hs).symm), hp⟩

theorem reach_of_plays {p : State T L D C → Bool} (ts : List T)
    (h : (playsIf P (fun _ _ => true) (.initial P) ts).any p = true) :
    ∃ s, (sys P).Reach s ∧ p s = true := by
  obtain ⟨s, hs, hp⟩ := reach_of_playsIf (G := fun _ _ => True)
    (fun _ _ _ => ⟨trivial, trivial, trivial⟩) ts h
  exact ⟨s, hs.of_restrict, hp⟩

end Schedule

end Semaphore
