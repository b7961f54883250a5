import IntroSystems.Lib.Transition
import Mathlib.Data.Finset.Card
import Mathlib.Data.Fintype.Basic
import Mathlib.Data.List.Nodup
import Mathlib.Logic.Function.Basic

/-!
# Monitors

Threads run critical sections under one lock. A section ends by releasing the lock, or by waiting
on a condition: the thread joins the condition's queue, and once a signal has taken it out it must
get the lock again before it goes on. A signal on an empty queue is lost.

* `Program`, `State`, `Step`, `sys`. A section without a result has undefined behaviour.
* `signal`, `mem_signals`: signals only shorten queues; `head_notMem_signals`: one wakes the
  head.
* `turns`, `reach_of_turns`: the state that a schedule leads to; **`exists_quiescent`**: a run that
  makes the active threads fewer and fewer.
* **`reach_queued`**: in every run a thread is in at most one queue, once, and not while it holds
  the lock.
-/

set_option autoImplicit false

namespace Monitor

/-- How a critical section ends, with the point the thread goes on from. -/
inductive Exit (C L : Type)
  | leave (next : L)
  | wait (c : C) (resume : L)
  deriving DecidableEq

/-- The point the thread goes on from. -/
def Exit.next {C L : Type} : Exit C L → L
  | .leave l => l
  | .wait _ l => l

@[simp] theorem Exit.next_leave {C L : Type} (l : L) : (Exit.leave l : Exit C L).next = l := rfl

@[simp] theorem Exit.next_wait {C L : Type} (c : C) (l : L) : (Exit.wait c l).next = l := rfl

/-- Threads `T` with program points `L`, data `D` under the lock, and conditions `C`. The section
of a thread at a point gives the new data and the signals sent. -/
structure Program (T L D C : Type) where
  start : L
  data : D
  finished : L → Bool
  body : T → L → D → Option (D × List C × Exit C L)

structure State (T L D C : Type) where
  data : D
  pc : T → L
  queue : C → List T
  holder : Option T

variable {T L D C : Type} [DecidableEq C]

/-! ## Signals -/

/-- Take the head out of the queue of `c`. -/
def signal (queue : C → List T) (c : C) : C → List T := Function.update queue c (queue c).tail

def signals (queue : C → List T) (cs : List C) : C → List T := cs.foldl signal queue

theorem signal_self (queue : C → List T) (c : C) : signal queue c c = (queue c).tail :=
  Function.update_self _ _ _

theorem signal_of_ne (queue : C → List T) {c c' : C} (h : c' ≠ c) : signal queue c c' = queue c' :=
  Function.update_of_ne h _ _

theorem signal_sublist (queue : C → List T) (c c' : C) :
    (signal queue c c').Sublist (queue c') := by
  by_cases h : c' = c
  · subst h
    rw [signal_self]
    exact List.tail_sublist _
  · rw [signal_of_ne _ h]

theorem signals_sublist (queue : C → List T) (cs : List C) (c : C) :
    (signals queue cs c).Sublist (queue c) := by
  induction cs generalizing queue with
  | nil => exact List.Sublist.refl _
  | cons a cs ih => exact (ih (signal queue a)).trans (signal_sublist queue a c)

theorem mem_signals {queue : C → List T} (cs : List C) {c : C} {t : T}
    (h : t ∈ signals queue cs c) : t ∈ queue c := (signals_sublist queue cs c).subset h

/-- **A signal wakes the head of its queue.** -/
theorem head_notMem_signals (queue : C → List T) (hn : ∀ c, (queue c).Nodup)
    (hu : ∀ c c' t, t ∈ queue c → t ∈ queue c' → c = c') {c : C} {t : T} {q : List T}
    (hq : queue c = t :: q) {cs : List C} (hc : c ∈ cs) (c' : C) : t ∉ signals queue cs c' := by
  induction cs generalizing queue q with
  | nil => exact absurd hc List.not_mem_nil
  | cons a cs ih =>
    intro hm
    have hmc := hu c' c t (mem_signals (a :: cs) hm) (by simp [hq])
    subst hmc
    have hnd := hn c'
    rw [hq, List.nodup_cons] at hnd
    by_cases ha : a = c'
    · -- the signal takes the head, which is not in the tail
      subst ha
      have h1 : t ∈ signal queue a a := mem_signals cs hm
      rw [signal_self, hq] at h1
      exact hnd.1 h1
    · have hkeep : signal queue a c' = t :: q := by rw [signal_of_ne _ (Ne.symm ha), hq]
      refine ih (signal queue a) ?_ ?_ hkeep ?_ hm
      · exact fun b => (hn b).sublist (signal_sublist queue a b)
      · exact fun b b' u h1 h2 => hu b b' u ((signal_sublist queue a b).subset h1)
          ((signal_sublist queue a b').subset h2)
      · exact (List.mem_cons.mp hc).resolve_left fun e => ha e.symm

/-- The queues after a section that sent `cs`. -/
def queueAfter (queue : C → List T) (t : T) (cs : List C) : Exit C L → C → List T
  | .leave _ => signals queue cs
  | .wait c _ => Function.update (signals queue cs) c (signals queue cs c ++ [t])

theorem mem_queueAfter {queue : C → List T} {t u : T} {cs : List C} {e : Exit C L} {c : C}
    (h : u ∈ queueAfter queue t cs e c) : u ∈ queue c ∨ u = t ∧ ∃ l, e = .wait c l := by
  cases e with
  | leave l => exact .inl (mem_signals cs h)
  | wait c₀ l =>
    rw [queueAfter] at h
    by_cases hc : c = c₀
    · subst hc
      rw [Function.update_self, List.mem_append, List.mem_singleton] at h
      exact h.imp (mem_signals cs) fun h => ⟨h, l, rfl⟩
    · rw [Function.update_of_ne hc] at h
      exact .inl (mem_signals cs h)

theorem nodup_queueAfter {queue : C → List T} (hn : ∀ c, (queue c).Nodup) {t : T}
    (ht : ∀ c, t ∉ queue c) (cs : List C) (e : Exit C L) (c : C) :
    (queueAfter queue t cs e c).Nodup := by
  have hsub : (signals queue cs c).Nodup := (hn c).sublist (signals_sublist _ _ _)
  cases e with
  | leave l => exact hsub
  | wait c₀ l =>
    rw [queueAfter]
    by_cases hc : c = c₀
    · subst hc
      rw [Function.update_self]
      refine List.nodup_append.mpr ⟨hsub, List.nodup_singleton t, ?_⟩
      intro u hu v hv e
      rw [List.mem_singleton.mp hv] at e
      exact ht c (e ▸ mem_signals cs hu)
    · rw [Function.update_of_ne hc]
      exact hsub

/-! ## Steps -/

variable [DecidableEq T]

/-- The thread waits in some queue. -/
def State.Blocked (s : State T L D C) (t : T) : Prop := ∃ c, t ∈ s.queue c

/-- The state after thread `t` has run its section. -/
def State.after (s : State T L D C) (t : T) (r : D × List C × Exit C L) : State T L D C where
  data := r.1
  pc := Function.update s.pc t r.2.2.next
  queue := queueAfter s.queue t r.2.1 r.2.2
  holder := none

@[simp] theorem State.after_pc_self (s : State T L D C) (t : T) (r : D × List C × Exit C L) :
    (s.after t r).pc t = r.2.2.next := Function.update_self _ _ _

theorem State.after_pc_of_ne (s : State T L D C) {t u : T} (r : D × List C × Exit C L)
    (h : u ≠ t) : (s.after t r).pc u = s.pc u := Function.update_of_ne h _ _

/-- What a thread does: it gets the lock, or runs its section up to the release of the lock. -/
inductive Act (T : Type)
  | lock (t : T)
  | run (t : T)

inductive Step (P : Program T L D C) : State T L D C → Act T → State T L D C → Prop
  | lock {s : State T L D C} {t : T} : s.holder = none → ¬s.Blocked t →
      P.finished (s.pc t) = false → Step P s (.lock t) { s with holder := some t }
  | run {s : State T L D C} {t : T} {r : D × List C × Exit C L} : s.holder = some t →
      P.body t (s.pc t) s.data = some r → Step P s (.run t) (s.after t r)

/-- The runs of the program. -/
def sys (P : Program T L D C) : Sys (State T L D C) (Act T) where
  init s := s = ⟨P.data, fun _ => P.start, fun _ => [], none⟩
  step := Step P

/-- **A step's invariant**: getting the lock changes nothing but the holder. -/
theorem reach_induction {P : Program T L D C} {I : State T L D C → Prop}
    (h0 : I ⟨P.data, fun _ => P.start, fun _ => [], none⟩)
    (hlock : ∀ s t, I s → I { s with holder := some t })
    (hrun : ∀ s t r, (sys P).Reach s → I s → s.holder = some t →
      P.body t (s.pc t) s.data = some r → I (s.after t r)) {s : State T L D C}
    (hr : (sys P).Reach s) : I s := by
  refine hr.invariant ?_ ?_
  · intro s hs
    rw [show s = _ from hs]
    exact h0
  · intro s a s' hr hi hst
    cases hst with
    | lock _ _ _ => exact hlock s _ hi
    | run hh hb => exact hrun s _ _ hr hi hh hb

/-- A thread is in at most one queue, once, and not while it holds the lock. -/
structure Queued (s : State T L D C) : Prop where
  nodup : ∀ c, (s.queue c).Nodup
  unique : ∀ c c' t, t ∈ s.queue c → t ∈ s.queue c' → c = c'
  holder : ∀ t, s.holder = some t → ¬s.Blocked t

theorem Queued.after {s : State T L D C} (hq : Queued s) {t : T} (hb : ¬s.Blocked t)
    (r : D × List C × Exit C L) : Queued (s.after t r) := by
  have ht : ∀ c, t ∉ s.queue c := fun c hc => hb ⟨c, hc⟩
  refine ⟨nodup_queueAfter hq.nodup ht r.2.1 r.2.2, ?_, fun u hu => absurd hu (by simp [State.after])⟩
  intro c c' u h1 h2
  rcases mem_queueAfter h1 with k1 | ⟨rfl, l, he⟩
  · rcases mem_queueAfter h2 with k2 | ⟨rfl, -⟩
    · exact hq.unique c c' u k1 k2
    · exact absurd k1 (ht c)
  · rcases mem_queueAfter h2 with k2 | ⟨-, l', he'⟩
    · exact absurd k2 (ht c')
    · rw [he] at he'
      injection he'

/-- **The queues in every run.** -/
theorem reach_queued {P : Program T L D C} {s : State T L D C} (hr : (sys P).Reach s) :
    Queued s := by
  refine hr.invariant ?_ ?_
  · intro s hs
    rw [show s = _ from hs]
    exact ⟨fun _ => List.nodup_nil, fun _ _ _ h => absurd h List.not_mem_nil,
      fun _ h => absurd h (by simp)⟩
  · intro s a s' _ hq hst
    cases hst with
    | lock _ hb _ =>
      refine ⟨hq.nodup, hq.unique, fun u hu => ?_⟩
      obtain rfl := Option.some.inj hu
      exact hb
    | run hh _ => exact hq.after (hq.holder _ hh) _

/-! ## Schedules -/

/-- A thread that is neither finished nor waiting. -/
def Active (P : Program T L D C) (s : State T L D C) (t : T) : Prop :=
  P.finished (s.pc t) = false ∧ ¬s.Blocked t

theorem moves_run {P : Program T L D C} {s : State T L D C} {t : T} {r : D × List C × Exit C L}
    (hh : s.holder = none) (ha : Active P s t) (hr : P.body t (s.pc t) s.data = some r) :
    (sys P).Moves s (s.after t r) := by
  have h1 : Step P s (.lock t) { s with holder := some t } := .lock hh ha.2 ha.1
  have h2 : Step P { s with holder := some t } (.run t) (s.after t r) := .run rfl hr
  exact (Sys.Moves.single _ h1).trans (Sys.Moves.single _ h2)

/-- **Quiescence**: if an active thread can always become inactive without activating another one,
a run leads to a state where no thread is active. -/
theorem exists_quiescent [Fintype T] {P : Program T L D C} {I : State T L D C → Prop}
    (hstep : ∀ s t, I s → Active P s t → ∃ s', (sys P).Moves s s' ∧ I s' ∧ ¬Active P s' t ∧
      ∀ u, Active P s' u → Active P s u) {s : State T L D C} (h : I s) :
    ∃ s', (sys P).Moves s s' ∧ I s' ∧ ∀ t, ¬Active P s' t := by
  classical
  -- by induction on the number of active threads
  induction hn : (Finset.univ.filter (Active P s)).card using Nat.strong_induction_on
    generalizing s with
  | _ n ih =>
    by_cases hact : ∃ t, Active P s t
    · obtain ⟨t, ht⟩ := hact
      obtain ⟨s₁, hm, h1, hnt, hsub⟩ := hstep s t h ht
      have hlt : (Finset.univ.filter (Active P s₁)).card < n := by
        rw [← hn]
        refine Finset.card_lt_card ((Finset.ssubset_iff_of_subset ?_).mpr ⟨t, ?_, ?_⟩)
        · intro u hu
          simp only [Finset.mem_filter, Finset.mem_univ, true_and] at hu ⊢
          exact hsub u hu
        · simpa using ht
        · simpa using hnt
      obtain ⟨s₂, hm₂, h2, hq⟩ := ih _ hlt h1 rfl
      exact ⟨s₂, hm.trans hm₂, h2, hq⟩
    · exact ⟨s, .refl s, h, fun t ht => hact ⟨t, ht⟩⟩

section Schedule

variable [Fintype C]

/-- Thread `t` gets the lock and runs its section, if it can. -/
def turn (P : Program T L D C) (s : State T L D C) (t : T) : Option (State T L D C) :=
  if s.holder = none ∧ (∀ c, t ∉ s.queue c) ∧ P.finished (s.pc t) = false then
    (P.body t (s.pc t) s.data).map (s.after t)
  else none

theorem moves_turn {P : Program T L D C} {s s' : State T L D C} {t : T}
    (h : turn P s t = some s') : (sys P).Moves s s' := by
  unfold turn at h
  split_ifs at h with hc
  obtain ⟨hh, hb, hf⟩ := hc
  obtain ⟨r, hr, rfl⟩ := Option.map_eq_some_iff.mp h
  exact moves_run hh ⟨hf, fun ⟨c, hm⟩ => hb c hm⟩ hr

/-- The turns of the threads `ts`, one after the other. -/
def turns (P : Program T L D C) (s : State T L D C) (ts : List T) : Option (State T L D C) :=
  ts.foldlM (turn P) s

theorem moves_turns {P : Program T L D C} {s s' : State T L D C} {ts : List T}
    (h : turns P s ts = some s') : (sys P).Moves s s' := by
  induction ts generalizing s with
  | nil =>
    obtain rfl := Option.some.inj h
    exact .refl s
  | cons t ts ih =>
    rw [turns, List.foldlM_cons] at h
    obtain ⟨s₁, h1, h2⟩ := Option.bind_eq_some_iff.mp h
    exact (moves_turn h1).trans (ih h2)

/-- **A schedule reaches a state** with whatever it is seen to have there. -/
theorem reach_of_turns {P : Program T L D C} {p : State T L D C → Bool} (ts : List T)
    (h : (turns P ⟨P.data, fun _ => P.start, fun _ => [], none⟩ ts).any p = true) :
    ∃ s, (sys P).Reach s ∧ p s = true := by
  rw [Option.any_eq_true_iff_get] at h
  obtain ⟨hs, hp⟩ := h
  exact ⟨_, Sys.Reach.moves (.init rfl) (moves_turns (Option.some_get hs).symm), hp⟩

end Schedule

end Monitor
