import IntroSystems.Lib.Transition
import Mathlib.Data.Finset.Max
import Mathlib.Data.Fintype.Basic
import Mathlib.Data.Set.Insert
import Mathlib.Logic.Function.Basic

/-!
# Threads and locks

Threads share resources. A resource has a mutex, a condition and a flag, a variable that any thread
may read and write at any time. One instruction is one step, and the steps of the threads
interleave.

* `Instr`, `Program`, `State`, `Step`, `sys`. A thread cannot step while the mutex it wants is held,
  and while it sleeps on a condition; an `unlock`, a `wait` or a `signal` by another thread than the
  holder is a failed assertion, and has no step.
* `Roles`: what a thread at a point of its program holds and has in use. `Roles.Fit`: the program
  keeps to them. **`Roles.Fit.reach`**: then so does every run.
* **`Roles.Fit.not_stuck`**: no deadlock, if what blocked threads wait for is of ever higher rank.
* `turns`, `reach_of_turns`: the state that a schedule leads to.
-/

set_option autoImplicit false

namespace Locks

/-- What a thread does next, and where it goes on. -/
inductive Instr (R L : Type)
  | lock (r : R) (next : L)
  | unlock (r : R) (next : L)
  | wait (r : R) (next : L)
  | signal (r : R) (next : L)
  | read (r : R) (next : ℤ → L)
  | write (r : R) (v : ℤ) (next : L)
  | toss (next : Bool → L)
  | goto (next : L)
  | stop

/-- Threads `T` with program points `L`, and resources `R`. -/
structure Program (T R L : Type) where
  start : L
  flag : R → ℤ
  instr : T → L → Instr R L

structure State (T R L : Type) where
  pc : T → L
  holder : R → Option T
  flag : R → ℤ
  queue : R → List T

variable {T R L : Type}

/-! ## Steps -/

/-- The thread sleeps on some condition. -/
def State.Asleep (s : State T R L) (t : T) : Prop := ∃ r, t ∈ s.queue r

section Updates

variable [DecidableEq T]

def State.goto (s : State T R L) (t : T) (l : L) : State T R L :=
  { s with pc := Function.update s.pc t l }

theorem State.goto_pc_self (s : State T R L) (t : T) (l : L) : (s.goto t l).pc t = l :=
  Function.update_self _ _ _

theorem State.goto_pc_of_ne (s : State T R L) {t u : T} (h : u ≠ t) (l : L) :
    (s.goto t l).pc u = s.pc u := Function.update_of_ne h _ _

omit [DecidableEq T]
variable [DecidableEq R]

def State.setHolder (s : State T R L) (r : R) (o : Option T) : State T R L :=
  { s with holder := Function.update s.holder r o }

@[simp] theorem State.setHolder_pc (s : State T R L) (r : R) (o : Option T) :
    (s.setHolder r o).pc = s.pc := rfl

def State.setFlag (s : State T R L) (r : R) (v : ℤ) : State T R L :=
  { s with flag := Function.update s.flag r v }

@[simp] theorem State.setFlag_pc (s : State T R L) (r : R) (v : ℤ) :
    (s.setFlag r v).pc = s.pc := rfl

theorem State.setFlag_self (s : State T R L) (r : R) (v : ℤ) : (s.setFlag r v).flag r = v :=
  Function.update_self _ _ _

theorem State.setFlag_of_ne (s : State T R L) {r r' : R} (h : r' ≠ r) (v : ℤ) :
    (s.setFlag r v).flag r' = s.flag r' := Function.update_of_ne h _ _

def State.setQueue (s : State T R L) (r : R) (q : List T) : State T R L :=
  { s with queue := Function.update s.queue r q }

end Updates

variable [DecidableEq T] [DecidableEq R]

def State.initial (P : Program T R L) : State T R L :=
  ⟨fun _ => P.start, fun _ => none, P.flag, fun _ => []⟩

/-- The thread is blocked: asleep, or before a mutex that is held. -/
def Blocked (P : Program T R L) (s : State T R L) (t : T) : Prop :=
  s.Asleep t ∨ ∃ r l, P.instr t (s.pc t) = .lock r l ∧ s.holder r ≠ none

/-- Nobody can go on, though not everybody is finished. -/
def Stuck (P : Program T R L) (s : State T R L) : Prop :=
  (∃ t, P.instr t (s.pc t) ≠ .stop) ∧ ∀ t, P.instr t (s.pc t) ≠ .stop → Blocked P s t

/-- The state after an instruction of thread `t`, if it can be executed. The bit is the outcome of a
toss. -/
def exec (s : State T R L) (t : T) (coin : Bool) : Instr R L → Option (State T R L)
  | .lock r l => if s.holder r = none then some ((s.goto t l).setHolder r (some t)) else none
  | .unlock r l => if s.holder r = some t then some ((s.goto t l).setHolder r none) else none
  | .wait r l =>
    if s.holder r = some t then
      some (((s.goto t l).setHolder r none).setQueue r (s.queue r ++ [t]))
    else none
  | .signal r l =>
    if s.holder r = some t then some ((s.goto t l).setQueue r (s.queue r).tail) else none
  | .read r next => some (s.goto t (next (s.flag r)))
  | .write r v l => some ((s.goto t l).setFlag r v)
  | .toss next => some (s.goto t (next coin))
  | .goto l => some (s.goto t l)
  | .stop => none

/-- Where an instruction leads to. -/
def Instr.next (flag : R → ℤ) (coin : Bool) : Instr R L → Option L
  | .lock _ l | .unlock _ l | .wait _ l | .signal _ l | .write _ _ l | .goto l => some l
  | .read r next => some (next (flag r))
  | .toss next => some (next coin)
  | .stop => none

theorem exec_pc {s s' : State T R L} {t : T} {coin : Bool} {i : Instr R L}
    (h : exec s t coin i = some s') :
    ∃ l, i.next s.flag coin = some l ∧ s'.pc = Function.update s.pc t l := by
  cases i with
  | lock r l | unlock r l | wait r l | signal r l =>
    obtain ⟨-, h2⟩ := Option.ite_none_right_eq_some.mp h
    obtain rfl := Option.some.inj h2
    exact ⟨l, rfl, rfl⟩
  | stop => exact absurd h (by simp [exec])
  | _ =>
    obtain rfl := Option.some.inj h
    exact ⟨_, rfl, rfl⟩

inductive Step (P : Program T R L) : State T R L → T × Bool → State T R L → Prop
  | run {s s' : State T R L} {t : T} {coin : Bool} : ¬s.Asleep t →
      exec s t coin (P.instr t (s.pc t)) = some s' → Step P s (t, coin) s'

/-- The runs of the program. -/
def sys (P : Program T R L) : Sys (State T R L) (T × Bool) where
  init s := s = .initial P
  step := Step P

/-! ## Roles -/

/-- What a thread at a point holds, which flags it has cleared, and whether it comes there. -/
structure Roles (T R L : Type) where
  holds : T → L → Set R
  uses : T → L → Set R
  visits : T → L → Prop

namespace Roles

variable (ρ : Roles T R L)

/-- A move from `l` to `l'` that changes neither what `t` holds nor what it uses. -/
structure Same (t : T) (l l' : L) : Prop where
  visits : ρ.visits t l'
  holds : ρ.holds t l' = ρ.holds t l
  uses : ρ.uses t l' = ρ.uses t l

/-- The instruction of `t` at `l` does what the roles say. The flag of a resource that `t` holds
without using it is known to be 1. -/
def Obeys (t : T) (l : L) : Instr R L → Prop
  | .lock r l' => ρ.visits t l' ∧ ρ.holds t l' = insert r (ρ.holds t l) ∧
      ρ.uses t l' = ρ.uses t l
  | .unlock r l' => ρ.visits t l' ∧ r ∈ ρ.holds t l ∧ ρ.holds t l' = ρ.holds t l \ {r} ∧
      ρ.uses t l' = ρ.uses t l
  | .wait _ _ => False
  | .signal r l' => r ∈ ρ.holds t l ∧ ρ.Same t l l'
  | .read r next => ∀ v, (r ∈ ρ.holds t l → r ∉ ρ.uses t l → v = 1) → ρ.Same t l (next v)
  | .write r v l' => ρ.visits t l' ∧ r ∈ ρ.holds t l ∧ ρ.holds t l' = ρ.holds t l ∧
      (v = 0 ∧ ρ.uses t l' = insert r (ρ.uses t l) ∨ v = 1 ∧ ρ.uses t l' = ρ.uses t l \ {r})
  | .toss next => ∀ b, ρ.Same t l (next b)
  | .goto l' => ρ.Same t l l'
  | .stop => ρ.holds t l = ∅

/-- The program keeps to the roles. -/
structure Fit (P : Program T R L) : Prop where
  visits_start : ∀ t, ρ.visits t P.start
  holds_start : ∀ t, ρ.holds t P.start = ∅
  flag_start : ∀ r, P.flag r = 1
  uses_subset : ∀ t l, ρ.visits t l → ρ.uses t l ⊆ ρ.holds t l
  obeys : ∀ t l, ρ.visits t l → ρ.Obeys t l (P.instr t l)

/-- A state in which the mutexes and flags are as the roles of the threads say. -/
structure Inv (s : State T R L) : Prop where
  visits : ∀ t, ρ.visits t (s.pc t)
  holder : ∀ r t, s.holder r = some t ↔ r ∈ ρ.holds t (s.pc t)
  used : ∀ t, ∀ r ∈ ρ.uses t (s.pc t), s.flag r = 0
  unused : ∀ r, (∀ t, r ∉ ρ.uses t (s.pc t)) → s.flag r = 1
  queue : ∀ r, s.queue r = []

variable {ρ} {P : Program T R L} {s s' : State T R L} {t u : T} {r : R} {l : L}

omit [DecidableEq T] [DecidableEq R]

theorem Inv.not_asleep (hi : ρ.Inv s) (t : T) : ¬s.Asleep t := by
  rintro ⟨r, hr⟩
  rw [hi.queue r] at hr
  exact absurd hr List.not_mem_nil

/-- **Mutual exclusion.** -/
theorem Inv.holds_unique (hi : ρ.Inv s) (ht : r ∈ ρ.holds t (s.pc t))
    (hu : r ∈ ρ.holds u (s.pc u)) : t = u :=
  Option.some.inj (((hi.holder r t).mpr ht).symm.trans ((hi.holder r u).mpr hu))

theorem Inv.holder_of_release (hi : ρ.Inv s) (hf : ρ.Fit P)
    (h : P.instr t (s.pc t) = .unlock r l ∨ P.instr t (s.pc t) = .wait r l) :
    s.holder r = some t := by
  have ho := hf.obeys t _ (hi.visits t)
  rcases h with h | h <;> rw [h] at ho
  · exact (hi.holder r t).mpr ho.2.1
  · exact ho.elim

theorem Inv.holder_of_stop (hi : ρ.Inv s) (hf : ρ.Fit P) (h : P.instr t (s.pc t) = .stop) (r : R) :
    s.holder r ≠ some t := by
  have ho := hf.obeys t _ (hi.visits t)
  rw [h] at ho
  rw [ne_eq, hi.holder, show ρ.holds t (s.pc t) = ∅ from ho]
  exact Set.notMem_empty r

theorem Inv.not_holds (hi : ρ.Inv s) (h : s.holder r = none) (t : T) : r ∉ ρ.holds t (s.pc t) := by
  intro ht
  rw [← hi.holder, h] at ht
  exact absurd ht (by simp)

theorem Inv.flag_of_holds (hi : ρ.Inv s) (hf : ρ.Fit P) (ht : r ∈ ρ.holds t (s.pc t))
    (hu : r ∉ ρ.uses t (s.pc t)) : s.flag r = 1 := by
  refine hi.unused r fun u hru => ?_
  obtain rfl := hi.holds_unique ht (hf.uses_subset u _ (hi.visits u) hru)
  exact hu hru

theorem Inv.flag_of_free (hi : ρ.Inv s) (hf : ρ.Fit P) (h : s.holder r = none) : s.flag r = 1 :=
  hi.unused r fun u hru => hi.not_holds h u (hf.uses_subset u _ (hi.visits u) hru)

theorem Inv.initial (hf : ρ.Fit P) : ρ.Inv (.initial P) := by
  have hh : ∀ t r, r ∉ ρ.holds t P.start := by
    intro t r hr
    rw [hf.holds_start t] at hr
    exact hr
  refine ⟨hf.visits_start, fun r t => ?_, fun t r hr => ?_, fun r _ => hf.flag_start r, fun r => rfl⟩
  · exact ⟨fun h => absurd h (by simp [State.initial]), fun h => absurd h (hh t r)⟩
  · exact absurd (hf.uses_subset t _ (hf.visits_start t) hr) (hh t r)

variable [DecidableEq T]

theorem Inv.goto (hi : ρ.Inv s) (h : ρ.Same t (s.pc t) l) : ρ.Inv (s.goto t l) := by
  have hh : ∀ u, ρ.holds u ((s.goto t l).pc u) = ρ.holds u (s.pc u) :=
    (Function.forall_update_iff s.pc fun u l => ρ.holds u l = ρ.holds u (s.pc u)).2
      ⟨h.holds, fun _ _ => rfl⟩
  have hu : ∀ u, ρ.uses u ((s.goto t l).pc u) = ρ.uses u (s.pc u) :=
    (Function.forall_update_iff s.pc fun u l => ρ.uses u l = ρ.uses u (s.pc u)).2
      ⟨h.uses, fun _ _ => rfl⟩
  refine ⟨?_, fun r u => ?_, fun u => ?_, fun r hr => hi.unused r fun u => ?_, hi.queue⟩
  · exact (Function.forall_update_iff s.pc ρ.visits).2 ⟨h.visits, fun u _ => hi.visits u⟩
  · rw [hh]
    exact hi.holder r u
  · rw [hu]
    exact hi.used u
  · rw [← hu]
    exact hr u

variable [DecidableEq R]

theorem Inv.lock (hi : ρ.Inv s) (h : s.holder r = none) (hv : ρ.visits t l)
    (hh : ρ.holds t l = insert r (ρ.holds t (s.pc t))) (hu : ρ.uses t l = ρ.uses t (s.pc t)) :
    ρ.Inv ((s.goto t l).setHolder r (some t)) := by
  have hu' : ∀ u, ρ.uses u ((s.goto t l).pc u) = ρ.uses u (s.pc u) :=
    (Function.forall_update_iff s.pc fun u l => ρ.uses u l = ρ.uses u (s.pc u)).2
      ⟨hu, fun _ _ => rfl⟩
  refine ⟨?_, fun r' u => ?_, fun u => ?_, fun r' hr => hi.unused r' fun u => ?_, hi.queue⟩
  · exact (Function.forall_update_iff s.pc ρ.visits).2 ⟨hv, fun u _ => hi.visits u⟩
  · have hold := hi.holder r' u
    have hfree := hi.not_holds h u
    simp only [State.setHolder, State.goto, Function.update_apply]
    split_ifs with h1 h2 h2
    · simp [h1, h2, hh]
    · simp [h1, hfree, Ne.symm h2]
    · subst h2
      simp [hold, hh, h1]
    · exact hold
  · rw [State.setHolder_pc, hu']
    exact hi.used u
  · rw [← hu']
    exact hr u

theorem Inv.unlock (hi : ρ.Inv s) (hr : r ∈ ρ.holds t (s.pc t)) (hv : ρ.visits t l)
    (hh : ρ.holds t l = ρ.holds t (s.pc t) \ {r}) (hu : ρ.uses t l = ρ.uses t (s.pc t)) :
    ρ.Inv ((s.goto t l).setHolder r none) := by
  have hu' : ∀ u, ρ.uses u ((s.goto t l).pc u) = ρ.uses u (s.pc u) :=
    (Function.forall_update_iff s.pc fun u l => ρ.uses u l = ρ.uses u (s.pc u)).2
      ⟨hu, fun _ _ => rfl⟩
  refine ⟨?_, fun r' u => ?_, fun u => ?_, fun r' hr => hi.unused r' fun u => ?_, hi.queue⟩
  · exact (Function.forall_update_iff s.pc ρ.visits).2 ⟨hv, fun u _ => hi.visits u⟩
  · have hold := hi.holder r' u
    have honly : r ∈ ρ.holds u (s.pc u) → u = t := fun h => hi.holds_unique h hr
    simp only [State.setHolder, State.goto, Function.update_apply]
    split_ifs with h1 h2 h2
    · simp [h1, h2, hh]
    · subst h1
      simpa using fun h => h2 (honly h)
    · subst h2
      simp [hold, hh, h1]
    · exact hold
  · rw [State.setHolder_pc, hu']
    exact hi.used u
  · rw [← hu']
    exact hr u

theorem Inv.write (hi : ρ.Inv s) (hf : ρ.Fit P) (hr : r ∈ ρ.holds t (s.pc t)) (hv : ρ.visits t l)
    (hh : ρ.holds t l = ρ.holds t (s.pc t)) {v : ℤ}
    (hu : v = 0 ∧ ρ.uses t l = insert r (ρ.uses t (s.pc t)) ∨
      v = 1 ∧ ρ.uses t l = ρ.uses t (s.pc t) \ {r}) : ρ.Inv ((s.goto t l).setFlag r v) := by
  have hh' : ∀ u, ρ.holds u ((s.goto t l).pc u) = ρ.holds u (s.pc u) :=
    (Function.forall_update_iff s.pc fun u l => ρ.holds u l = ρ.holds u (s.pc u)).2
      ⟨hh, fun _ _ => rfl⟩
  -- nobody else uses `r`, and no other use changes
  have hother : ∀ u, u ≠ t → r ∉ ρ.uses u (s.pc u) := fun u hne h =>
    hne (hi.holds_unique (hf.uses_subset u _ (hi.visits u) h) hr)
  have hkeep : ∀ u r', r' ≠ r → (r' ∈ ρ.uses u ((s.goto t l).pc u) ↔ r' ∈ ρ.uses u (s.pc u)) := by
    intro u r' hne
    by_cases hut : u = t
    · subst hut
      rw [State.goto_pc_self]
      rcases hu with ⟨-, hu⟩ | ⟨-, hu⟩ <;> rw [hu] <;> simp [hne]
    · rw [State.goto_pc_of_ne _ hut]
  have hown : r ∈ ρ.uses t ((s.goto t l).pc t) ↔ v = 0 := by
    rw [State.goto_pc_self]
    rcases hu with ⟨rfl, hu⟩ | ⟨rfl, hu⟩ <;> rw [hu] <;> simp
  refine ⟨?_, fun r' u => ?_, fun u r' hr' => ?_, fun r' hr' => ?_, hi.queue⟩
  · exact (Function.forall_update_iff s.pc ρ.visits).2 ⟨hv, fun u _ => hi.visits u⟩
  · rw [State.setFlag_pc, hh']
    exact hi.holder r' u
  · by_cases h1 : r' = r
    · subst h1
      by_cases hut : u = t
      · subst hut
        rw [State.setFlag_self]
        exact hown.mp hr'
      · rw [State.setFlag_pc, State.goto_pc_of_ne _ hut] at hr'
        exact absurd hr' (hother u hut)
    · rw [State.setFlag_of_ne _ h1]
      exact hi.used u r' ((hkeep u r' h1).mp hr')
  · by_cases h1 : r' = r
    · subst h1
      rw [State.setFlag_self]
      have h0 : v ≠ 0 := fun h => hr' t (hown.mpr h)
      exact hu.elim (fun h => absurd h.1 h0) fun h => h.1
    · rw [State.setFlag_of_ne _ h1]
      exact hi.unused r' fun u h => hr' u ((hkeep u r' h1).mpr h)

/-- **Each step keeps the roles.** -/
theorem Inv.exec (hi : ρ.Inv s) (hf : ρ.Fit P) {coin : Bool}
    (h : exec s t coin (P.instr t (s.pc t)) = some s') : ρ.Inv s' := by
  have ho := hf.obeys t _ (hi.visits t)
  generalize P.instr t (s.pc t) = i at h ho
  cases i with
  | lock r l =>
    obtain ⟨h1, h2⟩ := Option.ite_none_right_eq_some.mp h
    obtain rfl := Option.some.inj h2
    exact hi.lock h1 ho.1 ho.2.1 ho.2.2
  | unlock r l =>
    obtain ⟨-, h2⟩ := Option.ite_none_right_eq_some.mp h
    obtain rfl := Option.some.inj h2
    exact hi.unlock ho.2.1 ho.1 ho.2.2.1 ho.2.2.2
  | wait r l => exact ho.elim
  | signal r l =>
    obtain ⟨-, h2⟩ := Option.ite_none_right_eq_some.mp h
    have hq : (s.goto t l).setQueue r (s.queue r).tail = s.goto t l := by
      rw [State.setQueue, hi.queue r, List.tail_nil, ← hi.queue r]
      exact congrArg (State.mk _ _ _) (Function.update_eq_self r s.queue)
    rw [hq] at h2
    obtain rfl := Option.some.inj h2
    exact hi.goto ho.2
  | read r next =>
    obtain rfl := Option.some.inj h
    exact hi.goto (ho _ fun h1 h2 => hi.flag_of_holds hf h1 h2)
  | write r v l =>
    obtain rfl := Option.some.inj h
    exact hi.write hf ho.2.1 ho.1 ho.2.2.1 ho.2.2.2
  | toss next =>
    obtain rfl := Option.some.inj h
    exact hi.goto (ho coin)
  | goto l =>
    obtain rfl := Option.some.inj h
    exact hi.goto ho
  | stop => exact absurd h (by simp [Locks.exec])

/-- **The roles in every run.** -/
theorem Fit.reach (hf : ρ.Fit P) (hr : (sys P).Reach s) : ρ.Inv s := by
  refine hr.invariant ?_ ?_
  · intro s hs
    rw [show s = _ from hs]
    exact .initial hf
  · intro s a s' _ hi hst
    cases hst with
    | run _ h => exact hi.exec hf h

omit [DecidableEq T] [DecidableEq R] in
/-- **No deadlock**, if the holder of the mutex that a blocked thread waits for has a higher rank
whenever it is blocked itself. -/
theorem Fit.not_stuck [Fintype T] (hf : ρ.Fit P) (hi : ρ.Inv s) (rank : T → ℕ)
    (hrank : ∀ t u r l r' l', P.instr t (s.pc t) = .lock r l → r ∈ ρ.holds u (s.pc u) →
      P.instr u (s.pc u) = .lock r' l' → rank t < rank u) : ¬Stuck P s := by
  classical
  rintro ⟨⟨t₀, h0⟩, hall⟩
  -- a thread of the highest rank among those that are not finished
  obtain ⟨t, ht, hmax⟩ := Finset.exists_max_image
    (Finset.univ.filter fun t => P.instr t (s.pc t) ≠ .stop) rank ⟨t₀, by simpa using h0⟩
  simp only [Finset.mem_filter, Finset.mem_univ, true_and] at ht hmax
  obtain ⟨r, l, hl, hne⟩ := (hall t ht).resolve_left (hi.not_asleep t)
  obtain ⟨u, hu⟩ := Option.ne_none_iff_exists'.mp hne
  have hns : P.instr u (s.pc u) ≠ .stop := fun hs => hi.holder_of_stop hf hs r hu
  obtain ⟨r', l', hl', -⟩ := (hall u hns).resolve_left (hi.not_asleep u)
  have := hrank t u r l r' l' hl ((hi.holder r u).mp hu) hl'
  have := hmax u hns
  omega

end Roles

/-! ## Schedules -/

section Schedule

variable [Fintype R]

/-- The next instruction of a thread, if it can be executed. -/
def turn (P : Program T R L) (s : State T R L) (a : T × Bool) : Option (State T R L) :=
  if ∃ r, a.1 ∈ s.queue r then none else exec s a.1 a.2 (P.instr a.1 (s.pc a.1))

theorem step_of_turn {P : Program T R L} {s s' : State T R L} {a : T × Bool}
    (h : turn P s a = some s') : Step P s a s' := by
  unfold turn at h
  split_ifs at h with hq
  exact .run hq h

/-- The instructions of a schedule. -/
def turns (P : Program T R L) (s : State T R L) (as : List (T × Bool)) : Option (State T R L) :=
  as.foldlM (turn P) s

theorem moves_turns {P : Program T R L} {s s' : State T R L} {as : List (T × Bool)}
    (h : turns P s as = some s') : (sys P).Moves s s' := by
  induction as generalizing s with
  | nil =>
    obtain rfl := Option.some.inj h
    exact .refl s
  | cons a as ih =>
    rw [turns, List.foldlM_cons] at h
    obtain ⟨s₁, h1, h2⟩ := Option.bind_eq_some_iff.mp h
    have hst : (sys P).step s a s₁ := step_of_turn h1
    exact (Sys.Moves.single _ hst).trans (ih h2)

/-- **A schedule reaches a state** with whatever it is seen to have there. -/
theorem reach_of_turns {P : Program T R L} {p : State T R L → Bool} (as : List (T × Bool))
    (h : (turns P (.initial P) as).any p = true) : ∃ s, (sys P).Reach s ∧ p s = true := by
  rw [Option.any_eq_true_iff_get] at h
  obtain ⟨hs, hp⟩ := h
  exact ⟨_, Sys.Reach.moves (.init rfl) (moves_turns (Option.some_get hs).symm), hp⟩

end Schedule

end Locks
