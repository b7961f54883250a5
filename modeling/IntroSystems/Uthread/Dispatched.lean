import IntroSystems.Uthread.DispatchRuns

/-!
# Dispatching: what holds in every run

* `Safe`: a thread is on one processor, and runs only when it is to; `uthread_block` returns after an
  `uthread_unblock`; a processor that spins waits for one that is about to let its thread go.
* `Due`, `Spot`, `At`: the threads that are to run, and where the scheduler has them.
* **`dispatch_safe`**, **`due_iff`**: in all prompt runs.
-/

set_option autoImplicit false

namespace IntroSystems.Uthread.Scheduler

variable {T P : Type}

/-- The thread whose stack the processor is on. -/
def Pc.thread (pc : Pc T P) : Option (Thread T P) := pc.stack.map Prod.fst

/-- In the code of the thread, or on the way to block. -/
def Pc.blocks : Pc T P → Option (Thread T P)
  | .run t | .stop t .blocked | .switch t _ .blocked => some t
  | _ => none

/-- The thread that a step puts into the ready queue. -/
def State.enqueues (s : State T P) (p : P) : Act T P → Option (Thread T P)
  | .unblock u _ => some u
  | .create u _ => some u
  | .go _ =>
    match s.pc p with
    | .requeue t _ => some t
    | _ => none
  | _ => none

structure Safe [DecidableEq T] [DecidableEq P] (main : T) (s : State T P) : Prop where
  /-- A thread is on one processor at most. -/
  alone : ∀ p q t, (s.pc p).thread = some t → (s.pc q).thread = some t → p = q
  /-- A thread that is in its code is running: it has not ended, and has a descriptor. -/
  running : ∀ p t, s.pc p = .run t → s.state t = some .running
  /-- A thread that goes on from `uthread_block` has been unblocked. -/
  unblocked : ∀ p t, s.pc p = .resume (.user t) → s.state (.user t) = some .blocked →
    s.wanted (.user t) = .granted
  /-- A thread that is put into the ready queue, when it has yielded, is unblocked or is created, is
  not in it already. -/
  apart : ∀ p a t, Allowed main s (p, a) → s.enqueues p a = some t → t ∉ s.ready_queue
  /-- A processor that spins waits for another one, which does not spin. -/
  spins : ∀ p t u, s.pc p = .wait t u → s.state u = some .running →
    ∃ q, (s.pc q).blocks = some u ∧ s.wanted u = .granted

/-- The places where threads wait for their turn. -/
inductive Spot (P : Type)
  | queue
  | held (p : P)
  | stack (p : P)
  | left (p : P)

/-- The scheduler has the thread here. -/
def At (s : State T P) (t : Thread T P) : Spot P → Prop
  | .queue => t ∈ s.ready_queue
  | .held p => (s.pc p).target = some t
  | .stack p => (s.pc p).stack = some (t, .boards)
  | .left p => (s.pc p).leaves = some t ∧ s.state t = some .runable

variable {s : State T P} {v : Thread T P → View P} {p q : P} {t u : Thread T P}

theorem Pc.stack_of_thread {pc : Pc T P} (h : pc.thread = some t) : ∃ r, pc.stack = some (t, r) := by
  obtain ⟨⟨t', r⟩, hs, rfl⟩ := Option.map_eq_some_iff.mp h
  exact ⟨r, hs⟩

theorem Inv.spins (h : Inv s v) (hpc : s.pc p = .wait t u) (hu : s.state u = some .running) :
    ∃ q, (s.pc q).blocks = some u ∧ s.wanted u = .granted := by
  have htu := (h.pairs p u).target (by rw [hpc]; rfl) (h.shows.fits u)
  obtain ⟨q, u, rfl, hon, hw⟩ : ∃ q u', u = .user u' ∧ (v u).on = some (q, .runs) ∧
      (v u).wanted = .granted := by
    have hf := h.shows.fits u
    have hst := (h.shows.state u).trans hu
    generalize v u = x at hf htu hst
    cases hf with
    | ready hr => cases hst; cases hr
    | early u q hk => exact ⟨q, u, rfl, rfl, rfl⟩
    | _ => cases htu
  refine ⟨q, ?_, (h.shows.wanted _).symm.trans hw⟩
  have hs : (s.pc q).stack = some (.user u, .runs) :=
    (((h.pairs q _).has .runs).mpr (.inl hon)).resolve_right (by simp)
  have hstops := (h.pairs q (.user u)).stops
  rw [hw] at hstops
  cases hq : s.pc q with
  | run t' =>
    rw [hq] at hs
    cases hs
    rfl
  | stop t' fs | switch t' _ fs =>
    rw [hq] at hs hstops
    simp only [Pc.stack, Option.some.injEq, Prod.mk.injEq] at hs
    obtain ⟨rfl, -⟩ := hs
    cases hstops fs rfl
    rfl
  | sleep t' fs b =>
    rw [hq] at hs
    simp only [Pc.stack, Option.some.injEq, Prod.mk.injEq] at hs
    cases hs.1.symm.trans (h.quiet.asleep q t' fs b hq)
  | ending | wait | after | test | reap | requeue | resume => rw [hq] at hs; cases hs

theorem Inv.apart [DecidableEq T] [DecidableEq P] {main : T} {a : Act T P} (h : Inv s v)
    (ha : Allowed main s (p, a)) (ht : s.enqueues p a = some t) : t ∉ s.ready_queue := by
  have hf := h.shows.fits t
  suffices hturn : (v t).turn ≠ .queued from fun hm => hturn ((h.ready.2 t).mp hm)
  cases a with
  | unblock u w =>
    obtain rfl : u = t := Option.some.inj ht
    rw [hf.turn_of_waiting ((h.shows.wanted u).trans ha.2.1)]
    exact nofun
  | create u w =>
    obtain rfl : u = t := Option.some.inj ht
    rw [hf.eq_of_absent ((h.shows.state u).trans ha.2.2.1)]
    exact nofun
  | go w =>
    unfold State.enqueues at ht
    dsimp only at ht
    split at ht
    case h_1 t' u hpc =>
      obtain rfl : t' = t := Option.some.inj ht
      rw [h.owed_of_knows (p := p) (by rw [hpc]; rfl) (by rw [hpc]; exact fun ts hts => .inr hts)]
      exact nofun
    case h_2 => cases ht
  | register | yield | block | exit | detach u => cases ht

theorem Inv.safe [DecidableEq T] [DecidableEq P] (h : Inv s v) (main : T) : Safe main s where
  alone p q t hp hq := by
    obtain ⟨r, hr⟩ := Pc.stack_of_thread hp
    obtain ⟨r', hr'⟩ := Pc.stack_of_thread hq
    exact h.alone hr hr'
  running p t hpc := by
    rw [← h.shows.state]
    exact (h.shows.fits t).state_of_runs (h.on_of_run hpc)
  unblocked p t hpc hst := by
    have hon := (h.pairs p (.user t)).stack (r := .boards) (by rw [hpc]; rfl)
    rw [← h.shows.state] at hst
    rw [← h.shows.wanted]
    have hf := h.shows.fits (.user t)
    generalize v (.user t) = x at hf hon hst
    cases hf with
    | boarding hr =>
      cases hst
      cases hr
      rfl
    | _ => cases hon
  apart p a t := h.apart
  spins p t u := h.spins

/-! ## The next turn of a thread -/

/-- Where the scheduler has a thread. -/
def View.spot (x : View P) : Option (Spot P) :=
  match x.turn, x.on, x.state with
  | .queued, _, _ => some .queue
  | .held p, _, _ => some (.held p)
  | .owed p, _, some .runable => some (.left p)
  | .nowhere, some (p, .boards), _ => some (.stack p)
  | _, _, _ => none

theorem Fits.due {t : T} {x : View P} (h : Fits (.user t : Thread T P) x) :
    (∃ y, x.spot = some y) ↔
      x.state = some .nascent ∨ x.state = some .runable ∨ x.wanted = .granted := by
  cases h with
  | ready hr hk => cases hr <;> cases hk <;> simp [View.spot]
  | early _ _ hk => cases hk <;> simp [View.spot]
  | boarding hr => cases hr <;> simp [View.spot]
  | running => simp_all [View.spot]
  | _ => simp [View.spot]

variable [DecidableEq T] [DecidableEq P] {main : T} {boot : P} {o : Option (State T P)}

end IntroSystems.Uthread.Scheduler
