import IntroSystems.Lib.Pairs
import IntroSystems.Uthread.Scheduler

/-!
# Dispatching

What the scheduler keeps, in runs that are prompt. A thread is on one processor at most, and has one
turn at most: in the ready queue, with a processor that is about to switch to it, or with one that
has still to put it into the ready queue.

* `View`: what there is to know of a thread. `Fits`: which of it goes together.
* `Pair`: what a processor and a thread know of each other. `Inv`; **`Inv.alone`**.
-/

set_option autoImplicit false

namespace IntroSystems.Uthread.Scheduler

variable {T P : Type}

/-! ## Processors and threads -/

/-- What a processor does with a thread. -/
inductive Role
  | boards
  | runs
  | ends
  | holds
  deriving DecidableEq

/-- On the way to leave its stack, a thread runs or ends. -/
def TS.role : TS → Role
  | .dying => .ends
  | _ => .runs

/-- The thread whose stack the processor is on. -/
def Pc.stack : Pc T P → Option (Thread T P × Role)
  | .run t => some (t, .runs)
  | .ending t => some (t, .ends)
  | .stop t fs | .sleep t fs _ | .switch t _ fs => some (t, fs.role)
  | .wait _ _ => none
  | .after _ u | .test _ u | .reap _ u | .requeue _ u | .resume u => some (u, .boards)

/-- The thread the processor is about to switch to. -/
def Pc.target : Pc T P → Option (Thread T P)
  | .switch _ u _ | .wait _ u => some u
  | _ => none

/-- The processor does this with the thread. -/
def Pc.Has (pc : Pc T P) (t : Thread T P) (r : Role) : Prop :=
  pc.stack = some (t, r) ∨ pc.target = some t ∧ r = .holds

/-- The thread that is going to leave its stack, and its `state` then. -/
def Pc.stops : Pc T P → Option (Thread T P × TS)
  | .stop t fs | .sleep t fs _ | .switch t _ fs => some (t, fs)
  | _ => none

/-- What the processor knows of the `state` of the thread it has switched from. -/
def Pc.Knows (ts : TS) : Pc T P → Prop
  | .test _ _ => ts ≠ .dying
  | .reap _ _ => ts = .dying
  | .requeue _ _ => ts = .runable
  | _ => True

/-- The thread that is going to yield or to end. -/
def Pc.settles : Pc T P → Option (Thread T P)
  | .ending t => some t
  | .stop t fs | .sleep t fs _ | .switch t _ fs => if fs = .blocked then none else some t
  | _ => none

/-- Where the next turn of a thread is. -/
inductive Turn (P : Type)
  | nowhere
  | queued
  | held (p : P)
  | owed (p : P)
  deriving DecidableEq

/-- A thread, and where it is. -/
structure View (P : Type) where
  state : Option TS
  wanted : Want
  on : Option (P × Role)
  turn : Turn P

/-- A processor does this with the thread. -/
def View.Has (v : View P) (p : P) (r : Role) : Prop :=
  v.on = some (p, r) ∨ v.turn = .held p ∧ r = .holds

/-- A thread that is to run. -/
inductive Runnable : Thread T P → TS → Want → Prop
  | nascent (t : Thread T P) : Runnable t .nascent .nothing
  | runable (t : T) : Runnable (.user t) .runable .nothing
  | granted (t : T) : Runnable (.user t) .blocked .granted
  | base (p : P) : Runnable (.base p) .blocked .nothing

/-- Base threads stay on their processors. -/
inductive Home : Thread T P → P → Prop
  | user (t : T) (p : P) : Home (.user t) p
  | base (p : P) : Home (.base p) p

/-- The turn comes without a processor that has to see to it. -/
inductive InLine : Thread T P → Turn P → Prop
  | queued (t : T) : InLine (.user t) .queued
  | held {t : Thread T P} {p : P} : Home t p → InLine t (.held p)

/-- What goes together. -/
inductive Fits : Thread T P → View P → Prop
  | absent (t : T) : Fits (.user t) ⟨none, .nothing, none, .nowhere⟩
  | dead (t : T) : Fits (.user t) ⟨some .dead, .nothing, none, .nowhere⟩
  | idle (p : P) {ts : TS} : Runnable (.base p : Thread T P) ts .nothing →
      Fits (.base p) ⟨some ts, .nothing, none, .nowhere⟩
  | serving (p : P) : Fits (.base p) ⟨some .running, .nothing, some (p, .runs), .nowhere⟩
  | ready {t : Thread T P} {ts : TS} {w : Want} {k : Turn P} : Runnable t ts w → InLine t k →
      Fits t ⟨some ts, w, none, k⟩
  | boarding {t : Thread T P} {ts : TS} {w : Want} {p : P} : Runnable t ts w → Home t p →
      Fits t ⟨some ts, w, some (p, .boards), .nowhere⟩
  | running (t : T) {w : Want} (p : P) : w ≠ .granted →
      Fits (.user t) ⟨some .running, w, some (p, .runs), .nowhere⟩
  | early (t : T) {k : Turn P} (p : P) : InLine (.user t : Thread T P) k →
      Fits (.user t) ⟨some .running, .granted, some (p, .runs), k⟩
  | blocked (t : T) : Fits (.user t) ⟨some .blocked, .waiting, none, .nowhere⟩
  | yielding (t : T) (p : P) : Fits (.user t) ⟨some .runable, .nothing, none, .owed p⟩
  | ending (t : T) (p : P) : Fits (.user t) ⟨some .dying, .nothing, some (p, .ends), .nowhere⟩
  | leaving (t : T) (p : P) : Fits (.user t) ⟨some .dying, .nothing, none, .owed p⟩

/-- The `state` of a thread a processor has switched from. -/
inductive Left (p : P) : TS → Turn P → Prop
  | running (k : Turn P) : Left p .running k
  | blocked (k : Turn P) : Left p .blocked k
  | runable : Left p .runable (.owed p)
  | dying : Left p .dying (.owed p)

/-- A thread that is going to leave its stack. -/
inductive Stops : Thread T P → TS → Want → Prop
  | runable (t : T) : Stops (.user t) .runable .nothing
  | blocked (t : T) {w : Want} : w ≠ .nothing → Stops (.user t) .blocked w
  | base (p : P) : Stops (.base p) .blocked .nothing
  | dying (t : T) : Stops (.user t) .dying .nothing

/-- What the processor `p` and the thread `t` know of each other. -/
structure Pair (p : P) (pc : Pc T P) (t : Thread T P) (v : View P) : Prop where
  has : ∀ r, pc.Has t r ↔ v.Has p r
  left : pc.leaves = some t → ∃ ts, v.state = some ts ∧ pc.Knows ts ∧ Left p ts v.turn
  owed : v.turn = .owed p → pc.leaves = some t
  stops : ∀ fs, pc.stops = some (t, fs) → Stops t fs v.wanted

/-- The ready queue holds the threads whose turn is there, each once. -/
def Ready (q : List (Thread T P)) (v : Thread T P → View P) : Prop :=
  q.Nodup ∧ ∀ t, t ∈ q ↔ (v t).turn = .queued

/-- Nobody has still to look at the `state` of a thread that is going to yield or to end, and
processors sleep in their base threads. -/
structure Quiet (pc : P → Pc T P) : Prop where
  settled : ∀ p q t, (pc p).settles = some t → (pc q).leaves ≠ some t
  asleep : ∀ p t fs b, pc p = .sleep t fs b → t = .base p

/-- The threads in a state. -/
structure Shows (s : State T P) (v : Thread T P → View P) : Prop where
  state : ∀ t, (v t).state = s.state t
  wanted : ∀ t, (v t).wanted = s.wanted t
  fits : ∀ t, Fits t (v t)

/-- The invariant. -/
structure Inv (s : State T P) (v : Thread T P → View P) : Prop where
  shows : Shows s v
  pairs : Pairs Pair s.pc v
  ready : Ready s.ready_queue v
  quiet : Quiet s.pc

variable {s s' : State T P} {v : Thread T P → View P} {p q : P} {t u : Thread T P} {pc pc' : Pc T P}
  {x y : View P} {r r' : Role} {fs ts : TS}

/-! ## What follows from the parts -/

theorem Pc.Knows.change {ts' : TS} (h : pc.Knows ts) (hr : ts ≠ .runable) (hd : ts ≠ .dying)
    (hd' : ts' ≠ .dying) : pc.Knows ts' := by
  cases pc with
  | test => exact hd'
  | reap => exact absurd h hd
  | requeue => exact absurd h hr
  | _ => trivial

theorem Stops.wanted {w : Want} (h : Stops t fs w) (hfs : fs ≠ .blocked) : w = .nothing := by
  cases h <;> simp_all

theorem Stops.left {w : Want} (h : Stops t fs w) (p : P) (k : Turn P) :
    Left p fs (if fs = .blocked then k else .owed p) := by
  cases h with
  | runable => exact .runable
  | blocked | base => exact .blocked k
  | dying => exact .dying

theorem Left.change {k k' : Turn P} (h : Left p ts k) (hk : ∀ q, k ≠ .owed q) : Left p ts k' := by
  cases h with
  | running => exact .running k'
  | blocked => exact .blocked k'
  | runable | dying => exact absurd rfl (hk p)

theorem Left.active {k : Turn P} (h : Left p ts k) (hk : ∀ q, k ≠ .owed q) :
    ts ≠ .runable ∧ ts ≠ .dying := by
  cases h with
  | running | blocked => simp
  | runable | dying => exact absurd rfl (hk p)

theorem Fits.exists_state (h : Fits t x)
    (hx : x.on ≠ none ∨ x.turn ≠ .nowhere ∨ x.wanted ≠ .nothing) : ∃ ts, x.state = some ts := by
  cases h <;> simp_all

theorem Fits.stops (h : Fits t x) (hx : x.on = some (p, .runs))
    (hw : ∀ u, t = .user u → x.wanted ≠ .nothing) : Stops t .blocked x.wanted := by
  cases h with
  | serving p => exact .base p
  | running t | early t => exact .blocked t (hw t rfl)
  | _ => cases hx

theorem Fits.turn_of_boards (h : Fits t x) (hx : x.on = some (p, .boards)) : x.turn = .nowhere := by
  cases h <;> simp_all

theorem Fits.state_of_runs (h : Fits t x) (hx : x.on = some (p, .runs)) :
    x.state = some .running := by
  cases h <;> simp_all

theorem Fits.turn_of_on (h : Fits t x) (hx : x.on ≠ none) (hw : x.wanted ≠ .granted) :
    x.turn = .nowhere := by
  cases h <;> simp_all

theorem Fits.registered {t : T} (h : Fits (.user t) x) (hx : x.on = some (p, .runs))
    (hw : x.wanted = .nothing) : Fits (.user t) { x with wanted := .waiting } := by
  cases h <;> simp_all
  exact .running t p (by simp)

theorem Fits.turn_of_waiting (h : Fits t x) (hw : x.wanted = .waiting) : x.turn = .nowhere := by
  cases h with
  | ready hr => cases hr <;> cases hw
  | _ => simp_all

theorem Fits.unblocked (h : Fits t x) (hw : x.wanted = .waiting) :
    Fits t { x with wanted := .granted, turn := .queued } := by
  cases h with
  | running t p _ => exact .early t p (.queued t)
  | blocked t => exact .ready (.granted t) (.queued t)
  | ready hr => cases hr <;> cases hw
  | boarding hr => cases hr <;> cases hw
  | _ => cases hw

theorem Pc.stack_of_settles (h : pc.settles = some t) : ∃ r, pc.stack = some (t, r) := by
  cases pc with
  | ending => cases h; exact ⟨_, rfl⟩
  | stop t' fs | sleep t' fs _ | switch t' _ fs =>
    simp only [Pc.settles] at h
    split_ifs at h
    cases h
    exact ⟨_, rfl⟩
  | run | wait | after | test | reap | requeue | resume => cases h

theorem Pc.stack_of_stops (h : pc.stops = some (t, fs)) : pc.stack = some (t, fs.role) := by
  cases pc <;> cases h <;> rfl

theorem role_ne_holds : fs.role ≠ .holds := by cases fs <;> simp [TS.role]

theorem Pc.stack_ne_holds (h : pc.stack = some (t, r)) : r ≠ .holds := by
  cases pc <;> cases h <;> simp [role_ne_holds]

theorem Pair.stack (h : Pair p pc t x) (hs : pc.stack = some (t, r)) : x.on = some (p, r) :=
  ((h.has r).mp (.inl hs)).resolve_right fun h => Pc.stack_ne_holds hs h.2

theorem Fits.eq_of_absent (h : Fits t x) (hx : x.state = none) :
    x = ⟨none, .nothing, none, .nowhere⟩ := by
  cases h <;> simp_all

theorem Fits.eq_of_dead (h : Fits t x) (hx : x.state = some .dead) :
    x = ⟨some .dead, .nothing, none, .nowhere⟩ := by
  cases h with
  | ready hr => cases hr <;> cases hx
  | boarding hr => cases hr <;> cases hx
  | _ => simp_all

theorem Fits.eq_of_ends (h : Fits t x) (hx : x.on = some (p, .ends)) :
    (∃ t', t = .user t') ∧ x = ⟨some .dying, .nothing, some (p, .ends), .nowhere⟩ := by
  cases h <;> simp_all

theorem Fits.taken (h : Fits t x) (hx : x.turn = .queued) (p : P) :
    Fits t { x with turn := .held p } := by
  cases h with
  | ready hr hk => cases hk <;> cases hx; exact .ready hr (.held (.user _ p))
  | early t p' hk => exact .early t p' (.held (.user t p))
  | _ => cases hx

theorem Fits.switched (h : Fits t x) (hx : x.on = some (p, fs.role)) (hs : Stops t fs x.wanted) :
    Fits t ⟨some fs, x.wanted, none, if fs = .blocked then x.turn else .owed p⟩ := by
  cases h with
  | serving p =>
    cases hs
    exact .idle p (.base p)
  | @running t w p' hw =>
    cases hs with
    | runable t => exact .yielding t p
    | blocked t hw' =>
      cases w with
      | waiting => exact .blocked t
      | nothing | granted => contradiction
    | dying t => cases hx
  | early t p' hk =>
    cases hs
    exact .ready (.granted t) hk
  | ending t p' =>
    cases hs with
    | dying => exact .leaving t p
    | runable => cases hx
    | blocked _ hw => exact absurd rfl hw
  | boarding hr => cases hs <;> cases hx
  | absent | dead | idle | ready | blocked | yielding | leaving => cases hx

theorem Fits.boarded (h : Fits t x) (hx : x.turn = .held p) (hs : x.state ≠ some .running) :
    Fits t { x with on := some (p, .boards), turn := .nowhere } := by
  cases h with
  | ready hr hk => cases hk <;> cases hx; exact .boarding hr ‹_›
  | early => exact absurd rfl hs
  | _ => cases hx

theorem Fits.resumed (h : Fits t x) (hx : x.on = some (p, .boards)) :
    Fits t ⟨some .running, .nothing, some (p, .runs), .nowhere⟩ := by
  cases h with
  | boarding hr hh =>
    cases hx
    cases hh with
    | user t p => exact .running t p (by simp)
    | base p => exact .serving p
  | _ => cases hx

theorem Fits.of_owed (h : Fits t x) (hx : x.turn = .owed p) :
    (∃ t', t = .user t') ∧ (x = ⟨some .runable, .nothing, none, .owed p⟩ ∨
      x = ⟨some .dying, .nothing, none, .owed p⟩) := by
  cases h with
  | ready hr hk => cases hk <;> cases hx
  | early t p' hk => cases hk <;> cases hx
  | _ => simp_all

theorem Pair.on_of_stops (h : Pair q pc t x) (hx : x.on = some (p, r))
    (hs : pc.stops = some (t, fs)) : q = p ∧ r = fs.role := by
  have hq := h.stack (Pc.stack_of_stops hs)
  rw [hx, Option.some.injEq, Prod.mk.injEq] at hq
  exact ⟨hq.1.symm, hq.2⟩

theorem Pair.target (h : Pair p pc t x) (hs : pc.target = some t) (hx : Fits t x) :
    x.turn = .held p := by
  rcases (h.has .holds).mp (.inr ⟨hs, rfl⟩) with ho | ho
  · cases hx <;> cases ho
  · exact ho.1

/-- **A thread is on one processor at most.** -/
theorem Inv.alone (h : Inv s v) (hp : (s.pc p).stack = some (t, r)) (hq : (s.pc q).stack = some (t, r')) :
    p = q := by
  have h1 := (h.pairs p t).stack hp
  rw [(h.pairs q t).stack hq] at h1
  simp only [Option.some.injEq, Prod.mk.injEq] at h1
  exact h1.1.symm

theorem Pair.congr (h : Pair p pc t x) (hh : ∀ r, pc'.Has t r ↔ pc.Has t r)
    (hl : pc'.leaves = some t ↔ pc.leaves = some t)
    (hk : pc.leaves = some t → ∀ ts, x.state = some ts → pc.Knows ts → pc'.Knows ts)
    (hs : ∀ fs, pc'.stops = some (t, fs) → Stops t fs x.wanted) : Pair p pc' t x := by
  refine ⟨fun r => (hh r).trans (h.has r), fun hl' => ?_, fun ho => hl.mpr (h.owed ho), hs⟩
  obtain ⟨ts, hx, hknows, hleft⟩ := h.left (hl.mp hl')
  exact ⟨ts, hx, hk (hl.mp hl') ts hx hknows, hleft⟩

theorem Inv.on_of_run (h : Inv s v) (hpc : s.pc p = .run t) : (v t).on = some (p, .runs) :=
  (h.pairs p t).stack (by rw [hpc]; rfl)

theorem Inv.exists_state (h : Inv s v)
    (ht : (v t).on ≠ none ∨ (v t).turn ≠ .nowhere ∨ (v t).wanted ≠ .nothing) :
    ∃ ts, s.state t = some ts := by
  rw [← h.shows.state]
  exact (h.shows.fits t).exists_state ht

theorem Inv.exists_left (h : Inv s v) (hl : (s.pc p).leaves = some t) :
    ∃ ts, s.state t = some ts ∧ (s.pc p).Knows ts ∧ Left p ts (v t).turn := by
  rw [← h.shows.state]
  exact (h.pairs p t).left hl

theorem Inv.owed_of_knows (h : Inv s v) (hl : (s.pc p).leaves = some t)
    (hk : ∀ ts, (s.pc p).Knows ts → ts = .dying ∨ ts = .runable) : (v t).turn = .owed p := by
  obtain ⟨ts, -, hknows, hleft⟩ := h.exists_left hl
  generalize (v t).turn = k at hleft
  cases hleft with
  | running | blocked => simpa using hk _ hknows
  | runable | dying => rfl

theorem Inv.idle (h : Inv s v) (hpc : s.pc p = .stop t fs) (ht : .base p ≠ t) :
    ∃ ts, Runnable (.base p : Thread T P) ts .nothing ∧
      v (.base p) = ⟨some ts, .nothing, none, .nowhere⟩ := by
  have hp := h.pairs p (.base p)
  rw [hpc] at hp
  have hon : ∀ r, (v (.base p)).on ≠ some (p, r) := fun r hr => by
    have := (hp.has r).mpr (.inl hr)
    simp [Pc.Has, Pc.stack, Pc.target, ht.symm] at this
  have hheld : (v (.base p)).turn ≠ .held p := fun hr => by
    have := (hp.has .holds).mpr (.inr ⟨hr, rfl⟩)
    simp [Pc.Has, Pc.stack, Pc.target, ht.symm] at this
  have hf := h.shows.fits (.base p)
  generalize v (.base p) = x at hf hon hheld
  cases hf with
  | idle _ hr => exact ⟨_, hr, rfl⟩
  | serving => exact absurd rfl (hon _)
  | ready hr hk =>
    cases hk with
    | held hh =>
      cases hh
      exact absurd rfl hheld
  | boarding hr hh =>
    cases hh
    exact absurd rfl (hon _)

theorem Inv.congr (h : Inv s v) (hs : s'.state = s.state) (hw : s'.wanted = s.wanted)
    (hpc : s'.pc = s.pc) (hr : s'.ready_queue = s.ready_queue) : Inv s' v := by
  refine ⟨⟨fun t => ?_, fun t => ?_, h.shows.fits⟩, ?_, ?_, ?_⟩
  · rw [hs, h.shows.state]
  · rw [hw, h.shows.wanted]
  · rw [hpc]
    exact h.pairs
  · rw [hr]
    exact h.ready
  · rw [hpc]
    exact h.quiet

/-! ## Steps -/

section Steps

variable [DecidableEq P] [DecidableEq T]

theorem Shows.update (h : Shows s v) (hs : s'.state = Function.update s.state t x.state)
    (hw : s'.wanted = Function.update s.wanted t x.wanted) (hx : Fits t x) :
    Shows s' (Function.update v t x) := by
  refine ⟨fun u => ?_, fun u => ?_, fun u => ?_⟩ <;> by_cases hu : u = t
  · subst hu
    simp [hs]
  · simp [hs, hu, h.state u]
  · subst hu
    simp [hw]
  · simp [hw, hu, h.wanted u]
  · subst hu
    simpa using hx
  · simpa [hu] using h.fits u

theorem Ready.same {l : List (Thread T P)} (h : Ready l v) (hx : x.turn = .queued ↔ (v t).turn = .queued) :
    Ready l (Function.update v t x) := by
  refine ⟨h.1, fun u => ?_⟩
  by_cases hu : u = t
  · subst hu
    rw [Function.update_self, hx]
    exact h.2 u
  · rw [Function.update_of_ne hu]
    exact h.2 u

theorem Ready.push {l : List (Thread T P)} (h : Ready l v) (ht : (v t).turn ≠ .queued)
    (hx : x.turn = .queued) : Ready (l ++ [t]) (Function.update v t x) := by
  have hm : t ∉ l := fun hm => ht ((h.2 t).mp hm)
  refine ⟨List.nodup_append.mpr ⟨h.1, List.nodup_singleton t, by
    simpa using fun a ha (e : a = t) => hm (e ▸ ha)⟩,
    fun u => ?_⟩
  by_cases hu : u = t
  · subst hu
    simp [hx]
  · rw [Function.update_of_ne hu, ← h.2 u]
    simp [hu]

theorem Ready.pop {l : List (Thread T P)} (h : Ready (t :: l) v) (hx : x.turn ≠ .queued) :
    Ready l (Function.update v t x) := by
  obtain ⟨hn, hl⟩ := List.nodup_cons.mp h.1
  refine ⟨hl, fun u => ?_⟩
  by_cases hu : u = t
  · subst hu
    simp [hn, hx]
  · rw [Function.update_of_ne hu, ← h.2 u]
    simp [hu]

omit [DecidableEq T] in
theorem Quiet.update {pcs : P → Pc T P} (h : Quiet pcs)
    (hs : ∀ t, pc'.settles = some t → (pcs p).settles = some t ∨ ∀ q, (pcs q).leaves ≠ some t)
    (hl : ∀ t, pc'.leaves = some t →
      (pcs p).leaves = some t ∨ ∀ q, q ≠ p → (pcs q).settles ≠ some t)
    (hself : ∀ t, pc'.settles = some t → pc'.leaves ≠ some t)
    (hsleep : ∀ t fs b, pc' = .sleep t fs b → t = .base p) :
    Quiet (Function.update pcs p pc') := by
  refine ⟨fun a b t ha hb => ?_, fun a t fs b ha => ?_⟩
  swap
  · by_cases hap : a = p
    · subst hap
      rw [Function.update_self] at ha
      exact hsleep t fs b ha
    · rw [Function.update_of_ne hap] at ha
      exact h.asleep a t fs b ha
  by_cases hap : a = p
  · subst hap
    rw [Function.update_self] at ha
    by_cases hba : b = a
    · subst hba
      rw [Function.update_self] at hb
      exact hself t ha hb
    · rw [Function.update_of_ne hba] at hb
      rcases hs t ha with h1 | h1
      · exact h.settled a b t h1 hb
      · exact h1 b hb
  · rw [Function.update_of_ne hap] at ha
    by_cases hbp : b = p
    · subst hbp
      rw [Function.update_self] at hb
      rcases hl t hb with h1 | h1
      · exact h.settled a b t ha h1
      · exact h1 a hap ha
    · rw [Function.update_of_ne hbp] at hb
      exact h.settled a b t ha hb

end Steps

end IntroSystems.Uthread.Scheduler
