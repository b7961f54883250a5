import IntroSystems.Smokers.Model

/-!
# Who is where

The program points and the queues of `smoke.c` together say, for each thread, whether it has
started, sleeps, or has been woken up.

* `Cast`: this, for all threads. `Cast.pc`, `Cast.queue`: the points and queues it stands for.
* `Shows`: a cast and a state of the program agree. One lemma for each way a section can end says
  who is where afterwards: `Shows.helperWaits`, `Shows.helperMatches` and so on.
-/

set_option autoImplicit false

namespace IntroSystems.Smokers

open Monitor Resource

/-- `called` is woken up from the wait for its resource, `serving` in the wait for a smoker. -/
inductive HelperAt
  | fresh
  | idle
  | called
  | serving
  deriving DecidableEq

inductive SmokerAt
  | fresh
  | idle
  | called
  deriving DecidableEq

/-- `waking` and `asleep i` are asleep on `smoke`, `poked` and `returned i` woken up there. -/
inductive AgentAt
  | fresh
  | waking
  | poked
  | asleep (i : ℕ)
  | returned (i : ℕ)
  | done
  deriving DecidableEq

def HelperAt.point : HelperAt → Point
  | .fresh => .start
  | .idle | .called => .waitAvailable
  | .serving => .waitHelperSmoke

def SmokerAt.point : SmokerAt → Point
  | .fresh => .start
  | .idle | .called => .waitPair

def AgentAt.point : AgentAt → Point
  | .fresh => .start
  | .waking | .poked => .waitStart
  | .asleep i | .returned i => .waitSmoke i
  | .done => .done

/-- The agent is asleep. -/
def AgentAt.sleeps : AgentAt → Bool
  | .waking | .asleep _ => true
  | _ => false

/-- The agent after a signal on `smoke`. -/
def AgentAt.wake : AgentAt → AgentAt
  | .waking => .poked
  | .asleep i => .returned i
  | a => a

/-- Where everybody is; `table` are the helpers asleep on `helperSmoke`. -/
structure Cast where
  agent : AgentAt
  helper : Resource → HelperAt
  smoker : Resource → SmokerAt
  table : List Resource

namespace Cast

def pc (k : Cast) : Thread → Point
  | .agent => k.agent.point
  | .helper r => (k.helper r).point
  | .smoker r => (k.smoker r).point

def queue (k : Cast) : Cond → List Thread
  | .available r => if k.helper r = .idle then [.helper r] else []
  | .smoke => if k.agent.sleeps then [.agent] else []
  | .resourcePair r => if k.smoker r = .idle then [.smoker r] else []
  | .helperSmoke => k.table.map .helper

def setHelper (k : Cast) (r : Resource) (a : HelperAt) : Cast :=
  { k with helper := Function.update k.helper r a }

def setSmoker (k : Cast) (r : Resource) (a : SmokerAt) : Cast :=
  { k with smoker := Function.update k.smoker r a }

def setAgent (k : Cast) (a : AgentAt) : Cast := { k with agent := a }

def setTable (k : Cast) (l : List Resource) : Cast := { k with table := l }

/-- The helper for `r` gets a signal on its resource. -/
def call (k : Cast) (r : Resource) : Cast :=
  k.setHelper r (if k.helper r = .idle then .called else k.helper r)

variable (k : Cast) (r : Resource)

theorem setHelper_self (a : HelperAt) : (k.setHelper r a).helper r = a := Function.update_self ..

theorem setHelper_of_ne {r r' : Resource} (h : r' ≠ r) (a : HelperAt) :
    (k.setHelper r a).helper r' = k.helper r' := Function.update_of_ne h ..

@[simp] theorem setHelper_pc (a : HelperAt) :
    (k.setHelper r a).pc = Function.update k.pc (.helper r) a.point := by
  funext t
  cases t with
  | helper r' =>
    by_cases h : r' = r
    · subst h
      simp [pc, setHelper]
    · simp [pc, setHelper, h]
  | _ => rfl

@[simp] theorem setSmoker_pc (a : SmokerAt) :
    (k.setSmoker r a).pc = Function.update k.pc (.smoker r) a.point := by
  funext t
  cases t with
  | smoker r' =>
    by_cases h : r' = r
    · subst h
      simp [pc, setSmoker]
    · simp [pc, setSmoker, h]
  | _ => rfl

@[simp] theorem setAgent_pc (a : AgentAt) :
    (k.setAgent a).pc = Function.update k.pc .agent a.point := by
  funext t
  cases t <;> rfl

@[simp] theorem setTable_pc (l : List Resource) : (k.setTable l).pc = k.pc := by
  funext t
  cases t <;> rfl

@[simp] theorem setHelper_queue (a : HelperAt) : (k.setHelper r a).queue =
    Function.update k.queue (.available r) (if a = .idle then [.helper r] else []) := by
  funext c
  cases c with
  | available r' =>
    by_cases h : r' = r
    · subst h
      simp [queue, setHelper]
    · simp [queue, setHelper, h]
  | _ => rfl

@[simp] theorem setSmoker_queue (a : SmokerAt) : (k.setSmoker r a).queue =
    Function.update k.queue (.resourcePair r) (if a = .idle then [.smoker r] else []) := by
  funext c
  cases c with
  | resourcePair r' =>
    by_cases h : r' = r
    · subst h
      simp [queue, setSmoker]
    · simp [queue, setSmoker, h]
  | _ => rfl

@[simp] theorem setAgent_queue (a : AgentAt) : (k.setAgent a).queue =
    Function.update k.queue .smoke (if a.sleeps then [.agent] else []) := by
  funext c
  cases c <;> rfl

@[simp] theorem setTable_queue (l : List Resource) :
    (k.setTable l).queue = Function.update k.queue .helperSmoke (l.map .helper) := by
  funext c
  cases c <;> rfl

/-! ## Signals -/

/-- The agent gets a signal on `smoke`. -/
def rouse (k : Cast) : Cast := k.setAgent k.agent.wake

@[simp] theorem call_pc : (k.call r).pc = k.pc := by
  have h : (if k.helper r = .idle then HelperAt.called else k.helper r).point =
      k.pc (.helper r) := by
    split_ifs with h <;> simp [pc, h, HelperAt.point]
  rw [call, setHelper_pc, h, Function.update_eq_self]

@[simp] theorem rouse_pc : k.rouse.pc = k.pc := by
  have h : k.agent.wake.point = k.pc .agent := by
    cases ha : k.agent <;> simp [pc, ha, AgentAt.wake, AgentAt.point]
  rw [rouse, setAgent_pc, h, Function.update_eq_self]

theorem signal_available : signal k.queue (.available r) = (k.call r).queue := by
  rw [signal, call, setHelper_queue]
  by_cases h : k.helper r = .idle <;> simp [queue, h]

theorem signal_resourcePair (h : k.smoker r = .idle) :
    signal k.queue (.resourcePair r) = (k.setSmoker r .called).queue := by
  rw [signal, setSmoker_queue]
  simp [queue, h]

theorem signal_smoke : signal k.queue .smoke = k.rouse.queue := by
  rw [signal, rouse, setAgent_queue]
  cases h : k.agent <;> simp [queue, h, AgentAt.sleeps, AgentAt.wake]

theorem signal_helperSmoke :
    signal k.queue .helperSmoke = (k.setTable k.table.tail).queue := by
  rw [signal, setTable_queue, List.map_tail]
  rfl

end Cast

/-! ## Sections -/

/-- The threads are where the cast says. -/
structure Shows (k : Cast) (σ : State Thread Point Shared Cond) : Prop where
  pc : σ.pc = k.pc
  queue : σ.queue = k.queue

namespace Shows

variable {k k' : Cast} {σ : State Thread Point Shared Cond} {d : Shared} {r x y z : Resource}

theorem waits (h : Shows k σ) {j : Cast} {t : Thread} {cs : List Cond} {c : Cond} {p : Point}
    (hpc₁ : j.pc = k.pc) (hq₁ : signals k.queue cs = j.queue)
    (hpc : k'.pc = Function.update j.pc t p)
    (hq : k'.queue = Function.update j.queue c (j.queue c ++ [t])) :
    Shows k' (σ.after t (d, cs, .wait c p)) := by
  refine ⟨?_, ?_⟩
  · rw [hpc, hpc₁, ← h.pc]
    rfl
  · rw [hq, ← hq₁, ← h.queue]
    rfl

theorem helperWaits (h : Shows k σ) (hr : k.helper r ≠ .idle) :
    Shows (k.setHelper r .idle)
      (σ.after (.helper r) (d, [], .wait (.available r) .waitAvailable)) := by
  refine h.waits rfl rfl (Cast.setHelper_pc ..) ?_
  simp [Cast.queue, hr]

theorem helperMatches (h : Shows k σ) (hr : k.helper r ≠ .idle) (hz : k.smoker z = .idle) :
    Shows (((k.setSmoker z .called).setHelper r .serving).setTable (k.table ++ [r]))
      (σ.after (.helper r) (d, [.resourcePair z], .wait .helperSmoke .waitHelperSmoke)) := by
  refine h.waits (j := k.setSmoker z .called) ?_ (Cast.signal_resourcePair k z hz) ?_ ?_
  · have hz' : SmokerAt.called.point = k.pc (.smoker z) := by simp [Cast.pc, hz, SmokerAt.point]
    rw [Cast.setSmoker_pc, hz', Function.update_eq_self]
  · rw [Cast.setTable_pc, Cast.setHelper_pc]
    rfl
  · have hr' : (k.setSmoker z .called).queue (.available r) = [] := if_neg hr
    have hkeep : ((k.setSmoker z .called).setHelper r .serving).queue =
        (k.setSmoker z .called).queue := by
      rw [Cast.setHelper_queue, if_neg (by decide), ← hr', Function.update_eq_self]
    rw [Cast.setTable_queue, hkeep, List.map_append]
    rfl

theorem helperClears (h : Shows k σ) (hr : k.helper r ≠ .idle) :
    Shows (k.rouse.setHelper r .idle)
      (σ.after (.helper r) (d, [.smoke], .wait (.available r) .waitAvailable)) := by
  refine h.waits (k.rouse_pc) k.signal_smoke (Cast.setHelper_pc ..) ?_
  rw [Cast.setHelper_queue, show k.rouse.queue (.available r) = [] from if_neg hr]
  rfl

theorem smokerStarts (h : Shows k σ) (hr : k.smoker r ≠ .idle) :
    Shows (k.rouse.setSmoker r .idle)
      (σ.after (.smoker r) (d, [.smoke], .wait (.resourcePair r) .waitPair)) := by
  refine h.waits (k.rouse_pc) k.signal_smoke (Cast.setSmoker_pc ..) ?_
  rw [Cast.setSmoker_queue, show k.rouse.queue (.resourcePair r) = [] from if_neg hr]
  rfl

theorem smokerSmokes (h : Shows k σ) (hr : k.smoker r ≠ .idle) :
    Shows ((k.setTable k.table.tail).setSmoker r .idle)
      (σ.after (.smoker r) (d, [.helperSmoke], .wait (.resourcePair r) .waitPair)) := by
  refine h.waits (k.setTable_pc _) k.signal_helperSmoke (Cast.setSmoker_pc ..) ?_
  rw [Cast.setSmoker_queue,
    show (k.setTable k.table.tail).queue (.resourcePair r) = [] from if_neg hr]
  rfl

theorem agentWaits (h : Shows k σ) (ha : k.agent.sleeps = false) :
    Shows (k.setAgent .waking) (σ.after .agent (d, [], .wait .smoke .waitStart)) := by
  refine h.waits rfl rfl (Cast.setAgent_pc ..) ?_
  rw [Cast.setAgent_queue, show k.queue .smoke = [] by simp [Cast.queue, ha]]
  rfl

theorem agentCalls (h : Shows k σ) (ha : k.agent.sleeps = false) (x y : Resource) (i : ℕ) :
    Shows (((k.call x).call y).setAgent (.asleep i))
      (σ.after .agent (d, [.available x, .available y], .wait .smoke (.waitSmoke i))) := by
  refine h.waits (j := (k.call x).call y) (by simp) ?_ (Cast.setAgent_pc ..) ?_
  · rw [signals, List.foldl_cons, List.foldl_cons, List.foldl_nil, Cast.signal_available,
      Cast.signal_available]
  · have hq : ((k.call x).call y).queue .smoke = [] := by
      change (if k.agent.sleeps then _ else _) = _
      rw [ha]
      rfl
    rw [Cast.setAgent_queue, hq]
    rfl

theorem agentLeaves (h : Shows k σ) (ha : k.agent.sleeps = false) :
    Shows (k.setAgent .done) (σ.after .agent (d, [], .leave .done)) := by
  have hq : k.queue .smoke = [] := by simp [Cast.queue, ha]
  refine ⟨?_, ?_⟩
  · rw [Cast.setAgent_pc, ← h.pc]
    rfl
  · rw [Cast.setAgent_queue, if_neg (by decide), ← hq, Function.update_eq_self, ← h.queue]
    rfl

end Shows

end IntroSystems.Smokers
