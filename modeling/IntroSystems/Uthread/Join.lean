import IntroSystems.Lib.Transition
import Mathlib.Data.Int.Notation
import Mathlib.Data.Nat.Notation
import Mathlib.Logic.Function.Basic

/-!
# Joining, detaching and the end of a thread

`uthread_join`, `uthread_detach` and the end of a thread in `uthread.c` of assignment 10. `joiner`
is tested before `join_spinlock` is taken, and not again.

* `State`, `next`: what is done under the lock is one step, and each test is one. `none` is an
  access to the descriptor after it has been freed.
* `InTime`: no call tests or takes the lock too late.
* `Inv`, `Inv.next`: a thread waits exactly if it is `joiner`; `joiner` is `-1` after a join or a
  detach.
* **`join_once`**: in runs that are in time the descriptor is freed once, and one join gets the
  value.
-/

set_option autoImplicit false

namespace IntroSystems.Uthread.Join

/-- `TS_DYING`, `TS_DEAD`, and all other values of `state`. -/
inductive Status
  | alive
  | dying
  | dead
  deriving DecidableEq

/-- `0`, a thread, and `(uthread_t) -1`. -/
inductive Joiner (J : Type)
  | zero
  | thread (j : J)
  | minusOne
  deriving DecidableEq

/-- The fields of `struct uthread_TCB` for the end of a thread. -/
structure TCB (J V : Type) where
  state : Status
  joiner : Joiner J
  return_val : V

/-- Where the thread is: in `start_proc`, before it sets `TS_DYING`, before it is switched from, and
after that. -/
inductive Phase
  | running
  | returned
  | stopping
  | gone
  deriving DecidableEq

/-- Where a call of `uthread_join` is. After the test the lock is still to be taken; a blocked call
has to be woken. At the end there are the result and `*value_ptr`. -/
inductive Call (V : Type)
  | outside
  | tested
  | blocked
  | woken
  | done (result : ℤ) (value : Option V)

/-- Where the call of `uthread_detach` is, which may find out that there is nothing to do. -/
inductive Detach
  | outside
  | tested
  | refused
  | detached
  deriving DecidableEq

/-- A descriptor that has been freed is `none`. -/
structure State (J V : Type) where
  tcb : Option (TCB J V)
  phase : Phase
  join : J → Call V
  detach : Detach

variable {J V : Type} [DecidableEq J]

/-- `return_val` is not initialised. -/
def start (junk : V) : State J V :=
  ⟨some ⟨.alive, .zero, junk⟩, .running, fun _ => .outside, .outside⟩

def State.goto (s : State J V) (j : J) (c : Call V) : State J V :=
  { s with join := Function.update s.join j c }

/-- The call is blocked. -/
def Call.isBlocked : Call V → Bool
  | .blocked => true
  | _ => false

/-- `uthread_start (joiner)`. -/
def wake (s : State J V) : Joiner J → State J V
  | .thread j => if (s.join j).isBlocked then s.goto j .woken else s
  | _ => s

/-- The end of `uthread_join`, with the lock held. -/
def take (s : State J V) (c : TCB J V) (j : J) : State J V :=
  if c.state = .dead then { s with tcb := none }.goto j (.done 0 (some c.return_val))
  else { s with tcb := some { c with joiner := .minusOne } }.goto j (.done 0 (some c.return_val))

inductive Label (J : Type)
  | finish
  | exit
  | switched
  | joinTest (j : J)
  | joinSection (j : J)
  | joinAgain (j : J)
  | detachTest
  | detachSection

def allowed (s : State J V) : Label J → Prop
  | .finish => s.phase = .running
  | .exit => s.phase = .returned
  | .switched => s.phase = .stopping
  | .joinTest j => s.join j = .outside
  | .joinSection j => s.join j = .tested
  | .joinAgain j => s.join j = .woken
  | .detachTest => s.detach = .outside
  | .detachSection => s.detach = .tested

/-- The thread returns `v`. -/
def next (v : V) (s : State J V) : Label J → Option (State J V)
  | .finish => do
    let c ← s.tcb
    some { s with tcb := some { c with return_val := v }, phase := .returned }
  | .exit => do
    let c ← s.tcb
    some (wake { s with tcb := some { c with state := .dying }, phase := .stopping } c.joiner)
  | .switched => do
    let c ← s.tcb
    if c.state = .dying then
      if c.joiner = .minusOne then some { s with tcb := none, phase := .gone }
      else some { s with tcb := some { c with state := .dead }, phase := .gone }
    else some { s with phase := .gone }
  | .joinTest j => do
    let c ← s.tcb
    some (s.goto j (if c.joiner = .zero then .tested else .done (-1) none))
  | .joinSection j => do
    let c ← s.tcb
    if c.state ≠ .dying ∧ c.state ≠ .dead then
      some ({ s with tcb := some { c with joiner := .thread j } }.goto j .blocked)
    else some (take s c j)
  | .joinAgain j => do
    let c ← s.tcb
    some (take s c j)
  | .detachTest => do
    let c ← s.tcb
    some { s with detach := if c.joiner = .zero then .tested else .refused }
  | .detachSection => do
    let c ← s.tcb
    if c.state ≠ .dead then
      some { s with tcb := some { c with joiner := .minusOne }, detach := .detached }
    else some { s with tcb := none, detach := .detached }

/-- `none` after an access to a freed descriptor. -/
def sys (v : V) : Sys (Option (State J V)) (Label J) :=
  Sys.ofNext (fun s => ∃ junk, s = start junk) allowed (next v)

/-! ## Runs in time -/

/-- Blocked, or woken since then. -/
def Call.Waits (c : Call V) : Prop := c = .blocked ∨ c = .woken

/-- A call that has taken the lock. -/
def Call.Entered (c : Call V) : Prop := c.Waits ∨ ∃ x, c = .done 0 x

/-- The thread is gone, and it has been joined, or detached with nobody waiting. -/
def Over (s : State J V) : Prop :=
  s.phase = .gone ∧
    ((∃ j x, s.join j = .done 0 x) ∨ (s.detach = .detached ∧ ∀ j, ¬(s.join j).Waits))

/-- No test when all is over; no second join under the lock, and no detach while a join waits. -/
def InTime (s : State J V) : Label J → Prop
  | .joinTest _ => ¬Over s
  | .joinSection _ => ¬Over s ∧ ∀ j, ¬(s.join j).Entered
  | .detachTest => ¬Over s
  | .detachSection => ¬Over s ∧ ∀ j, ¬(s.join j).Waits
  | _ => True

/-- What is promised of the states of a run. -/
structure Good (v : V) (s : State J V) : Prop where
  one : ∀ j k x y, s.join j = .done 0 x → s.join k = .done 0 y → j = k
  value : ∀ j x, s.join j = .done 0 x → x = some v
  others : ∀ j r x, s.join j = .done r x → r = 0 ∨ r = -1
  woken : s.phase = .stopping ∨ s.phase = .gone → ∀ j, s.join j ≠ .blocked

/-- The descriptor, while there is one. -/
structure Live (v : V) (s : State J V) (c : TCB J V) : Prop where
  dying : c.state = .dying ↔ s.phase = .stopping
  dead : c.state = .dead ↔ s.phase = .gone
  return_val : s.phase ≠ .running → c.return_val = v
  waits : ∀ j, (s.join j).Waits ↔ c.joiner = .thread j
  minusOne : (∃ j x, s.join j = .done 0 x) → c.joiner = .minusOne
  settled : c.joiner = .minusOne → (∃ j x, s.join j = .done 0 x) ∨ s.detach = .detached

structure Inv (v : V) (s : State J V) : Prop where
  one : ∀ j k, (s.join j).Entered → (s.join k).Entered → j = k
  value : ∀ j r x, s.join j = .done r x → (r = 0 ∧ x = some v) ∨ r = -1
  early : ∀ j, s.join j = .blocked → s.phase = .running ∨ s.phase = .returned
  late : ∀ j, s.join j = .woken → s.phase = .stopping ∨ s.phase = .gone
  live : ∀ c, s.tcb = some c → Live v s c
  freed : s.tcb = none → Over s

variable {v : V} {s s' : State J V} {c : TCB J V} {j k : J}

theorem State.goto_join_self {x : Call V} : (s.goto j x).join j = x := Function.update_self _ _ _

theorem State.goto_join_of_ne {x : Call V} (h : k ≠ j) : (s.goto j x).join k = s.join k :=
  Function.update_of_ne h _ _

omit [DecidableEq J] in
theorem inv_start (v junk : V) : Inv v (start junk : State J V) where
  one j k h := by
    rcases h with (h | h) | ⟨x, h⟩ <;> cases h
  value j r x h := by cases h
  early j h := by cases h
  late j h := by cases h
  live c hc := by
    cases hc
    refine ⟨by simp [start], by simp [start], fun h => absurd rfl h, fun j => ?_, ?_, ?_⟩
    · exact iff_of_false (by rintro (h | h) <;> cases h) nofun
    · rintro ⟨j, x, h⟩
      cases h
    · intro h
      cases h
  freed h := by cases h

omit [DecidableEq J] in
theorem Inv.waits_live (hi : Inv v s) (hj : (s.join j).Waits) : ∃ c, s.tcb = some c := by
  cases hc : s.tcb with
  | some c => exact ⟨c, rfl⟩
  | none =>
    obtain ⟨-, ⟨k, x, hk⟩ | ⟨-, hnone⟩⟩ := hi.freed hc
    · obtain rfl := hi.one j k (.inl hj) (.inr ⟨x, hk⟩)
      rw [hk] at hj
      rcases hj with h | h <;> cases h
    · exact absurd hj (hnone j)

omit [DecidableEq J] in
theorem Inv.phase_live (hi : Inv v s) (hp : s.phase ≠ .gone) : ∃ c, s.tcb = some c := by
  cases hc : s.tcb with
  | some c => exact ⟨c, rfl⟩
  | none => exact absurd (hi.freed hc).1 hp

omit [DecidableEq J] in
theorem Inv.time_live (hi : Inv v s) (ht : ¬Over s) : ∃ c, s.tcb = some c := by
  cases hc : s.tcb with
  | some c => exact ⟨c, rfl⟩
  | none => exact absurd (hi.freed hc) ht

/-- **A join gets the value**, and frees the descriptor if the thread cannot do that any more. -/
theorem Inv.take (hi : Inv v s) (hc : s.tcb = some c)
    (hj : ∀ k, k ≠ j → ¬(s.join k).Entered) (hp : s.phase = .stopping ∨ s.phase = .gone) :
    Inv v (take s c j) := by
  have hl := hi.live c hc
  have hv : c.return_val = v := hl.return_val (by rcases hp with h | h <;> rw [h] <;> decide)
  have hjoin : (Join.take s c j).join = (s.goto j (.done 0 (some c.return_val))).join := by
    unfold Join.take
    split <;> rfl
  have hphase : (Join.take s c j).phase = s.phase := by
    unfold Join.take
    split <;> rfl
  have hself : (Join.take s c j).join j = .done 0 (some c.return_val) := by
    rw [hjoin]
    exact State.goto_join_self
  have hne : ∀ k, k ≠ j → (Join.take s c j).join k = s.join k := fun k hk => by
    rw [hjoin]
    exact State.goto_join_of_ne hk
  have hent : ∀ k, ((Join.take s c j).join k).Entered → k = j := fun k hk => by
    by_contra hkj
    rw [hne k hkj] at hk
    exact hj k hkj hk
  refine ⟨fun k l hk hl => (hent k hk).trans (hent l hl).symm, fun k r x hk => ?_, fun k hk => ?_,
    fun k hk => ?_, fun d hd => ?_, fun hnone => ?_⟩
  · by_cases hkj : k = j
    · subst hkj
      rw [hself] at hk
      cases hk
      exact .inl ⟨rfl, congrArg some hv⟩
    · rw [hne k hkj] at hk
      exact hi.value k r x hk
  · obtain rfl := hent k (.inl (.inl hk))
    rw [hself] at hk
    cases hk
  · obtain rfl := hent k (.inl (.inr hk))
    rw [hself] at hk
    cases hk
  · unfold Join.take at hd
    split at hd
    · cases hd
    · cases hd
      refine ⟨?_, ?_, ?_, fun k => ?_, fun _ => rfl, fun _ => .inl ⟨j, _, hself⟩⟩
      · rw [hphase]
        exact hl.dying
      · rw [hphase]
        exact hl.dead
      · intro _
        exact hv
      · refine iff_of_false (fun hk => ?_) nofun
        obtain rfl := hent k (.inl hk)
        rw [hself] at hk
        rcases hk with h | h <;> cases h
  · refine ⟨?_, .inl ⟨j, _, hself⟩⟩
    rw [hphase]
    unfold Join.take at hnone
    split at hnone
    case isTrue h => exact hl.dead.mp h
    case isFalse h => cases hnone

omit [DecidableEq J] in
theorem not_entered {x : Call V} (h : x = .outside ∨ x = .tested ∨ x = .done (-1) none) :
    ¬x.Entered := by
  rintro ((hx | hx) | ⟨y, hx⟩) <;> rw [hx] at h <;> rcases h with h | h | h <;> cases h

theorem Inv.goto {x : Call V} (hi : Inv v s) (hj : ¬(s.join j).Entered)
    (hx : x = .tested ∨ x = .done (-1) none) : Inv v (s.goto j x) := by
  have hxe : ¬x.Entered := not_entered (.inr hx)
  have hne : ∀ k, ((s.goto j x).join k).Entered → k ≠ j := by
    rintro k hk rfl
    rw [State.goto_join_self] at hk
    exact hxe hk
  have hne' : ∀ k, (s.join k).Entered → k ≠ j := by
    rintro k hk rfl
    exact hj hk
  have hsame : ∀ k, k ≠ j → (s.goto j x).join k = s.join k := fun k => State.goto_join_of_ne
  have hdone : (∃ k y, (s.goto j x).join k = .done 0 y) ↔ ∃ k y, s.join k = .done 0 y := by
    constructor
    · rintro ⟨k, y, hk⟩
      exact ⟨k, y, by rwa [hsame k (hne k (.inr ⟨y, hk⟩))] at hk⟩
    · rintro ⟨k, y, hk⟩
      exact ⟨k, y, by rwa [hsame k (hne' k (.inr ⟨y, hk⟩))]⟩
  have hwaits : ∀ k, ((s.goto j x).join k).Waits ↔ (s.join k).Waits := by
    intro k
    by_cases hk : k = j
    · subst hk
      rw [State.goto_join_self]
      exact iff_of_false (fun h => hxe (.inl h)) fun h => hj (.inl h)
    · rw [hsame k hk]
  refine ⟨fun k l hk hl => ?_, fun k r y hk => ?_, fun k hk => ?_, fun k hk => ?_, fun c hc => ?_,
    fun hnone => ?_⟩
  · have hk' := hsame k (hne k hk) ▸ hk
    have hl' := hsame l (hne l hl) ▸ hl
    exact hi.one k l hk' hl'
  · by_cases hkj : k = j
    · subst hkj
      rw [State.goto_join_self] at hk
      rw [hk] at hx
      rcases hx with h | h <;> cases h
      exact .inr rfl
    · rw [hsame k hkj] at hk
      exact hi.value k r y hk
  · rw [hsame k (hne k (.inl (.inl hk)))] at hk
    exact hi.early k hk
  · rw [hsame k (hne k (.inl (.inr hk)))] at hk
    exact hi.late k hk
  · have hl := hi.live c hc
    exact ⟨hl.dying, hl.dead, hl.return_val, fun k => (hwaits k).trans (hl.waits k),
      fun h => hl.minusOne (hdone.mp h), fun h => (hl.settled h).imp hdone.mpr id⟩
  · obtain ⟨hgone, hover⟩ := hi.freed hnone
    exact ⟨hgone, hover.imp hdone.mpr fun h => ⟨h.1, fun k hk => h.2 k ((hwaits k).mp hk)⟩⟩

omit [DecidableEq J] in
theorem Inv.finish (hi : Inv v s) (hc : s.tcb = some c) (hp : s.phase = .running) :
    Inv v { s with tcb := some { c with return_val := v }, phase := .returned } := by
  have hl := hi.live c hc
  refine ⟨hi.one, hi.value, fun _ _ => .inr rfl, fun j hj => ?_, fun d hd => ?_,
    nofun⟩
  · rcases hi.late j hj with h | h <;> rw [hp] at h <;> cases h
  · cases hd
    refine ⟨?_, ?_, fun _ => rfl, hl.waits, hl.minusOne, hl.settled⟩
    · refine iff_of_false (fun h => ?_) nofun
      cases hp.symm.trans (hl.dying.mp h)
    · refine iff_of_false (fun h => ?_) nofun
      cases hp.symm.trans (hl.dead.mp h)

theorem wake_eq (hi : Inv v s) (hc : s.tcb = some c) (hp : s.phase = .returned) :
    ∃ join : J → Call V, wake s c.joiner = { s with join } ∧ (∀ j, join j ≠ .blocked) ∧
      (∀ j, (join j).Waits ↔ (s.join j).Waits) ∧
        ∀ j r x, join j = .done r x ↔ s.join j = .done r x := by
  have hl := hi.live c hc
  have hblocked : ∀ j, (s.join j).Waits → s.join j = .blocked := fun j hj => by
    rcases hj with h | h
    · exact h
    · rcases hi.late j h with h | h <;> rw [hp] at h <;> cases h
  have hnone : (∀ j, ¬(s.join j).Waits) → ∃ join : J → Call V, s = { s with join } ∧
      (∀ j, join j ≠ .blocked) ∧ (∀ j, (join j).Waits ↔ (s.join j).Waits) ∧
      ∀ j r x, join j = .done r x ↔ s.join j = .done r x := fun h =>
    ⟨s.join, rfl, fun j hj => h j (.inl hj), fun _ => Iff.rfl, fun _ _ _ => Iff.rfl⟩
  cases hj : c.joiner with
  | zero => exact hnone fun k hk => by cases hj.symm.trans ((hl.waits k).mp hk)
  | minusOne => exact hnone fun k hk => by cases hj.symm.trans ((hl.waits k).mp hk)
  | thread j =>
    have hw := (hl.waits j).mpr hj
    have hb := hblocked j hw
    have hne : ∀ k, k ≠ j → ¬(s.join k).Waits := fun k hk hkw => by
      cases hj.symm.trans ((hl.waits k).mp hkw)
      exact hk rfl
    refine ⟨(s.goto j .woken).join, ?_, fun k hk => ?_, fun k => ?_, fun k r x => ?_⟩
    · change (if (s.join j).isBlocked then s.goto j .woken else s) = _
      rw [hb]
      rfl
    all_goals by_cases hkj : k = j
    · subst hkj
      rw [State.goto_join_self] at hk
      cases hk
    · rw [State.goto_join_of_ne hkj] at hk
      exact hne k hkj (.inl hk)
    · subst hkj
      rw [State.goto_join_self]
      exact iff_of_true (.inr rfl) hw
    · rw [State.goto_join_of_ne hkj]
    · subst hkj
      rw [State.goto_join_self, hb]
      exact iff_of_false nofun nofun
    · rw [State.goto_join_of_ne hkj]

theorem wake_with (s : State J V) (tcb : Option (TCB J V)) (phase : Phase) (x : Joiner J) :
    wake { s with tcb, phase } x = { wake s x with tcb, phase } := by
  cases x with
  | zero => rfl
  | minusOne => rfl
  | thread j =>
    cases hb : (s.join j).isBlocked <;> simp [wake, hb, State.goto]

/-- **The thread dies**, and nobody is blocked. -/
theorem Inv.exit (hi : Inv v s) (hc : s.tcb = some c) (hp : s.phase = .returned) :
    Inv v { wake s c.joiner with tcb := some { c with state := .dying }, phase := .stopping } := by
  have hl := hi.live c hc
  obtain ⟨join, heq, hnb, hw, hd⟩ := wake_eq hi hc hp
  rw [heq]
  have hent : ∀ j, (join j).Entered → (s.join j).Entered := fun j hj =>
    hj.imp (hw j).mp fun ⟨x, hx⟩ => ⟨x, (hd j 0 x).mp hx⟩
  have hdone : (∃ j x, join j = .done 0 x) ↔ ∃ j x, s.join j = .done 0 x :=
    exists_congr fun j => exists_congr fun x => hd j 0 x
  refine ⟨fun j k hj hk => hi.one j k (hent j hj) (hent k hk),
    fun j r x hj => hi.value j r x ((hd j r x).mp hj), fun j hj => absurd hj (hnb j),
    fun _ _ => .inl rfl, fun d hd' => ?_, nofun⟩
  cases hd'
  refine ⟨iff_of_true rfl rfl, iff_of_false nofun nofun, fun _ => ?_,
    fun j => (hw j).trans (hl.waits j), fun h => hl.minusOne (hdone.mp h),
    fun h => (hl.settled h).imp hdone.mpr id⟩
  exact hl.return_val (by rw [hp]; decide)

omit [DecidableEq J] in
/-- **The thread is switched from**, and frees its descriptor if nobody else will. -/
theorem Inv.switched (hi : Inv v s) (hc : s.tcb = some c) (hp : s.phase = .stopping) :
    (c.joiner = .minusOne → Inv v { s with tcb := none, phase := .gone }) ∧
      (c.joiner ≠ .minusOne →
        Inv v { s with tcb := some { c with state := .dead }, phase := .gone }) := by
  have hl := hi.live c hc
  have hearly : ∀ j, s.join j ≠ .blocked := fun j hj => by
    rcases hi.early j hj with h | h <;> rw [hp] at h <;> cases h
  refine ⟨fun hj => ?_, fun hj => ?_⟩
  · refine ⟨hi.one, hi.value, fun j h => absurd h (hearly j), fun _ _ => .inr rfl,
      nofun, fun _ => ⟨rfl, (hl.settled hj).imp id fun h => ⟨h, fun k hk => ?_⟩⟩⟩
    cases hj.symm.trans ((hl.waits k).mp hk)
  · refine ⟨hi.one, hi.value, fun j h => absurd h (hearly j), fun _ _ => .inr rfl,
      fun d hd => ?_, nofun⟩
    cases hd
    refine ⟨iff_of_false nofun nofun, iff_of_true rfl rfl, fun _ => ?_, hl.waits,
      hl.minusOne, hl.settled⟩
    exact hl.return_val (by rw [hp]; decide)

/-- **A call of `uthread_join` is blocked**, and is the joiner. -/
theorem Inv.block (hi : Inv v s) (hc : s.tcb = some c) (hs : c.state ≠ .dying ∧ c.state ≠ .dead)
    (hnone : ∀ k, ¬(s.join k).Entered) :
    Inv v ({ s with tcb := some { c with joiner := .thread j } }.goto j .blocked) := by
  have hl := hi.live c hc
  have hp : s.phase = .running ∨ s.phase = .returned := by
    cases hph : s.phase with
    | running => exact .inl rfl
    | returned => exact .inr rfl
    | stopping => exact absurd (hl.dying.mpr hph) hs.1
    | gone => exact absurd (hl.dead.mpr hph) hs.2
  let s₁ : State J V := { s with tcb := some { c with joiner := .thread j } }
  have hself : (s₁.goto j .blocked).join j = .blocked := State.goto_join_self
  have hne : ∀ k, k ≠ j → (s₁.goto j .blocked).join k = s.join k := fun k => State.goto_join_of_ne
  have hent : ∀ k, ((s₁.goto j .blocked).join k).Entered → k = j := fun k hk => by
    by_contra hkj
    rw [hne k hkj] at hk
    exact hnone k hk
  have hdone : ¬∃ k x, (s₁.goto j .blocked).join k = .done 0 x := by
    rintro ⟨k, x, hk⟩
    obtain rfl := hent k (.inr ⟨x, hk⟩)
    rw [hself] at hk
    cases hk
  refine ⟨fun k l hk hl => (hent k hk).trans (hent l hl).symm, fun k r x hk => ?_, fun _ _ => hp,
    fun k hk => ?_, fun d hd => ?_, nofun⟩
  · by_cases hkj : k = j
    · subst hkj
      rw [hself] at hk
      cases hk
    · rw [hne k hkj] at hk
      exact hi.value k r x hk
  · obtain rfl := hent k (.inl (.inr hk))
    rw [hself] at hk
    cases hk
  · cases hd
    refine ⟨hl.dying, hl.dead, hl.return_val, fun k => ?_, fun h => absurd h hdone,
      nofun⟩
    by_cases hkj : k = j
    · subst hkj
      rw [hself]
      exact iff_of_true (.inl rfl) rfl
    · rw [hne k hkj]
      refine iff_of_false (fun h => hnone k (.inl h)) fun h => ?_
      cases h
      exact hkj rfl

omit [DecidableEq J] in
/-- **The thread is detached**, or its descriptor is freed. -/
theorem Inv.detachSection (hi : Inv v s) (hc : s.tcb = some c) (hnone : ∀ k, ¬(s.join k).Waits) :
    (c.state ≠ .dead → Inv v { s with
        tcb := some { c with joiner := .minusOne }, detach := .detached }) ∧
      (c.state = .dead → Inv v { s with tcb := none, detach := .detached }) := by
  have hl := hi.live c hc
  refine ⟨fun _ => ?_, fun hd => ?_⟩
  · refine ⟨hi.one, hi.value, hi.early, hi.late, fun d hd => ?_, nofun⟩
    cases hd
    exact ⟨hl.dying, hl.dead, hl.return_val,
      fun k => iff_of_false (hnone k) nofun, fun _ => rfl, fun _ => .inr rfl⟩
  · exact ⟨hi.one, hi.value, hi.early, hi.late, nofun,
      fun _ => ⟨hl.dead.mp hd, .inr ⟨rfl, hnone⟩⟩⟩

omit [DecidableEq J] in
theorem Inv.detachTest {d : Detach} (hi : Inv v s) (hc : s.tcb = some c)
    (ha : s.detach = .outside) : Inv v { s with detach := d } := by
  have hl := hi.live c hc
  have hnd : s.detach ≠ .detached := by
    rw [ha]
    decide
  refine ⟨hi.one, hi.value, hi.early, hi.late, fun e he => ?_, fun h => ?_⟩
  · rw [hc] at he
    cases he
    exact ⟨hl.dying, hl.dead, hl.return_val, hl.waits, hl.minusOne,
      fun h => .inl ((hl.settled h).resolve_right hnd)⟩
  · cases hc.symm.trans h

/-- **Every step that is in time is defined**, and keeps the invariant. -/
theorem Inv.next {l : Label J} (hi : Inv v s) (ha : allowed s l) (ht : InTime s l) :
    ∃ s', next v s l = some s' ∧ Inv v s' := by
  unfold Join.next
  cases l with
  | finish =>
    have hp : s.phase = .running := ha
    obtain ⟨c, hc⟩ := hi.phase_live (by rw [hp]; decide)
    rw [hc]
    exact ⟨_, rfl, hi.finish hc hp⟩
  | exit =>
    have hp : s.phase = .returned := ha
    obtain ⟨c, hc⟩ := hi.phase_live (by rw [hp]; decide)
    rw [hc]
    refine ⟨_, rfl, ?_⟩
    rw [wake_with]
    exact hi.exit hc hp
  | switched =>
    have hp : s.phase = .stopping := ha
    obtain ⟨c, hc⟩ := hi.phase_live (by rw [hp]; decide)
    obtain ⟨hfree, hdead⟩ := hi.switched hc hp
    rw [hc]
    dsimp only [Option.bind_eq_bind, Option.bind_some]
    rw [if_pos ((hi.live c hc).dying.mpr hp)]
    by_cases hj : c.joiner = .minusOne
    · rw [if_pos hj]
      exact ⟨_, rfl, hfree hj⟩
    · rw [if_neg hj]
      exact ⟨_, rfl, hdead hj⟩
  | joinTest j =>
    obtain ⟨c, hc⟩ := hi.time_live ht
    rw [hc]
    refine ⟨_, rfl, hi.goto (not_entered (.inl ha)) ?_⟩
    split
    · exact .inl rfl
    · exact .inr rfl
  | joinSection j =>
    obtain ⟨c, hc⟩ := hi.time_live ht.1
    rw [hc]
    dsimp only [Option.bind_eq_bind, Option.bind_some]
    by_cases hs : c.state ≠ .dying ∧ c.state ≠ .dead
    · rw [if_pos hs]
      exact ⟨_, rfl, hi.block hc hs ht.2⟩
    · rw [if_neg hs]
      refine ⟨_, rfl, hi.take hc (fun k _ => ht.2 k) ?_⟩
      rw [not_and_or, not_not, not_not] at hs
      exact hs.imp (hi.live c hc).dying.mp (hi.live c hc).dead.mp
  | joinAgain j =>
    have hj : s.join j = .woken := ha
    obtain ⟨c, hc⟩ := hi.waits_live (.inr hj)
    rw [hc]
    refine ⟨_, rfl, hi.take hc (fun k hk he => hk ?_) (hi.late j hj)⟩
    exact hi.one k j he (.inl (.inr hj))
  | detachTest =>
    obtain ⟨c, hc⟩ := hi.time_live ht
    refine ⟨{ s with detach := if c.joiner = .zero then .tested else .refused }, ?_,
      hi.detachTest hc ha⟩
    rw [hc]
    rfl
  | detachSection =>
    obtain ⟨c, hc⟩ := hi.time_live ht.1
    obtain ⟨hlive, hdead⟩ := hi.detachSection hc ht.2
    rw [hc]
    dsimp only [Option.bind_eq_bind, Option.bind_some]
    by_cases hs : c.state = .dead
    · rw [if_neg (not_not.mpr hs)]
      exact ⟨_, rfl, hdead hs⟩
    · rw [if_pos hs]
      exact ⟨_, rfl, hlive hs⟩

omit [DecidableEq J] in
theorem Inv.good (hi : Inv v s) : Good v s where
  one j k x y hj hk := hi.one j k (.inr ⟨x, hj⟩) (.inr ⟨y, hk⟩)
  value j x hj := (hi.value j 0 x hj).elim And.right nofun
  others j r x hj := (hi.value j r x hj).imp And.left id
  woken hp j hj := by
    rcases hi.early j hj with h | h <;> rw [h] at hp <;> rcases hp with hp | hp <;> cases hp

/-- The condition on a step of a run. -/
def StepInTime (o : Option (State J V)) (l : Label J) : Prop := ∀ s, o = some s → InTime s l

/-- **Runs in time**: the descriptor is not used after it has been freed, one join at most gets the
value of the thread, and nobody is left blocked. -/
theorem join_once {o : Option (State J V)} (h : ((sys v).restrict StepInTime).Reach o) :
    ∃ s, o = some s ∧ Good v s := by
  obtain ⟨s, rfl, hi⟩ := h.defined (I := Inv v) (fun s ⟨junk, hs⟩ => hs ▸ inv_start v junk)
    fun s l hi ha ht => hi.next ha (ht s rfl)
  exact ⟨s, rfl, hi.good⟩

theorem reach_step {l : Label J} (h : (sys v).Reach (some s)) (ha : allowed s l)
    (hn : next v s l = some s') : (sys v).Reach (some s') := h.step ⟨s, rfl, ha, hn⟩

theorem reach_step_inTime {l : Label J} (h : ((sys v).restrict StepInTime).Reach (some s))
    (ha : allowed s l) (ht : InTime s l) (hn : next v s l = some s') :
    ((sys v).restrict StepInTime).Reach (some s') :=
  h.step ⟨fun _ hs => Option.some.inj hs ▸ ht, s, rfl, ha, hn⟩

/-- A thread is joined while it runs, and another call comes too late. -/
theorem join_once_two : ∃ s : State Bool ℕ, s.join false = .done 0 (some 7) ∧
    s.join true = .done (-1) none ∧ s.tcb = none ∧ Good 7 s := by
  have h₀ : ((sys 7).restrict StepInTime).Reach (some (start 0 : State Bool ℕ)) :=
    .init ⟨_, rfl, 0, rfl⟩
  have h₁ := reach_step_inTime (l := .joinTest false) h₀ rfl (fun h => nomatch h.1) rfl
  have hfree : ∀ j, ¬(((start 0 : State Bool ℕ).goto false .tested).join j).Entered
    | false => not_entered (.inr (.inl rfl))
    | true => not_entered (.inl rfl)
  have h₂ := reach_step_inTime (l := .joinSection false) h₁ rfl ⟨(fun h => nomatch h.1), hfree⟩ rfl
  have h₃ := reach_step_inTime (l := .joinTest true) h₂ rfl (fun h => nomatch h.1) rfl
  have h₄ := reach_step_inTime (l := .finish) h₃ rfl trivial rfl
  have h₅ := reach_step_inTime (l := .exit) h₄ rfl trivial rfl
  have h₆ := reach_step_inTime (l := .switched) h₅ rfl trivial rfl
  have h₇ := reach_step_inTime (l := .joinAgain false) h₆ rfl trivial rfl
  obtain ⟨s, hs, hg⟩ := join_once h₇
  cases hs
  exact ⟨_, rfl, rfl, rfl, hg⟩

/-- Two calls of `uthread_join` that both find `joiner` to be `0`. The first one is never woken. -/
theorem join_lost : ∃ s : State Bool ℕ, (sys 7).Reach (some s) ∧ s.phase = .gone ∧
    s.join false = .blocked := by
  have h₀ : (sys 7).Reach (some (start 0 : State Bool ℕ)) := .init ⟨_, rfl, 0, rfl⟩
  have h₁ := reach_step (l := .joinTest false) h₀ rfl rfl
  have h₂ := reach_step (l := .joinTest true) h₁ rfl rfl
  have h₃ := reach_step (l := .joinSection false) h₂ rfl rfl
  have h₄ := reach_step (l := .joinSection true) h₃ rfl rfl
  have h₅ := reach_step (l := .finish) h₄ rfl rfl
  have h₆ := reach_step (l := .exit) h₅ rfl rfl
  have h₇ := reach_step (l := .switched) h₆ rfl rfl
  exact ⟨_, h₇, rfl, rfl⟩

end IntroSystems.Uthread.Join
