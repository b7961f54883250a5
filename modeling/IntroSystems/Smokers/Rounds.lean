import IntroSystems.Lib.Tally
import IntroSystems.Smokers.Cast

/-!
# The rounds of the smokers

* `Stage`: the stages of a run. The threads start; in a round the agent has called two helpers, one
  of them has found its match, the smoker has smoked, and the agent has been told; the agent is
  finished. `Stage.step`: a section leads from stage to stage.
* **`every_round_smoked`**: whenever the agent is told, the right smoker has smoked and the flags
  are clear, and at the end the assertions of `main` hold.
-/

set_option autoImplicit false

namespace IntroSystems.Smokers

open Monitor Resource Tally

/-- The sum of three counters. -/
def sum (c : Resource → ℤ) : ℤ := c MATCH + c PAPER + c TOBACCO

theorem sum_increment (c : Resource → ℤ) (r : Resource) : sum (increment c r) = sum c + 1 := by
  unfold sum increment
  cases r <;> simp <;> ring

def HelperAt.Rests (a : HelperAt) : Prop := a = .fresh ∨ a = .idle

/-! ## Stages -/

/-- Before the first round. The agent sleeps only while a smoker has not started. -/
structure Start (k : Cast) (d : Shared) : Prop where
  agent : k.agent = .fresh ∨ k.agent = .waking ∨ k.agent = .poked
  waking : k.agent = .waking → ∃ r, k.smoker r = .fresh
  helper : ∀ r, (k.helper r).Rests
  smoker : ∀ r, k.smoker r ≠ .called
  table : k.table = []
  flag : ∀ r, d.flag r = 0
  signals : d.signal_count = fun _ => 0
  smokes : d.smoke_count = fun _ => 0
  active : d.num_active_threads = number (fun _ a => a ≠ .fresh) k.smoker

/-- Between two rounds. -/
structure Quiet (k : Cast) (d : Shared) : Prop where
  helper : ∀ r, (k.helper r).Rests
  smoker : ∀ r, k.smoker r = .idle
  table : k.table = []
  flag : ∀ r, d.flag r = 0
  even : ∀ r, d.signal_count r = d.smoke_count r

/-- Where the helper is for a resource that the agent has made available: on its way, back with its
flag set, or it has missed the signal because it did not wait for it yet. -/
inductive Answers (strict : Prop) (k : Cast) (d : Shared) (r : Resource) : Prop
  | called : k.helper r = .called → d.flag r = 0 → Answers strict k d r
  | back : k.helper r = .idle → d.flag r = 1 → Answers strict k d r
  | missed : ¬strict → (k.helper r).Rests → d.flag r = 0 → Answers strict k d r

/-- The agent has made `x` and `y` available for the smoker with `z`. -/
structure Calling (strict : Prop) (k : Cast) (d : Shared) (i : ℕ) (x y z : Resource) : Prop where
  distinct : Distinct x y z
  agent : k.agent = .asleep i
  smoker : ∀ r, k.smoker r = .idle
  table : k.table = []
  third : (k.helper z).Rests
  flag : d.flag z = 0
  first : Answers strict k d x
  second : Answers strict k d y
  missing : d.flag x = 0 ∨ d.flag y = 0
  owes : ∀ r, d.signal_count r = d.smoke_count r + if r = z then 1 else 0

/-- The helper for `x` has woken the smoker. -/
structure Matched (k : Cast) (d : Shared) (i : ℕ) (x y z : Resource) : Prop where
  distinct : Distinct x y z
  agent : k.agent = .asleep i
  called : k.smoker z = .called
  smoker : ∀ r, r ≠ z → k.smoker r = .idle
  table : k.table = [x]
  first : k.helper x = .serving
  second : k.helper y = .idle
  third : (k.helper z).Rests
  owes : ∀ r, d.signal_count r = d.smoke_count r + if r = z then 1 else 0

/-- The smoker has smoked and has woken the helper for `x`. -/
structure Smoked (k : Cast) (d : Shared) (i : ℕ) (x y z : Resource) : Prop where
  distinct : Distinct x y z
  agent : k.agent = .asleep i
  smoker : ∀ r, k.smoker r = .idle
  table : k.table = []
  first : k.helper x = .serving
  second : k.helper y = .idle
  third : (k.helper z).Rests
  even : ∀ r, d.signal_count r = d.smoke_count r

/-- Round `i` has begun. -/
structure Begun (n i : ℕ) (d : Shared) : Prop where
  lt : i < n
  sum_eq : sum d.signal_count = i + 1

/-- The stages of a run of `n` rounds. In a strict run no signal of the agent is missed. -/
inductive Stage (strict : Prop) (n : ℕ) (k : Cast) (d : Shared) : Prop
  | start : Start k d → Stage strict n k d
  | calling {i : ℕ} {x y z : Resource} : Begun n i d → Calling strict k d i x y z →
      Stage strict n k d
  | matched {i : ℕ} {x y z : Resource} : Begun n i d → Matched k d i x y z → Stage strict n k d
  | smoked {i : ℕ} {x y z : Resource} : Begun n i d → Smoked k d i x y z → Stage strict n k d
  | returned {i : ℕ} : Begun n i d → k.agent = .returned i → Quiet k d → Stage strict n k d
  | done : sum d.signal_count = n → k.agent = .done → Quiet k d → Stage strict n k d

variable {strict : Prop} {n i : ℕ} {random : ℕ → Fin 6} {k : Cast} {d : Shared} {x y z r : Resource}

/-! ## A helper starts -/

theorem rests_setHelper (h : (k.helper z).Rests) (r : Resource) :
    ((k.setHelper r .idle).helper z).Rests := by
  by_cases hz : z = r
  · subst hz
    exact .inr (k.setHelper_self z _)
  · rw [k.setHelper_of_ne hz]
    exact h

theorem helper_setHelper_of_ne {a b : HelperAt} (h : k.helper x = a) (hr : k.helper r = b)
    (hab : a ≠ b) (c : HelperAt) : (k.setHelper r c).helper x = a := by
  have hx : x ≠ r := fun e => hab (h.symm.trans (e ▸ hr))
  rw [k.setHelper_of_ne hx, h]

theorem Answers.helperStarts (h : Answers strict k d x) (hr : k.helper r = .fresh) :
    Answers strict (k.setHelper r .idle) d x := by
  cases h with
  | called h1 h2 => exact .called (helper_setHelper_of_ne h1 hr (by decide) _) h2
  | back h1 h2 => exact .back (helper_setHelper_of_ne h1 hr (by decide) _) h2
  | missed h1 h2 h3 => exact .missed h1 (rests_setHelper h2 r) h3

/-- **A helper may start at any time.** -/
theorem Stage.helperStarts (h : Stage strict n k d) (hr : k.helper r = .fresh) :
    Stage strict n (k.setHelper r .idle) d := by
  cases h with
  | start h => exact .start { h with helper := fun z => rests_setHelper (h.helper z) r }
  | calling hb h =>
    exact .calling hb { h with
      third := rests_setHelper h.third r
      first := h.first.helperStarts hr
      second := h.second.helperStarts hr }
  | matched hb h =>
    exact .matched hb { h with
      third := rests_setHelper h.third r
      first := helper_setHelper_of_ne h.first hr (by decide) _
      second := helper_setHelper_of_ne h.second hr (by decide) _ }
  | smoked hb h =>
    exact .smoked hb { h with
      third := rests_setHelper h.third r
      first := helper_setHelper_of_ne h.first hr (by decide) _
      second := helper_setHelper_of_ne h.second hr (by decide) _ }
  | returned hb ha h =>
    exact .returned hb ha { h with helper := fun z => rests_setHelper (h.helper z) r }
  | done hb ha h => exact .done hb ha { h with helper := fun z => rests_setHelper (h.helper z) r }

/-! ## The threads start -/

theorem AgentAt.wake_ne_waking (a : AgentAt) : a.wake ≠ .waking := by
  cases a <;> simp [AgentAt.wake]

/-- **A smoker starts.** -/
theorem Start.smokerStarts (h : Start k d) (hr : k.smoker r = .fresh) :
    Start (k.rouse.setSmoker r .idle)
      { d with num_active_threads := d.num_active_threads + 1 } := by
  refine ⟨?_, fun hw => absurd hw (AgentAt.wake_ne_waking _), h.helper, ?_, h.table, h.flag,
    h.signals, h.smokes, ?_⟩
  · change k.agent.wake = _ ∨ k.agent.wake = _ ∨ k.agent.wake = _
    rcases h.agent with ha | ha | ha <;> simp [ha, AgentAt.wake]
  · exact (Function.forall_update_iff k.smoker fun _ a => a ≠ .called).2
      ⟨by decide, fun r _ => h.smoker r⟩
  · change d.num_active_threads + 1 = number _ (Function.update k.smoker r .idle)
    rw [number_update, hr, h.active]
    rfl

theorem Start.active_lt_iff (h : Start k d) :
    d.num_active_threads < 3 ↔ ∃ r, k.smoker r = .fresh := by
  have hcard : (3 : ℤ) = Fintype.card Resource := rfl
  rw [h.active, hcard, number_lt_card_iff]
  simp

theorem Start.agentWaits (h : Start k d) (hd : d.num_active_threads < 3) :
    Start (k.setAgent .waking) d :=
  { h with agent := .inr (.inl rfl), waking := fun _ => h.active_lt_iff.mp hd }

theorem Start.quiet (h : Start k d) (hd : ¬d.num_active_threads < 3) : Quiet k d := by
  refine ⟨h.helper, fun r => ?_, h.table, h.flag, fun r => by rw [h.signals, h.smokes]⟩
  rw [h.active_lt_iff, not_exists] at hd
  have h1 := hd r
  have h2 := h.smoker r
  cases ha : k.smoker r <;> simp_all

/-! ## A round -/

theorem call_helper_of_rests (h : (k.helper x).Rests) :
    (k.call x).helper x = .called ∧ k.helper x = .idle ∨
      (k.call x).helper x = .fresh ∧ k.helper x = .fresh := by
  rw [Cast.call, Cast.setHelper_self]
  rcases h with h | h <;> simp [h]

theorem call_helper_of_ne (h : x ≠ y) : (k.call y).helper x = k.helper x := k.setHelper_of_ne h _

/-- **The agent begins a round.** In a strict run both helpers wait for it. -/
theorem Quiet.calls (h : Quiet k d) (hxyz : Distinct x y z)
    (hx : strict → k.helper x = .idle) (hy : strict → k.helper y = .idle) :
    Calling strict (((k.call x).call y).setAgent (.asleep i))
      { d with signal_count := increment d.signal_count z } i x y z := by
  have hanswer : ∀ r k', (k.helper r).Rests → (strict → k.helper r = .idle) →
      Cast.helper k' r = (k.call r).helper r → Answers strict k'
        { d with signal_count := increment d.signal_count z } r := by
    intro r k' hr hs hk
    rcases call_helper_of_rests hr with ⟨h1, -⟩ | ⟨h1, h2⟩
    · exact .called (hk.trans h1) (h.flag r)
    · refine .missed (fun hst => ?_) (.inl (hk.trans h1)) (h.flag r)
      rw [hs hst] at h2
      exact absurd h2 (by decide)
  refine ⟨hxyz, rfl, h.smoker, h.table, ?_, h.flag z, ?_, ?_, .inl (h.flag x), fun r => ?_⟩
  · change (((k.call x).call y).helper z).Rests
    rw [call_helper_of_ne hxyz.yz.symm, call_helper_of_ne hxyz.xz.symm]
    exact h.helper z
  · exact hanswer x _ (h.helper x) hx (call_helper_of_ne hxyz.xy)
  · refine hanswer y _ (h.helper y) hy ?_
    change ((k.call x).call y).helper y = (k.call y).helper y
    rw [Cast.call, Cast.setHelper_self, call_helper_of_ne hxyz.xy.symm, Cast.call,
      Cast.setHelper_self]
  · change increment d.signal_count z r = d.smoke_count r + _
    rw [increment, Function.update_apply]
    split_ifs with hr
    · rw [hr, h.even]
    · rw [h.even, add_zero]

theorem Calling.swap (h : Calling strict k d i x y z) : Calling strict k d i y x z :=
  { h with distinct := h.distinct.swap, first := h.second, second := h.first, missing := h.missing.symm }

theorem Answers.setFlag (h : Answers strict k d y) (hyx : y ≠ x) (a : HelperAt) {k' : Cast}
    (hk : k'.helper = Function.update k.helper x a) :
    Answers strict k' { d with flag := Function.update d.flag x 1 } y := by
  have hh : k'.helper y = k.helper y := by rw [hk, Function.update_of_ne hyx]
  have hf : Function.update d.flag x 1 y = d.flag y := Function.update_of_ne hyx ..
  cases h with
  | called h1 h2 => exact .called (hh.trans h1) (hf.trans h2)
  | back h1 h2 => exact .back (hh.trans h1) (hf.trans h2)
  | missed h1 h2 h3 => exact .missed h1 (hh ▸ h2) (hf.trans h3)

theorem Calling.helperWaits (h : Calling strict k d i x y z) (hy : d.flag y = 0) :
    Calling strict (k.setHelper x .idle) { d with flag := Function.update d.flag x 1 } i x y z := by
  refine { h with
    third := rests_setHelper h.third x
    flag := (Function.update_of_ne h.distinct.xz.symm ..).trans h.flag
    first := .back (k.setHelper_self x _) (Function.update_self ..)
    second := h.second.setFlag h.distinct.xy.symm _ rfl
    missing := .inr ((Function.update_of_ne h.distinct.xy.symm ..).trans hy) }

theorem Calling.helperMatches (h : Calling strict k d i x y z) (hy : d.flag y ≠ 0) :
    Matched (((k.setSmoker z .called).setHelper x .serving).setTable (k.table ++ [x]))
      { d with flag := Function.update d.flag x 1 } i x y z := by
  have hyi : k.helper y = .idle := by
    cases h.second with
    | called _ h2 => exact absurd h2 hy
    | back h1 _ => exact h1
    | missed _ _ h3 => exact absurd h3 hy
  refine ⟨h.distinct, h.agent, Function.update_self .., fun r hr => ?_, ?_, ?_, ?_, ?_, h.owes⟩
  · exact (Function.update_of_ne hr ..).trans (h.smoker r)
  · change k.table ++ [x] = [x]
    rw [h.table, List.nil_append]
  · exact Function.update_self ..
  · exact (Function.update_of_ne h.distinct.xy.symm ..).trans hyi
  · change (Function.update k.helper x .serving z).Rests
    rw [Function.update_of_ne h.distinct.xz.symm]
    exact h.third

theorem Matched.smokerSmokes (h : Matched k d i x y z) :
    Smoked ((k.setTable k.table.tail).setSmoker z .idle)
      { d with smoke_count := increment d.smoke_count z } i x y z := by
  refine ⟨h.distinct, h.agent, fun r => ?_, ?_, h.first, h.second, h.third, fun r => ?_⟩
  · by_cases hr : r = z
    · subst hr
      exact Function.update_self ..
    · exact (Function.update_of_ne hr ..).trans (h.smoker r hr)
  · change k.table.tail = []
    rw [h.table, List.tail_cons]
  · change d.signal_count r = increment d.smoke_count z r
    rw [h.owes, increment, Function.update_apply]
    split_ifs with hr
    · rw [hr]
    · rw [add_zero]

theorem Smoked.helperClears (h : Smoked k d i x y z) :
    Quiet (k.rouse.setHelper x .idle) { d with flag := fun _ => 0 } := by
  refine ⟨fun r => ?_, h.smoker, h.table, fun _ => rfl, h.even⟩
  rcases h.distinct.cases r with rfl | rfl | rfl
  · exact .inr (Cast.setHelper_self ..)
  · exact rests_setHelper (k := k.rouse) (.inr h.second) x
  · exact rests_setHelper (k := k.rouse) h.third x

/-! ## Steps -/

theorem HelperAt.Rests.ne_called {a : HelperAt} (h : a.Rests) : a ≠ .called := by
  rintro rfl
  exact absurd h (by simp [HelperAt.Rests])

theorem HelperAt.Rests.ne_serving {a : HelperAt} (h : a.Rests) : a ≠ .serving := by
  rintro rfl
  exact absurd h (by simp [HelperAt.Rests])

theorem Answers.ne_serving (h : Answers strict k d r) : k.helper r ≠ .serving := by
  cases h with
  | called h _ | back h _ => rw [h]; decide
  | missed _ h _ => exact h.ne_serving

theorem Stage.of_called (h : Stage strict n k d) (hr : k.helper r = .called) :
    ∃ i y z, Begun n i d ∧ Calling strict k d i r y z := by
  cases h with
  | start h => exact absurd hr (h.helper r).ne_called
  | calling hb h =>
    rcases h.distinct.cases r with rfl | rfl | rfl
    · exact ⟨_, _, _, hb, h⟩
    · exact ⟨_, _, _, hb, h.swap⟩
    · exact absurd hr h.third.ne_called
  | matched hb h =>
    rcases h.distinct.cases r with rfl | rfl | rfl
    · exact absurd (h.first.symm.trans hr) (by decide)
    · exact absurd (h.second.symm.trans hr) (by decide)
    · exact absurd hr h.third.ne_called
  | smoked hb h =>
    rcases h.distinct.cases r with rfl | rfl | rfl
    · exact absurd (h.first.symm.trans hr) (by decide)
    · exact absurd (h.second.symm.trans hr) (by decide)
    · exact absurd hr h.third.ne_called
  | returned hb ha h => exact absurd hr (h.helper r).ne_called
  | done hb ha h => exact absurd hr (h.helper r).ne_called

theorem Stage.of_serving (h : Stage strict n k d) (hr : k.helper r = .serving) (ht : r ∉ k.table) :
    ∃ i y z, Begun n i d ∧ Smoked k d i r y z := by
  cases h with
  | start h => exact absurd hr (h.helper r).ne_serving
  | calling hb h =>
    rcases h.distinct.cases r with rfl | rfl | rfl
    · exact absurd hr h.first.ne_serving
    · exact absurd hr h.second.ne_serving
    · exact absurd hr h.third.ne_serving
  | matched hb h =>
    rcases h.distinct.cases r with rfl | rfl | rfl
    · exact absurd (h.table ▸ List.mem_singleton_self _) ht
    · exact absurd (h.second.symm.trans hr) (by decide)
    · exact absurd hr h.third.ne_serving
  | smoked hb h =>
    rcases h.distinct.cases r with rfl | rfl | rfl
    · exact ⟨_, _, _, hb, h⟩
    · exact absurd (h.second.symm.trans hr) (by decide)
    · exact absurd hr h.third.ne_serving
  | returned hb ha h => exact absurd hr (h.helper r).ne_serving
  | done hb ha h => exact absurd hr (h.helper r).ne_serving

theorem Stage.of_smoker (h : Stage strict n k d) (hr : k.smoker r ≠ .idle) :
    k.smoker r = .fresh ∧ Start k d ∨
      k.smoker r = .called ∧ ∃ i x y, Begun n i d ∧ Matched k d i x y r := by
  cases h with
  | start h =>
    have := h.smoker r
    refine .inl ⟨?_, h⟩
    cases ha : k.smoker r <;> simp_all
  | calling hb h => exact absurd (h.smoker r) hr
  | @matched i x y z hb h =>
    by_cases hz : r = z
    · subst hz
      exact .inr ⟨h.called, _, _, _, hb, h⟩
    · exact absurd (h.smoker r hz) hr
  | smoked hb h => exact absurd (h.smoker r) hr
  | returned hb ha h => exact absurd (h.smoker r) hr
  | done hb ha h => exact absurd (h.smoker r) hr

variable {σ : State Thread Point Shared Cond} {res : Result}

theorem Shows.blocked_helper_iff (hs : Shows k σ) :
    σ.Blocked (.helper r) ↔ k.helper r = .idle ∨ r ∈ k.table := by
  rw [State.Blocked, hs.queue]
  constructor
  · rintro ⟨c, hc⟩
    cases c <;> simp_all [Cast.queue]
  · rintro (h | h)
    · exact ⟨.available r, by simp [Cast.queue, h]⟩
    · exact ⟨.helperSmoke, by simp [Cast.queue, h]⟩

theorem Shows.blocked_smoker_iff (hs : Shows k σ) :
    σ.Blocked (.smoker r) ↔ k.smoker r = .idle := by
  rw [State.Blocked, hs.queue]
  constructor
  · rintro ⟨c, hc⟩
    cases c <;> simp_all [Cast.queue]
  · exact fun h => ⟨.resourcePair r, by simp [Cast.queue, h]⟩

theorem Shows.blocked_agent_iff (hs : Shows k σ) :
    σ.Blocked .agent ↔ k.agent.sleeps = true := by
  rw [State.Blocked, hs.queue]
  constructor
  · rintro ⟨c, hc⟩
    cases c <;> simp_all [Cast.queue]
  · exact fun h => ⟨.smoke, by simp [Cast.queue, h]⟩

theorem Stage.helper (h : Stage strict n k σ.data) (hs : Shows k σ)
    (hb : ¬σ.Blocked (.helper r))
    (hres : body n random (.helper r) (σ.pc (.helper r)) σ.data = some res) :
    ∃ k', Shows k' (σ.after (.helper r) res) ∧ Stage strict n k' res.1 := by
  rw [hs.blocked_helper_iff, not_or] at hb
  obtain ⟨hidle, htable⟩ := hb
  rw [hs.pc] at hres
  cases ha : k.helper r with
  | fresh =>
    rw [Cast.pc, ha, HelperAt.point, body_helper_start] at hres
    obtain rfl := Option.some.inj hres
    exact ⟨_, hs.helperWaits hidle, h.helperStarts ha⟩
  | idle => exact absurd ha hidle
  | called =>
    obtain ⟨i, y, z, hbeg, hc⟩ := h.of_called ha
    rw [Cast.pc, ha, HelperAt.point, body_helper_match hc.distinct hc.flag] at hres
    obtain rfl := Option.some.inj hres
    by_cases hy : σ.data.flag y = 0
    · rw [if_neg (not_not.mpr hy)]
      exact ⟨_, hs.helperWaits hidle, .calling ⟨hbeg.lt, hbeg.sum_eq⟩ (hc.helperWaits hy)⟩
    · rw [if_pos hy]
      exact ⟨_, hs.helperMatches hidle (hc.smoker z),
        .matched ⟨hbeg.lt, hbeg.sum_eq⟩ (hc.helperMatches hy)⟩
  | serving =>
    obtain ⟨i, y, z, hbeg, hc⟩ := h.of_serving ha htable
    rw [Cast.pc, ha, HelperAt.point, body_helper_clear] at hres
    obtain rfl := Option.some.inj hres
    refine ⟨_, hs.helperClears hidle, .returned ⟨hbeg.lt, hbeg.sum_eq⟩ ?_ hc.helperClears⟩
    change k.agent.wake = .returned i
    rw [hc.agent, AgentAt.wake]

theorem Stage.smoker (h : Stage strict n k σ.data) (hs : Shows k σ)
    (hb : ¬σ.Blocked (.smoker r))
    (hres : body n random (.smoker r) (σ.pc (.smoker r)) σ.data = some res) :
    ∃ k', Shows k' (σ.after (.smoker r) res) ∧ Stage strict n k' res.1 := by
  have hidle := mt hs.blocked_smoker_iff.mpr hb
  rw [hs.pc, body_smoker] at hres
  rcases h.of_smoker hidle with ⟨ha, hst⟩ | ⟨ha, i, x, y, hbeg, hm⟩
  · rw [Cast.pc, ha] at hres
    obtain rfl := Option.some.inj hres
    exact ⟨_, hs.smokerStarts hidle, .start (hst.smokerStarts ha)⟩
  · rw [Cast.pc, ha] at hres
    obtain rfl := Option.some.inj hres
    exact ⟨_, hs.smokerSmokes hidle, .smoked ⟨hbeg.lt, hbeg.sum_eq⟩ hm.smokerSmokes⟩

/-- **The agent begins a round, or is finished.** -/
theorem Quiet.iterate (h : Quiet k σ.data) (hs : Shows k σ) (ha : k.agent.sleeps = false)
    (hsum : sum σ.data.signal_count = i) (hi : i ≤ n)
    (hready : strict → ∀ c ∈ (iterate n random i σ.data).2.1, σ.queue c ≠ []) :
    ∃ k', Shows k' (σ.after .agent (iterate n random i σ.data)) ∧
      Stage strict n k' (iterate n random i σ.data).1 := by
  by_cases hlt : i < n
  · rw [iterate_of_lt hlt] at hready ⊢
    have hidle : ∀ r, σ.queue (.available r) ≠ [] → k.helper r = .idle := by
      intro r hq
      by_contra hne
      exact hq (by simp [hs.queue, Cast.queue, hne])
    refine ⟨_, hs.agentCalls ha _ _ i, .calling ⟨hlt, ?_⟩ (h.calls (choice_distinct (random i))
      (fun hst => hidle _ (hready hst _ List.mem_cons_self))
      fun hst => hidle _ (hready hst _ (List.mem_cons_of_mem _ List.mem_cons_self)))⟩
    exact (sum_increment ..).trans (by rw [hsum])
  · rw [iterate_of_le (not_lt.mp hlt)]
    refine ⟨_, hs.agentLeaves ha, .done ?_ rfl { h with }⟩
    rw [hsum]
    omega

/-- **What the agent does when it is up**: it waits for the smokers, or goes on to a round. -/
theorem Stage.agent_cases (h : Stage strict n k d) (ha : k.agent.sleeps = false)
    (hres : body n random .agent k.agent.point d = some res) :
    Start k d ∧ d.num_active_threads < 3 ∧ res = (d, [], .wait .smoke .waitStart) ∨
      ∃ i : ℕ, Quiet k d ∧ sum d.signal_count = i ∧ i ≤ n ∧ res = iterate n random i d := by
  cases h with
  | start h =>
    have hres : some (waitForThreads n random d) = some res := by
      rw [← hres]
      rcases h.agent with hk | hk | hk <;> rw [hk]
      · rfl
      · rw [hk] at ha
        exact absurd ha (by decide)
      · rfl
    obtain rfl := Option.some.inj hres
    by_cases hlt : d.num_active_threads < 3
    · exact .inl ⟨h, hlt, if_pos hlt⟩
    · exact .inr ⟨0, h.quiet hlt, by rw [h.signals]; rfl, Nat.zero_le n, if_neg hlt⟩
  | calling _ h | matched _ h | smoked _ h =>
    rw [h.agent] at ha
    exact absurd ha (by simp [AgentAt.sleeps])
  | returned hb hk h =>
    rw [hk] at hres
    exact .inr ⟨_, h, hb.sum_eq, hb.lt, (Option.some.inj hres).symm⟩
  | done _ hk _ =>
    rw [hk] at hres
    exact absurd hres (by simp [body, Smokers.agent, AgentAt.point])

theorem Stage.agent (h : Stage strict n k σ.data) (hs : Shows k σ) (hb : ¬σ.Blocked .agent)
    (hres : body n random .agent (σ.pc .agent) σ.data = some res)
    (hready : strict → ∀ c ∈ res.2.1, σ.queue c ≠ []) :
    ∃ k', Shows k' (σ.after .agent res) ∧ Stage strict n k' res.1 := by
  have hsleep := eq_false_of_ne_true (mt hs.blocked_agent_iff.mpr hb)
  rw [hs.pc] at hres
  rcases h.agent_cases hsleep hres with ⟨hst, hlt, rfl⟩ | ⟨i, hq, hsum, hi, rfl⟩
  · exact ⟨_, hs.agentWaits hsleep, .start (hst.agentWaits hlt)⟩
  · exact hq.iterate hs hsleep hsum hi hready

/-! ## Every run -/

/-- Each signal that the agent sends finds somebody waiting for it. -/
def Ready (n : ℕ) (random : ℕ → Fin 6) (σ : State Thread Point Shared Cond) : Act Thread → Prop
  | .run .agent => ∀ res, body n random .agent (σ.pc .agent) σ.data = some res →
      ∀ c ∈ res.2.1, σ.queue c ≠ []
  | _ => True

/-- Everybody before the first section. -/
def Cast.initial : Cast := ⟨.fresh, fun _ => .fresh, fun _ => .fresh, []⟩

theorem shows_initial : Shows .initial
    ⟨(smokers n random).data, fun _ => (smokers n random).start, fun _ => [], none⟩ := by
  refine ⟨?_, ?_⟩
  · funext t
    cases t <;> rfl
  · funext c
    cases c <;> rfl

theorem start_initial (n : ℕ) (random : ℕ → Fin 6) : Start .initial (smokers n random).data := by
  refine ⟨.inl rfl, fun h => absurd h (by decide), fun _ => .inl rfl, fun _ => nofun, rfl,
    fun _ => rfl, rfl, rfl, ?_⟩
  exact (number_eq_zero_iff.mpr fun _ => rfl).symm

/-- **The stages of every run.** -/
theorem reach_stage (strict : Prop) {G : State Thread Point Shared Cond → Act Thread → Prop}
    (hG : strict → ∀ σ a, G σ a → Ready n random σ a)
    (hr : ((sys (smokers n random)).restrict G).Reach σ) :
    ∃ k, Shows k σ ∧ Stage strict n k σ.data := by
  refine hr.invariant (I := fun σ => ∃ k, Shows k σ ∧ Stage strict n k σ.data) ?_ ?_
  · intro σ hσ
    rw [show σ = _ from hσ]
    exact ⟨_, shows_initial, .start (start_initial n random)⟩
  · rintro σ a σ' hr ⟨k, hs, h⟩ ⟨hg, hst⟩
    cases hst with
    | lock _ _ _ => exact ⟨k, ⟨hs.pc, hs.queue⟩, h⟩
    | @run t res hh hres =>
      have hb := (reach_queued hr.of_restrict).holder t hh
      cases t with
      | agent => exact h.agent hs hb hres fun hst => hG hst σ _ hg res hres
      | helper r => exact h.helper hs hb hres
      | smoker r => exact h.smoker hs hb hres

theorem Stage.quiet_of_returned (h : Stage strict n k d) (ha : k.agent = .returned i) :
    Quiet k d := by
  cases h with
  | start h => rcases h.agent with h | h | h <;> exact absurd (h.symm.trans ha) (by simp)
  | calling _ h | matched _ h | smoked _ h => exact absurd (h.agent.symm.trans ha) (by simp)
  | returned _ _ h => exact h
  | done _ h _ => exact absurd (h.symm.trans ha) (by simp)

theorem Stage.quiet_of_done (h : Stage strict n k d) (ha : k.agent = .done) :
    Quiet k d ∧ sum d.signal_count = n := by
  cases h with
  | start h => rcases h.agent with h | h | h <;> exact absurd (h.symm.trans ha) (by simp)
  | calling _ h | matched _ h | smoked _ h => exact absurd (h.agent.symm.trans ha) (by simp)
  | returned _ h _ => exact absurd (h.symm.trans ha) (by simp)
  | done hsum _ h => exact ⟨h, hsum⟩

/-- **Every round is smoked by the right smoker.** -/
theorem every_round_smoked (hr : (sys (smokers n random)).Reach σ) :
    (∀ i, σ.pc .agent = .waitSmoke i → σ.holder = some .agent →
      ∀ r, σ.data.signal_count r = σ.data.smoke_count r ∧ σ.data.flag r = 0) ∧
      (σ.pc .agent = .done → Asserts n σ.data) := by
  obtain ⟨k, hs, h⟩ := reach_stage False (G := fun _ _ => True) False.elim
    (hr.restrict_of_forall fun _ _ => trivial)
  have hpc : σ.pc .agent = k.agent.point := by rw [hs.pc]; rfl
  rw [hpc]
  constructor
  · intro i hi hh r
    have hb := mt hs.blocked_agent_iff.mpr ((reach_queued hr).holder _ hh)
    have ha : k.agent = .returned i := by
      cases ha : k.agent <;> rw [ha] at hi hb <;> simp_all [AgentAt.point, AgentAt.sleeps]
    have hq := h.quiet_of_returned ha
    exact ⟨hq.even r, hq.flag r⟩
  · intro hd
    have ha : k.agent = .done := by cases ha : k.agent <;> simp_all [AgentAt.point]
    obtain ⟨hq, hsum⟩ := h.quiet_of_done ha
    refine ⟨hq.even _, hq.even _, hq.even _, ?_⟩
    rw [← hq.even, ← hq.even, ← hq.even]
    exact hsum

/-- The agent is back from its first round. -/
theorem every_round_smoked_first : ∃ σ, (sys (smokers 2 fun _ => 0)).Reach σ ∧
    (σ.pc .agent = .waitSmoke 0 ∧ σ.holder = some .agent ∧ σ.data.smoke_count TOBACCO = 1) ∧
    ∀ r, σ.data.signal_count r = σ.data.smoke_count r ∧ σ.data.flag r = 0 := by
  obtain ⟨σ, hr, hp⟩ := reach_of_turns (P := smokers 2 fun _ => 0)
    (p := fun σ => decide (σ.holder = none ∧ σ.pc .agent = .waitSmoke 0 ∧
      (∀ c, .agent ∉ σ.queue c) ∧ σ.data.smoke_count TOBACCO = 1))
    [.helper MATCH, .agent, .helper PAPER, .smoker TOBACCO, .helper TOBACCO, .smoker MATCH,
      .smoker PAPER, .agent, .helper PAPER, .helper MATCH, .smoker TOBACCO, .helper MATCH]
    (by decide)
  obtain ⟨hh, hpc, hq, hc⟩ := of_decide_eq_true hp
  have hlock : (sys (smokers 2 fun _ => 0)).Reach { σ with holder := some .agent } :=
    hr.step (l := .lock .agent) (.lock hh (fun ⟨c, hc⟩ => hq c hc) (by rw [hpc]; rfl))
  exact ⟨_, hlock, ⟨hpc, rfl, hc⟩, (every_round_smoked hlock).1 0 hpc rfl⟩

end IntroSystems.Smokers
