import IntroSystems.Smokers.Rounds

/-!
# Lost starts

The agent waits until the smokers have started, but not the helpers.

* **`agent_not_stranded`**: as long as every signal of the agent finds its helper waiting, the
  threads are never all asleep; after a signal that does not, they can come to be.
* `Doomed`: a round in which a helper has missed its signal.
* `stranded`: a run in which the helpers start last.
-/

set_option autoImplicit false

namespace IntroSystems.Smokers

open Monitor Resource

variable {n i : ℕ} {random : ℕ → Fin 6} {k : Cast} {d : Shared} {x y z r : Resource}
  {σ : State Thread Point Shared Cond}

/-- The agent is not finished, and everybody sleeps. -/
def Stranded (σ : State Thread Point Shared Cond) : Prop :=
  σ.pc .agent ≠ .done ∧ ∀ t, σ.Blocked t

/-! ## Runs without a lost signal -/

/-- Somebody is on its way in a strict run, if the round is not over. -/
theorem Answers.called_of_flag (h : Answers True k d x) (hx : d.flag x = 0) :
    k.helper x = .called := by
  cases h with
  | called h _ => exact h
  | back _ h => exact absurd (h.symm.trans hx) (by decide)
  | missed h _ _ => exact absurd trivial h

theorem Calling.exists_called (h : Calling True k d i x y z) : ∃ r, k.helper r = .called := by
  rcases h.missing with hx | hy
  · exact ⟨x, h.first.called_of_flag hx⟩
  · exact ⟨y, h.second.called_of_flag hy⟩

/-- **In each stage of a strict run somebody is up**, or the agent is finished. -/
theorem Stage.not_stranded (h : Stage True n k d) (hs : Shows k σ) : ¬Stranded σ := by
  rintro ⟨hd, hall⟩
  have hagent := hs.blocked_agent_iff.mp (hall .agent)
  have hsmoker : ∀ r, k.smoker r = .idle := fun r => hs.blocked_smoker_iff.mp (hall (.smoker r))
  have hhelper : ∀ r, k.helper r = .idle ∨ r ∈ k.table := fun r =>
    hs.blocked_helper_iff.mp (hall (.helper r))
  cases h with
  | start h =>
    rcases h.agent with ha | ha | ha
    · rw [ha] at hagent
      exact absurd hagent (by decide)
    · obtain ⟨r, hr⟩ := h.waking ha
      exact absurd ((hsmoker r).symm.trans hr) (by decide)
    · rw [ha] at hagent
      exact absurd hagent (by decide)
  | calling _ h =>
    obtain ⟨r, hr⟩ := h.exists_called
    have := hhelper r
    rw [hr, h.table] at this
    exact absurd this (by simp)
  | matched _ h => exact absurd ((hsmoker _).symm.trans h.called) (by decide)
  | @smoked _ x _ _ _ h =>
    have := hhelper x
    rw [h.first, h.table] at this
    exact absurd this (by simp)
  | returned _ ha _ =>
    rw [ha] at hagent
    exact absurd hagent (by simp [AgentAt.sleeps])
  | done _ ha _ =>
    rw [ha] at hagent
    exact absurd hagent (by decide)

/-! ## Rounds with a lost signal -/

/-- The helper for `x` has missed its signal. -/
structure Doomed (k : Cast) (d : Shared) (i : ℕ) (x y z : Resource) : Prop where
  calling : Calling False k d i x y z
  missed : (k.helper x).Rests
  flag : d.flag x = 0

theorem Doomed.helperStarts (h : Doomed k d i x y z) (hr : k.helper r = .fresh) :
    Doomed (k.setHelper r .idle) d i x y z :=
  ⟨{ h.calling with
      third := rests_setHelper h.calling.third r
      first := h.calling.first.helperStarts hr
      second := h.calling.second.helperStarts hr },
    rests_setHelper h.missed r, h.flag⟩

theorem Doomed.helperWaits (h : Doomed k d i x y z) :
    Doomed (k.setHelper y .idle) { d with flag := Function.update d.flag y 1 } i x y z :=
  ⟨(h.calling.swap.helperWaits h.flag).swap, rests_setHelper h.missed y,
    (Function.update_of_ne h.calling.distinct.xy ..).trans h.flag⟩

/-- **The turn of a thread in a doomed round**: only helpers are up, and one that gets its turn goes
to sleep. -/
theorem Doomed.turn (n : ℕ) (random : ℕ → Fin 6) (h : Doomed k σ.data i x y z) (hs : Shows k σ)
    {t : Thread} (hb : ¬σ.Blocked t) : ∃ r res, t = .helper r ∧ body n random t (σ.pc t) σ.data = some res ∧
      Shows (k.setHelper r .idle) (σ.after t res) ∧
      Doomed (k.setHelper r .idle) res.1 i x y z := by
  cases t with
  | agent => exact absurd (hs.blocked_agent_iff.mpr (by rw [h.calling.agent]; rfl)) hb
  | smoker r => exact absurd (hs.blocked_smoker_iff.mpr (h.calling.smoker r)) hb
  | helper r =>
    rw [hs.blocked_helper_iff, not_or] at hb
    have hpc : σ.pc (.helper r) = (k.helper r).point := by rw [hs.pc]; rfl
    cases ha : k.helper r with
    | fresh =>
      refine ⟨r, _, rfl, ?_, hs.helperWaits hb.1, h.helperStarts ha⟩
      rw [hpc, ha, HelperAt.point, body_helper_start]
    | idle => exact absurd ha hb.1
    | called =>
      -- the one that missed its signal, and the third one, are not on their way
      have hry : r = y := by
        rcases h.calling.distinct.cases r with rfl | rfl | rfl
        · exact absurd ha h.missed.ne_called
        · rfl
        · exact absurd ha h.calling.third.ne_called
      subst hry
      refine ⟨r, _, rfl, ?_, hs.helperWaits hb.1, h.helperWaits⟩
      rw [hpc, ha, HelperAt.point, body_helper_match h.calling.distinct.swap h.calling.flag,
        if_neg (not_not.mpr h.flag)]
    | serving =>
      rcases h.calling.distinct.cases r with rfl | rfl | rfl
      · exact absurd ha h.missed.ne_serving
      · exact absurd ha h.calling.second.ne_serving
      · exact absurd ha h.calling.third.ne_serving

/-- **A doomed round ends with everybody asleep.** -/
theorem Doomed.stranded (h : Doomed k σ.data i x y z) (hs : Shows k σ) (hh : σ.holder = none) :
    ∃ σ', (sys (smokers n random)).Moves σ σ' ∧ Stranded σ' := by
  have hfin : ∀ {k : Cast} {σ : State Thread Point Shared Cond}, Shows k σ →
      k.agent = .asleep i → ∀ t, σ.pc t ≠ .done := by
    intro k σ hs ha t
    rw [hs.pc]
    cases t with
    | agent => simp [Cast.pc, ha, AgentAt.point]
    | helper r => cases hr : k.helper r <;> simp [Cast.pc, hr, HelperAt.point]
    | smoker r => cases hr : k.smoker r <;> simp [Cast.pc, hr, SmokerAt.point]
  have hturn : ∀ σ t, (σ.holder = none ∧ ∃ k, Shows k σ ∧ Doomed k σ.data i x y z) →
      Active (smokers n random) σ t → ∃ σ', (sys (smokers n random)).Moves σ σ' ∧
        (σ'.holder = none ∧ ∃ k, Shows k σ' ∧ Doomed k σ'.data i x y z) ∧
        ¬Active (smokers n random) σ' t ∧
        ∀ u, Active (smokers n random) σ' u → Active (smokers n random) σ u := by
    rintro σ t ⟨hh, k, hs, h⟩ hact
    obtain ⟨r, res, rfl, hres, hs', h'⟩ := h.turn n random hs hact.2
    refine ⟨_, moves_run hh hact hres, ⟨rfl, _, hs', h'⟩, fun ha => ha.2 ?_, fun u hu => ?_⟩
    · exact hs'.blocked_helper_iff.mpr (.inl (k.setHelper_self r _))
    · -- who sleeps goes on sleeping
      refine ⟨by simpa [smokers] using hfin hs h.calling.agent u, fun hb => hu.2 ?_⟩
      cases u with
      | agent => exact hs'.blocked_agent_iff.mpr (hs.blocked_agent_iff.mp hb)
      | smoker r' => exact hs'.blocked_smoker_iff.mpr (hs.blocked_smoker_iff.mp hb)
      | helper r' =>
        refine hs'.blocked_helper_iff.mpr ((hs.blocked_helper_iff.mp hb).imp_left fun hi => ?_)
        by_cases hr : r' = r
        · subst hr
          exact k.setHelper_self r' _
        · rw [k.setHelper_of_ne hr, hi]
  obtain ⟨σ', hm, ⟨-, k', hs', h'⟩, hq⟩ := exists_quiescent hturn ⟨hh, k, hs, h⟩
  refine ⟨σ', hm, hfin hs' h'.calling.agent .agent, fun t => ?_⟩
  by_contra hb
  exact hq t ⟨by simpa [smokers] using hfin hs' h'.calling.agent t, hb⟩

/-- A signal of the agent that is lost. -/
theorem Quiet.doomed (h : Quiet k d) (hxyz : Distinct x y z)
    (hxy : k.helper x ≠ .idle ∨ k.helper y ≠ .idle) :
    ∃ x' y', Doomed (((k.call x).call y).setAgent (.asleep i))
      { d with signal_count := increment d.signal_count z } i x' y' z := by
  have hcall : Calling False (((k.call x).call y).setAgent (.asleep i))
      { d with signal_count := increment d.signal_count z } i x y z :=
    h.calls hxyz False.elim False.elim
  have hfresh : ∀ r, k.helper r ≠ .idle → (k.call r).helper r = .fresh := fun r hr => by
    rw [Cast.call, Cast.setHelper_self, if_neg hr, (h.helper r).resolve_right hr]
  rcases hxy with hx | hy
  · refine ⟨x, y, hcall, .inl ?_, h.flag x⟩
    exact (call_helper_of_ne hxyz.xy).trans (hfresh x hx)
  · refine ⟨y, x, hcall.swap, .inl ?_, h.flag y⟩
    have hxy : (k.call x).helper y = k.helper y := call_helper_of_ne hxyz.xy.symm
    change ((k.call x).call y).helper y = .fresh
    rw [Cast.call, Cast.setHelper_self, hxy, if_neg hy, (h.helper y).resolve_right hy]

/-- **A lost signal dooms the round.** -/
theorem Stage.doomed {strict : Prop} {res : Result} {c : Cond} (h : Stage strict n k σ.data)
    (hs : Shows k σ) (hb : ¬σ.Blocked .agent)
    (hres : body n random .agent (σ.pc .agent) σ.data = some res) (hc : c ∈ res.2.1)
    (hq : σ.queue c = []) :
    ∃ k' i x y z, Shows k' (σ.after .agent res) ∧ Doomed k' res.1 i x y z := by
  have hsleep := eq_false_of_ne_true (mt hs.blocked_agent_iff.mpr hb)
  rw [hs.pc] at hres
  rcases h.agent_cases hsleep hres with ⟨-, -, rfl⟩ | ⟨i, hquiet, -, -, rfl⟩
  · exact absurd hc List.not_mem_nil
  by_cases hlt : i < n
  swap
  · rw [iterate_of_le (not_lt.mp hlt)] at hc
    exact absurd hc List.not_mem_nil
  have hidle : ∀ r, c = .available r → k.helper r ≠ .idle := by
    rintro r rfl hr
    rw [hs.queue, Cast.queue, if_pos hr] at hq
    exact absurd hq (List.cons_ne_nil _ _)
  rw [iterate_of_lt hlt] at hc ⊢
  simp only [List.mem_cons, List.not_mem_nil, or_false] at hc
  obtain ⟨x', y', hd⟩ := hquiet.doomed (i := i) (choice_distinct (random i))
    (hc.imp (hidle _) (hidle _))
  exact ⟨_, i, x', y', _, hs.agentCalls hsleep _ _ i, hd⟩

/-- **When nobody is stranded**: as long as each signal of the agent finds its helper waiting, and
not after one that does not. -/
theorem agent_not_stranded (n : ℕ) (random : ℕ → Fin 6) :
    (∀ σ, ((sys (smokers n random)).restrict (Ready n random)).Reach σ → ¬Stranded σ) ∧
      ∀ σ a σ', (sys (smokers n random)).Reach σ → (sys (smokers n random)).step σ a σ' →
        ¬Ready n random σ a →
        ∃ σ'', (sys (smokers n random)).Moves σ' σ'' ∧ Stranded σ'' := by
  constructor
  · intro σ hr
    obtain ⟨k, hs, h⟩ := reach_stage True (fun _ _ _ h => h) hr
    exact h.not_stranded hs
  · intro σ a σ' hr hst hready
    obtain ⟨k, hs, h⟩ := reach_stage False (G := fun _ _ => True) False.elim
      (hr.restrict_of_forall fun _ _ => trivial)
    cases hst with
    | lock _ _ _ => exact absurd trivial hready
    | @run t res hh hres =>
      have hb := (reach_queued hr).holder t hh
      cases t with
      | helper r | smoker r => exact absurd trivial hready
      | agent =>
        simp only [Ready, not_forall] at hready
        obtain ⟨res', hres', c, hc, hq⟩ := hready
        obtain rfl := Option.some.inj (hres.symm.trans hres')
        obtain ⟨k', i, x, y, z, hs', hd⟩ := h.doomed hs hb hres hc (not_not.mp hq)
        exact hd.stranded hs' rfl

/-- All smokers have started, and no helper has: the agent's first signals are lost. -/
theorem agent_not_stranded_late :
    (¬∃ σ, ((sys (smokers 1 fun _ => 0)).restrict (Ready 1 fun _ => 0)).Reach σ ∧ Stranded σ) ∧
      ∃ σ, (sys (smokers 1 fun _ => 0)).Reach σ ∧ Stranded σ := by
  obtain ⟨hsafe, hdoom⟩ := agent_not_stranded 1 fun _ => 0
  refine ⟨fun ⟨σ, hr, hst⟩ => hsafe σ hr hst, ?_⟩
  obtain ⟨σ, hr, hp⟩ := reach_of_turns (P := smokers 1 fun _ => 0)
    (p := fun σ => decide (σ.holder = none ∧ σ.pc .agent = .start ∧ (∀ c, .agent ∉ σ.queue c) ∧
      σ.queue (.available MATCH) = [] ∧ σ.data.num_active_threads = 3))
    [.smoker MATCH, .smoker PAPER, .smoker TOBACCO] (by decide)
  obtain ⟨hh, hpc, hq, hmatch, hact⟩ := of_decide_eq_true hp
  have hlock : (sys (smokers 1 fun _ => 0)).Reach { σ with holder := some .agent } :=
    hr.step (l := .lock .agent) (.lock hh (fun ⟨c, hc⟩ => hq c hc) (by rw [hpc]; rfl))
  have hbody : body 1 (fun _ => 0) .agent (σ.pc .agent) σ.data =
      some (iterate 1 (fun _ => 0) 0 σ.data) := by
    rw [hpc]
    change some (waitForThreads _ _ _) = _
    rw [waitForThreads, if_neg (by omega)]
  have hrun : Step (smokers 1 fun _ => 0) { σ with holder := some .agent } (.run .agent) _ :=
    .run rfl hbody
  have hbad : ¬Ready 1 (fun _ => 0) { σ with holder := some .agent } (.run .agent) :=
    fun hs => hs _ hbody (.available MATCH) List.mem_cons_self hmatch
  obtain ⟨σ', hm, hst⟩ := hdoom _ _ _ hlock hrun hbad
  exact ⟨σ', (hlock.step hrun).moves hm, hst⟩

/-- **A lost start**: the smokers start first, then the agent, which signals `match` and `paper`,
and the helpers last. -/
theorem stranded_reachable : ∃ σ, (sys (smokers 1000 fun _ => 0)).Reach σ ∧ Stranded σ := by
  obtain ⟨σ, hr, hp⟩ := reach_of_turns (P := smokers 1000 fun _ => 0)
    (p := fun σ => decide (σ.pc .agent ≠ .done ∧ ∀ t, ∃ c, t ∈ σ.queue c))
    [.smoker MATCH, .smoker PAPER, .smoker TOBACCO, .agent, .helper MATCH, .helper PAPER,
      .helper TOBACCO] (by decide)
  have hall : σ.pc .agent ≠ .done ∧ ∀ t, ∃ c, t ∈ σ.queue c := of_decide_eq_true hp
  exact ⟨σ, hr, hall⟩

end IntroSystems.Smokers
