import IntroSystems.Smokers.Rounds
import IntroSystems.Uthread.CondRefines

/-!
# The smokers over the mutex and the conditions

`smoke.c` with the code of `uthread_mutex_cond.c` under it, step by step.

* `holder_defined`: the thread with the lock has a section to run.
* **`smoked_over_code`**: nothing goes wrong, each round is smoked before the agent goes on, and a run
  that cannot go on either has a finished agent or has everybody asleep on a condition.
-/

set_option autoImplicit false

namespace IntroSystems.Smokers

open Monitor Resource

variable {n : ℕ} {random : ℕ → Fin 6} {k : Cast} {σ : State Thread Point Shared Cond}

theorem holder_ne_done (hr : (sys (smokers n random)).Reach σ) (t : Thread)
    (ht : σ.holder = some t) : σ.pc t ≠ .done := by
  cases hr with
  | init hσ =>
    rw [show σ = _ from hσ] at ht
    cases ht
  | step _ hst =>
    cases hst with
    | lock _ _ hf =>
      obtain rfl := Option.some.inj ht
      simpa [smokers] using hf
    | run _ _ => cases ht

/-- **No section is undefined.** -/
theorem holder_defined (hr : (sys (smokers n random)).Reach σ) (hs : Shows k σ) (t : Thread)
    (ht : σ.holder = some t) : body n random t (σ.pc t) σ.data ≠ none := by
  have hd := holder_ne_done hr t ht
  rw [hs.pc] at hd ⊢
  cases t with
  | agent =>
    change k.agent.point ≠ .done at hd
    change agent n random σ.data k.agent.point ≠ none
    cases ha : k.agent <;> simp_all [AgentAt.point, agent]
  | helper r =>
    change body n random (.helper r) (k.helper r).point σ.data ≠ none
    cases r <;> cases k.helper _ <;> exact Option.some_ne_none _
  | smoker r =>
    change body n random (.smoker r) (k.smoker r).point σ.data ≠ none
    cases r <;> cases k.smoker _ <;> exact Option.some_ne_none _

/-- **The assertions hold over the code**: nothing goes wrong, the agent goes on only when the round
has been smoked, and those who cannot go on are asleep, but for an agent that is finished. -/
theorem smoked_over_code (n : ℕ) (random : ℕ → Fin 6)
    {o : Option (Uthread.Cond.State Thread Point Shared Cond)}
    (hr : (Uthread.Cond.sys (smokers n random)).Reach o) :
    ∃ s, o = some s ∧ (s.pc .agent = .outside .done → Asserts n s.data) ∧
      (∀ i, s.pc .agent = .inside (.waitSmoke i) →
        ∀ r, s.data.signal_count r = s.data.smoke_count r ∧ s.data.flag r = 0) ∧
      ((∀ t, ¬Uthread.Cond.Ready (smokers n random) s t) →
        ∀ t, t = .agent ∧ s.pc t = .outside .done ∨ ∃ c l, s.pc t = .blocked (.cond c) l) := by
  obtain ⟨s, ls, a, rfl, ha, h⟩ := Uthread.Cond.reach_some (P := smokers n random) (by
    intro a t ha ht
    obtain ⟨k, hs, -⟩ := reach_stage False (G := fun _ _ => True) False.elim
      (ha.restrict_of_forall fun _ _ => trivial)
    exact holder_defined ha hs t ht) hr
  obtain ⟨k, hs, hstage⟩ := reach_stage False (G := fun _ _ => True) False.elim
    (ha.restrict_of_forall fun _ _ => trivial)
  have hagent : k.agent.point = (s.pc .agent).point := by
    rw [← h.point, hs.pc]
    rfl
  refine ⟨s, rfl, fun hd => ?_, fun i hi r => ?_, fun hstuck t => ?_⟩
  · rw [hd] at hagent
    have hk : k.agent = .done := by cases hk : k.agent <;> simp_all [AgentAt.point, Uthread.Cond.Pc.point]
    obtain ⟨hq, hsum⟩ := hstage.quiet_of_done hk
    rw [h.data] at hq hsum
    refine ⟨hq.even _, hq.even _, hq.even _, ?_⟩
    rw [← hq.even, ← hq.even, ← hq.even]
    exact hsum
  · have hholder : a.holder = some .agent := (h.ahead .agent).mpr (by rw [hi]; rfl)
    have hb := mt hs.blocked_agent_iff.mpr ((reach_queued ha).holder _ hholder)
    rw [hi] at hagent
    have hk : k.agent = .returned i := by
      cases hk : k.agent <;> rw [hk] at hagent hb <;>
        simp_all [AgentAt.point, AgentAt.sleeps, Uthread.Cond.Pc.point]
    have hq := hstage.quiet_of_returned hk
    rw [h.data] at hq
    exact ⟨hq.even r, hq.flag r⟩
  · rcases h.stuck_at hstuck t with ⟨hout, hfin⟩ | ⟨⟨c, hc⟩, -⟩
    · have hdone : k.pc t = .done := by
        rw [← hs.pc]
        simpa [smokers] using hfin
      cases t with
      | agent =>
        refine .inl ⟨rfl, ?_⟩
        rw [hout, hs.pc, hdone]
      | helper r =>
        change (k.helper r).point = .done at hdone
        cases hk : k.helper r <;> simp [hk, HelperAt.point] at hdone
      | smoker r =>
        change (k.smoker r).point = .done at hdone
        cases hk : k.smoker r <;> simp [hk, SmokerAt.point] at hdone
    · exact .inr ⟨c, _, hc⟩

/-- One round, as steps of the threads until each is asleep again. -/
def oneRound : List Thread :=
  [(5, .helper MATCH), (5, .agent), (5, .helper PAPER), (6, .smoker TOBACCO), (5, .helper TOBACCO),
    (6, .smoker MATCH), (6, .smoker PAPER), (7, .agent), (5, .helper PAPER), (6, .helper MATCH),
    (6, .smoker TOBACCO), (6, .helper MATCH)].flatMap fun (k, t) => List.replicate k t

/-- The agent is back from its only round, and then it is finished. -/
theorem smoked_over_code_round :
    (∃ s, (Uthread.Cond.sys (smokers 1 fun _ => 0)).Reach (some s) ∧
      s.pc .agent = .inside (.waitSmoke 0) ∧ s.data.smoke_count TOBACCO = 1 ∧
      ∀ r, s.data.signal_count r = s.data.smoke_count r ∧ s.data.flag r = 0) ∧
    ∃ s, (Uthread.Cond.sys (smokers 1 fun _ => 0)).Reach (some s) ∧
      s.pc .agent = .outside .done ∧ Asserts 1 s.data ∧
      ∀ t, t = .agent ∧ s.pc t = .outside .done ∨ ∃ c l, s.pc t = .blocked (.cond c) l := by
  constructor
  · obtain ⟨s, hs, hpc, hc⟩ : ∃ s, (Uthread.Cond.sys (smokers 1 fun _ => 0)).Reach (some s) ∧
        s.pc .agent = .inside (.waitSmoke 0) ∧ s.data.smoke_count TOBACCO = 1 :=
      Sys.Reach.of_follow rfl (oneRound ++ [.agent]) (by decide +kernel)
    obtain ⟨_, ⟨⟩, -, hround, -⟩ := smoked_over_code 1 (fun _ => 0) hs
    exact ⟨s, hs, hpc, hc, hround 0 hpc⟩
  · obtain ⟨s, hs, hpc, hstuck⟩ : ∃ s, (Uthread.Cond.sys (smokers 1 fun _ => 0)).Reach (some s) ∧
        s.pc .agent = .outside .done ∧ ∀ t, ¬Uthread.Cond.Ready (smokers 1 fun _ => 0) s t :=
      Sys.Reach.of_follow rfl (oneRound ++ List.replicate 3 .agent) (by decide +kernel)
    obtain ⟨_, ⟨⟩, hdone, -, hend⟩ := smoked_over_code 1 (fun _ => 0) hs
    exact ⟨s, hs, hpc, hdone hpc, hend hstuck⟩

end IntroSystems.Smokers
