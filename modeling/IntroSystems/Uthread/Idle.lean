import IntroSystems.Lib.Tally
import IntroSystems.Uthread.Scheduler

/-!
# Idle processors

A processor that finds the ready queue empty sleeps until `ready_queue_enqueue` signals. A signal
wakes one processor, which has still to get to the ready queue when others may have been there.

* `Pc.coming`: the processor is on its way to the ready queue. `Rested`: as long as some processor
  sleeps, there are as many of these as there are threads in the queue.
* **`idle_safe`**: in all runs, also where they are not prompt.
-/

set_option autoImplicit false

namespace IntroSystems.Uthread.Scheduler

open Tally

variable {T P : Type}

/-- About to look into the ready queue. -/
def Pc.coming : Pc T P → Bool
  | .stop _ _ | .sleep _ _ true => true
  | _ => false

/-- In `pthread_cond_wait`. -/
def Pc.sleeping : Pc T P → Bool
  | .sleep _ _ _ => true
  | _ => false

section Places

variable {t u : Thread T P} {fs : TS} {pc : Pc T P}

@[simp] theorem coming_stop : (Pc.stop t fs).coming = true := rfl

@[simp] theorem coming_signalled : (Pc.sleep t fs true).coming = true := rfl

@[simp] theorem coming_asleep : (Pc.sleep t fs false).coming = false := rfl

@[simp] theorem coming_switch : (Pc.switch t u fs).coming = false := rfl

theorem sleeping_of_asleep (h : pc.asleep = true) : pc.sleeping = true := by
  cases pc <;> simp_all [Pc.asleep, Pc.sleeping]

end Places

/-- Neither on its way to the ready queue nor asleep. -/
def Pc.busy : Pc T P → Bool
  | .stop _ _ | .sleep _ _ _ => false
  | _ => true

theorem of_busy {pc : Pc T P} (h : pc.busy = true) :
    pc.sleeping = false ∧ pc.asleep = false ∧ pc.coming = false := by
  cases pc <;> simp_all [Pc.busy, Pc.sleeping, Pc.asleep, Pc.coming]

variable [Fintype P]

/-- The count of those who sleep is right, and nobody sleeps too long. -/
structure Rested (s : State T P) : Prop where
  sleeping : (s.pthread_num_sleeping : ℤ) = number (fun _ pc => pc.sleeping) s.pc
  coming : 0 < number (fun _ pc => pc.asleep) s.pc →
    (s.ready_queue.length : ℤ) ≤ number (fun _ pc => pc.coming) s.pc

variable {s s' : State T P} {p : P} {pc : Pc T P} {t : Thread T P} {fs : TS} {w : Option P}

theorem Rested.congr (h : Rested s) (hn : s'.pthread_num_sleeping = s.pthread_num_sleeping)
    (hpc : s'.pc = s.pc) (hr : s'.ready_queue = s.ready_queue) : Rested s' := by
  refine ⟨?_, ?_⟩ <;> rw [hpc]
  · rw [hn]
    exact h.sleeping
  · rw [hr]
    exact h.coming

theorem Rested.not_asleep (h : Rested s) (hn : s.pthread_num_sleeping = 0) (q : P) :
    (s.pc q).asleep = false := by
  have hz := h.sleeping
  rw [hn, Nat.cast_zero, eq_comm, number_eq_zero_iff] at hz
  by_contra hq
  have hs := hz q
  rw [sleeping_of_asleep (by simpa using hq)] at hs
  cases hs

section Steps

variable [DecidableEq P]

omit [Fintype P] in
theorem Wakes.goto (h : Wakes s w) (hp : (s.pc p).asleep = false) (hpc : pc.asleep = false) :
    Wakes (s.goto p pc) w := by
  have hne : ∀ q, q = p ∨ ((s.goto p pc).pc q).asleep = (s.pc q).asleep := fun q => by
    by_cases hq : q = p
    · exact .inl hq
    · right
      simp [State.goto, hq]
  cases w with
  | none =>
    intro q
    rcases hne q with rfl | hq
    · simpa [State.goto] using hpc
    · exact hq.trans (h q)
  | some q =>
    change (s.pc q).asleep = true at h
    rcases hne q with rfl | hq
    · rw [hp] at h
      cases h
    · exact hq.trans h

theorem Rested.move (h : Rested s) (hb : (s.pc p).busy = true) (hb' : pc.busy = true ∨ ∃ t fs, pc = .stop t fs)
    (hn : s'.pthread_num_sleeping = s.pthread_num_sleeping)
    (hpc : s'.pc = Function.update s.pc p pc) (hr : s'.ready_queue = s.ready_queue) : Rested s' := by
  obtain ⟨h1, h2, h3⟩ := of_busy hb
  obtain ⟨h1', h2'⟩ : pc.sleeping = false ∧ pc.asleep = false := by
    rcases hb' with hb' | ⟨t, fs, rfl⟩
    · exact ⟨(of_busy hb').1, (of_busy hb').2.1⟩
    · exact ⟨rfl, rfl⟩
  refine ⟨?_, ?_⟩ <;> rw [hpc]
  · rw [number_update_of_eq (p := fun _ pc => Pc.sleeping pc) (h1'.trans h1.symm), hn]
    exact h.sleeping
  · rw [number_update_of_eq (p := fun _ pc => Pc.asleep pc) (h2'.trans h2.symm), number_update, hr, h3]
    intro hpos
    have hcome := h.coming hpos
    simp only [Bool.false_eq_true, if_false]
    split_ifs <;> omega

theorem Rested.signal (h : Rested s) (hw : Wakes s w) (l : List (Thread T P))
    (hl : l.length ≤ s.ready_queue.length + 1) : Rested (signal { s with ready_queue := l } w) := by
  unfold Scheduler.signal
  cases w with
  | none =>
    refine ⟨h.sleeping, fun hpos => ?_⟩
    obtain ⟨q, hq⟩ := number_pos_iff.mp hpos
    rw [hw q] at hq
    cases hq
  | some q =>
    change (s.pc q).asleep = true at hw
    cases hq : s.pc q with
    | sleep t fs b =>
      have hb : b = false := by
        rw [hq] at hw
        cases b <;> simp_all [Pc.asleep]
      subst hb
      simp only [hq]
      refine ⟨?_, fun hpos => ?_⟩ <;> simp only [State.goto]
      · rw [number_update_of_eq (by rw [hq]; rfl)]
        exact h.sleeping
      · have hcome := h.coming (number_pos_iff.mpr ⟨q, hw⟩)
        simp only [number_update, hq, coming_asleep, coming_signalled]
        simp only [Bool.false_eq_true, if_false, if_true]
        omega
    | _ => rw [hq] at hw; cases hw

theorem Rested.enqueue [DecidableEq T] (h : Rested s) (hw : Wakes s w) (t : Thread T P) :
    Rested (readyQueueEnqueue s t w) := by
  unfold readyQueueEnqueue
  by_cases hz : s.pthread_num_sleeping ≠ 0
  · rw [if_pos hz]
    refine h.signal hw _ ?_
    split_ifs <;> simp
  · rw [if_neg hz]
    refine ⟨h.sleeping, fun hpos => ?_⟩
    obtain ⟨q, hq⟩ := number_pos_iff.mp hpos
    rw [h.not_asleep (by simpa using hz)] at hq
    cases hq

theorem Rested.dequeue [DecidableEq T] (h : Rested s) (hpc : s.pc p = .stop t fs) :
    Rested (readyQueueDequeue s p t fs) := by
  unfold readyQueueDequeue
  split
  · next u l hl =>
    refine ⟨?_, ?_⟩ <;> simp only [State.goto]
    · rw [number_update_of_eq (by rw [hpc]; rfl)]
      exact h.sleeping
    · rw [number_update_of_eq (by rw [hpc]; rfl), number_update, hpc]
      intro hpos
      have hcome := h.coming hpos
      rw [hl, List.length_cons] at hcome
      simp only [coming_stop, coming_switch, Bool.false_eq_true, if_false, if_true]
      omega
  · next hl =>
    split_ifs
    · refine ⟨?_, fun _ => ?_⟩ <;> simp only [State.goto]
      · rw [number_update, hpc]
        simp [Pc.sleeping, h.sleeping]
      · rw [hl]
        exact number_nonneg _ _
    · refine ⟨?_, fun _ => ?_⟩ <;> simp only [State.goto]
      · rw [number_update_of_eq (by rw [hpc]; rfl)]
        exact h.sleeping
      · rw [hl]
        exact number_nonneg _ _

theorem Rested.wake [DecidableEq T] (h : Rested s) (hpc : s.pc p = .sleep t fs true) :
    Rested ({ s with pthread_num_sleeping := s.pthread_num_sleeping - 1 }.goto p (.stop t fs)) := by
  have hs := h.sleeping
  have hpos : 0 < number (fun _ pc => Pc.sleeping pc) s.pc :=
    number_pos_iff.mpr ⟨p, by rw [hpc]; rfl⟩
  refine ⟨?_, fun ha => ?_⟩ <;> simp only [State.goto] at *
  · have h1 : (Pc.sleep t fs true).sleeping = true := rfl
    have h2 : (Pc.stop t fs).sleeping = false := rfl
    rw [number_update, hpc, h1, h2, ← hs]
    rw [← hs] at hpos
    simp only [Bool.false_eq_true, if_false, if_true]
    omega
  · rw [number_update_of_eq (by rw [hpc]; rfl)] at ha ⊢
    exact h.coming ha

theorem Rested.go [DecidableEq T] (h : Rested s) (hw : Wakes s w) (hgo : go s p w = some s') :
    Rested s' := by
  unfold Scheduler.go at hgo
  cases hpc : s.pc p with
  | run t => simp [hpc] at hgo
  | ending t =>
    rw [hpc] at hgo
    obtain rfl := Option.some.inj hgo
    exact h.move (by rw [hpc]; rfl) (.inr ⟨_, _, rfl⟩) rfl rfl rfl
  | stop t fs =>
    rw [hpc] at hgo
    obtain rfl := Option.some.inj hgo
    exact h.dequeue hpc
  | sleep t fs b =>
    cases b with
    | false =>
      rw [hpc] at hgo
      obtain rfl := Option.some.inj hgo
      have hs := h.signal (w := some p) (by rw [Wakes, hpc]; rfl) s.ready_queue (by simp)
      rwa [Scheduler.signal, hpc] at hs
    | true =>
      rw [hpc] at hgo
      obtain rfl := Option.some.inj hgo
      exact h.wake hpc
  | wait t u =>
    simp only [hpc, Option.map_eq_some_iff] at hgo
    obtain ⟨ts, -, rfl⟩ := hgo
    split_ifs
    · exact h
    · exact h.move (by rw [hpc]; rfl) (.inl rfl) rfl rfl rfl
  | after t u | test t u =>
    simp only [hpc, Option.map_eq_some_iff] at hgo
    obtain ⟨ts, -, rfl⟩ := hgo
    split_ifs <;> exact h.move (by rw [hpc]; rfl) (.inl rfl) rfl rfl rfl
  | requeue t u =>
    simp only [hpc, Option.map_eq_some_iff] at hgo
    obtain ⟨ts, -, rfl⟩ := hgo
    have h' : Rested (s.goto p (.resume u)) :=
      h.move (by rw [hpc]; rfl) (.inl rfl) rfl rfl rfl
    refine h'.enqueue (hw.goto (by rw [hpc]; rfl) rfl) t
  | switch t u | reap t u | resume u =>
    simp only [hpc, Option.map_eq_some_iff] at hgo
    obtain ⟨ts, -, rfl⟩ := hgo
    exact h.move (by rw [hpc]; rfl) (.inl rfl) rfl rfl rfl

theorem Rested.exec [DecidableEq T] {main : T} {a : Act T P} (h : Rested s)
    (ha : Allowed main s (p, a)) (he : exec s p a = some s') : Rested s' := by
  cases a with
  | register =>
    obtain ⟨t, hpc, hw⟩ := ha
    simp only [Scheduler.exec, hpc, Option.some.injEq] at he
    subst he
    exact h.congr rfl rfl rfl
  | yield | block =>
    obtain ⟨t, hpc, hw⟩ := ha
    simp only [Scheduler.exec, hpc, Option.some.injEq] at he
    subst he
    exact h.move (by rw [hpc]; rfl) (.inr ⟨_, _, rfl⟩) rfl rfl rfl
  | exit =>
    obtain ⟨t, hpc, hw⟩ := ha
    simp only [Scheduler.exec, hpc, Option.map_eq_some_iff] at he
    obtain ⟨ts, -, rfl⟩ := he
    exact h.move (by rw [hpc]; rfl) (.inl rfl) rfl rfl rfl
  | unblock u w =>
    obtain ⟨⟨t, hpc⟩, -, hw⟩ := ha
    rcases hpc with hpc | hpc <;> simp only [Scheduler.exec, hpc, Option.map_eq_some_iff] at he <;>
      obtain ⟨ts, -, rfl⟩ := he <;>
      exact Rested.enqueue (s := s.want u .granted) (h.congr rfl rfl rfl) hw u
  | create u w =>
    obtain ⟨⟨t, hpc⟩, -, -, hw⟩ := ha
    simp only [Scheduler.exec, hpc, Option.some.injEq] at he
    subst he
    exact Rested.enqueue (s := { s.set u (some .nascent) with
      detached := Function.update s.detached u false }) (h.congr rfl rfl rfl) hw u
  | detach u =>
    obtain ⟨⟨t, hpc⟩, -⟩ := ha
    simp only [Scheduler.exec, hpc, Option.map_eq_some_iff] at he
    obtain ⟨ts, -, rfl⟩ := he
    split_ifs <;> exact h.congr rfl rfl rfl
  | go w =>
    refine h.go ha.2 (p := p) (w := w) ?_
    rw [← he]
    simp only [Scheduler.exec]

theorem reach_rested [DecidableEq T] {main : T} {boot : P} (hr : (sys main boot).Reach (some s)) :
    Rested s := by
  refine hr.invariant (I := fun o => ∀ s, o = some s → Rested s) ?_ ?_ s rfl
  · rintro o ⟨s, rfl, rfl⟩ s' hs
    cases hs
    refine ⟨?_, fun hpos => ?_⟩
    · rw [eq_comm]
      exact number_eq_zero_iff.mpr fun q => rfl
    · exact number_nonneg _ _
  · rintro o ⟨p, a⟩ o' - hi ⟨s, rfl, ha, he⟩ s' rfl
    exact (hi s rfl).exec ha he

/-- **No thread waits for those who sleep.** As long as some processor sleeps, there are as many
processors on their way to the ready queue as there are threads in it; so they never all sleep while
there is one. -/
theorem idle_safe [DecidableEq T] {main : T} {boot : P} (hr : (sys main boot).Reach (some s)) :
    Rested s ∧ (s.ready_queue ≠ [] → ∃ p, (s.pc p).asleep = false) := by
  have h := reach_rested hr
  refine ⟨h, fun hne => ?_⟩
  by_contra hall
  have hasleep : ∀ p, (s.pc p).asleep = true := fun p => by
    by_contra hp
    exact hall ⟨p, by simpa using hp⟩
  have hnone : number (fun _ pc => Pc.coming pc) s.pc = 0 := by
    rw [number_eq_zero_iff]
    intro p
    have hp := hasleep p
    revert hp
    cases s.pc p with
    | sleep t fs b => cases b <;> simp [Pc.asleep]
    | _ => simp [Pc.asleep]
  have hcome := h.coming (number_pos_iff.mpr ⟨boot, hasleep boot⟩)
  rw [hnone] at hcome
  exact hne (List.length_eq_zero_iff.mp (by omega))

/-- Two of three processors sleep when `main` creates a thread. -/
theorem idle_safe_three : ∃ s : State (Fin 2) (Fin 3), (sys 0 0).Reach (some s) ∧
    (s.ready_queue = [.user 1] ∧ s.pthread_num_sleeping = 2 ∧ (s.pc 1).coming = true ∧
      (s.pc 2).asleep = true) ∧ Rested s ∧ ∃ p, (s.pc p).asleep = false := by
  obtain ⟨s, hs, hpc⟩ : ∃ s : State (Fin 2) (Fin 3), (sys 0 0).Reach (some s) ∧
      s.ready_queue = [.user 1] ∧ s.pthread_num_sleeping = 2 ∧ (s.pc 1).coming = true ∧
      (s.pc 2).asleep = true :=
    Sys.Reach.of_follow rfl [(1, .block), (1, .go none), (2, .block), (2, .go (some 1)),
      (0, .create (.user 1) (some 1))] (by decide +kernel)
  obtain ⟨hrested, hawake⟩ := idle_safe hs
  exact ⟨s, hs, hpc, hrested, hawake (by rw [hpc.1]; exact List.cons_ne_nil _ _)⟩

end Steps

end IntroSystems.Uthread.Scheduler
