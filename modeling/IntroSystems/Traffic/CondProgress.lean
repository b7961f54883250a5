import IntroSystems.Traffic.CondSafety

/-!
# Getting stuck

A car that leaves the street empty turns it around as soon as a car of the other direction is
registered, also when none of those has a crossing left to make. The signals are then lost, and
cars of its own direction that wait are never woken again.

* `Stuck`: some car is unfinished and all unfinished cars wait. `stuck_reachable`: three cars that
  cross once can get stuck.
* `Safe`: a step that does not turn the street away from the only cars that still have to cross.
* `Alive`: while a car waits, somebody can wake it. `Alive.after`: every safe section keeps this.
* `Doomed`: what an unsafe section leaves behind; `Doomed.stuck`: a run from there gets stuck.
* **`stuck_free`**: runs of safe steps never get stuck, and after any unsafe step they can.
-/

set_option autoImplicit false

namespace IntroSystems.Traffic.Cond

open Monitor Tally

variable {Car : Type} [Fintype Car] [DecidableEq Car] {dir : Car → Direction} {n size : ℕ}

/-- Some car is unfinished, and every unfinished car is in a queue. -/
def Stuck (σ : State Car Phase (Street size) Direction) : Prop :=
  (∃ c, σ.pc c ≠ .done) ∧ ∀ c, σ.pc c ≠ .done → σ.Blocked c

/-- **Three cars can get stuck.** The westbound car crosses first and wakes the other two. One of
them crosses and turns the street around, for the westbound car is still registered. -/
theorem stuck_reachable : ∃ σ, (sys (traffic threeCars 1)).Reach σ ∧ Stuck σ := by
  obtain ⟨σ, hσ, hp⟩ := reach_of_turns (P := traffic threeCars 1)
    (p := fun σ => decide (σ.pc 0 = .done ∧ σ.pc 1 ≠ .done ∧ σ.pc 2 = .done ∧ σ.queue .EAST = [1]))
    [0, 1, 2, 2, 0, 1, 2, 0, 0, 1, 2, 0] (by decide)
  obtain ⟨h0, h1, h2, hq⟩ := of_decide_eq_true hp
  refine ⟨σ, hσ, ⟨1, h1⟩, fun c hc => ?_⟩
  match c with
  | 0 => exact absurd h0 hc
  | 1 => exact ⟨.EAST, by simp [hq]⟩
  | 2 => exact absurd h2 hc

/-- A car in the loop of `enterStreet`. -/
def Phase.waits : Phase → Bool
  | .woken _ _ => true
  | _ => false

/-- A car that has a crossing to make and is not in the loop of `enterStreet`. -/
def Phase.comes : Phase → Bool
  | .register => true
  | .enter _ => true
  | _ => false

/-- A car that turns the street around has another crossing to make, or another car is on its way,
or a car of the other direction waits, or none does. -/
def Safe (dir : Car → Direction) (n : ℕ) (σ : State Car Phase (Street size) Direction) :
    Act Car → Prop
  | .lock _ => True
  | .run c => ∀ i, σ.pc c = .leave i → TurnsAround σ.data →
      i + 1 < n ∨ (∃ b, (σ.pc b).comes = true) ∨
        (∃ b, (σ.pc b).waits = true ∧ dir b ≠ σ.data.direction) ∨ ∀ b, (σ.pc b).waits = false

/-! ## The queues -/

/-- Cars queue for their own direction, in the loop of `enterStreet`. -/
def QueuedRight (dir : Car → Direction) (σ : State Car Phase (Street size) Direction) : Prop :=
  ∀ g c, c ∈ σ.queue g → dir c = g ∧ (σ.pc c).waits = true

variable {σ σ' : State Car Phase (Street size) Direction} {c : Car} {r : Result size}

omit [Fintype Car] [DecidableEq Car] in
theorem Outcome.wait {s : Street size} {p l : Phase} {g : Direction} (ho : Outcome dir n c s p r)
    (he : r.2.2 = .wait g l) : g = dir c ∧ l.waits = true := by
  cases ho with
  | enterWait _ =>
    cases he
    exact ⟨rfl, rfl⟩
  | wokenWait _ =>
    cases he
    exact ⟨rfl, rfl⟩
  | _ => simp at he

omit [Fintype Car] in
theorem QueuedRight.after (hq : QueuedRight dir σ) (hb : ¬σ.Blocked c)
    (ho : Outcome dir n c σ.data (σ.pc c) r) : QueuedRight dir (σ.after c r) := by
  intro g b hbg
  rcases mem_queueAfter hbg with hm | ⟨rfl, l, he⟩
  · have hbc : b ≠ c := fun e => hb ⟨g, e ▸ hm⟩
    rw [State.after_pc_of_ne _ _ hbc]
    exact hq g b hm
  · rw [State.after_pc_self, he]
    exact ⟨(ho.wait he).1.symm, (ho.wait he).2⟩

theorem reach_queuedRight {σ : State Car Phase (Street (WAITING_HISTOGRAM_SIZE Car n)) Direction}
    (hr : (sys (traffic dir n)).Reach σ) : QueuedRight dir σ := by
  refine reach_induction ?_ ?_ ?_ hr
  · exact fun _ _ h => absurd h List.not_mem_nil
  · exact fun _ _ hq => hq
  · intro σ c r hr hq hh hb
    exact hq.after ((reach_queued hr).holder c hh) (car_cases hb)

/-! ## Safe steps -/

/-- While a car waits, there are cars in the street, or cars on their way to it, or one that waits
has been woken and may go. -/
def Alive (dir : Car → Direction) (σ : State Car Phase (Street size) Direction) : Prop :=
  (∃ c, (σ.pc c).waits = true) → 0 < σ.data.count ∨ (∃ c, (σ.pc c).comes = true) ∨
    ∃ c, (σ.pc c).waits = true ∧ dir c = σ.data.direction ∧ ¬σ.Blocked c

omit [Fintype Car] in
theorem waits_registered {p : Phase} (h : p.waits = true) : p.registered = true := by
  cases p <;> first | rfl | exact absurd h Bool.false_ne_true

@[simp] theorem iterate_waits (n i : ℕ) : (iterate n i).waits = false := by
  unfold iterate
  split_ifs <;> rfl

section Frame

omit [Fintype Car]

omit [DecidableEq Car] in
theorem ne_of_phase {f : Phase → Bool} {b : Car} (hb : f (σ.pc b) = true)
    (hc : f (σ.pc c) = false) : b ≠ c := by
  rintro rfl
  rw [hc] at hb
  exact Bool.false_ne_true hb

theorem not_blocked_after {b : Car} (hb : ¬σ.Blocked b) (hbc : b ≠ c) (r : Result size) :
    ¬(σ.after c r).Blocked b := by
  intro h
  obtain ⟨g, hg⟩ := h
  rcases mem_queueAfter hg with h | ⟨h, -⟩
  · exact hb ⟨g, h⟩
  · exact hbc h

theorem waits_of_after (hl : r.2.2.next.waits = false)
    (h : ∃ b, ((σ.after c r).pc b).waits = true) : ∃ b, (σ.pc b).waits = true := by
  obtain ⟨b, hb⟩ := h
  have hne : b ≠ c := ne_of_phase hb (by rw [State.after_pc_self, hl])
  rw [State.after_pc_of_ne _ _ hne] at hb
  exact ⟨b, hb⟩

theorem comes_after {b : Car} (hb : (σ.pc b).comes = true) (hc : (σ.pc c).comes = false)
    (r : Result size) : ∃ b, ((σ.after c r).pc b).comes = true := by
  refine ⟨b, ?_⟩
  rw [State.after_pc_of_ne _ _ (ne_of_phase hb hc)]
  exact hb

theorem Alive.after_wait (ha : Alive dir σ) {i : ℕ} {t : ℤ}
    (hc : σ.pc c = .woken i t) (hw : dir c ≠ σ.data.direction ∨ σ.data.count ≥ MAX_OCCUPANCY) :
    Alive dir (σ.after c (σ.data, [], .wait (dir c) (.woken i t))) := by
  intro _
  rcases ha ⟨c, by rw [hc]; rfl⟩ with h | ⟨b, hb⟩ | ⟨b, hb, hd, hbb⟩
  · exact .inl h
  · exact .inr (.inl (comes_after hb (by rw [hc]; rfl) _))
  · rcases hw with hw | hw
    · have hne : b ≠ c := fun e => hw (e ▸ hd)
      refine .inr (.inr ⟨b, ?_, hd, not_blocked_after hbb hne _⟩)
      rw [State.after_pc_of_ne _ _ hne]
      exact hb
    · have hmax : (0 : ℤ) < MAX_OCCUPANCY := by decide
      exact .inl (lt_of_lt_of_le hmax hw)

end Frame

/-- **A car that leaves wakes a car** of the direction the street now has, if one waits. -/
theorem wakes (hi : Inv dir n σ.data σ.pc) (hq : Queued σ) (hr : QueuedRight dir σ) {i : ℕ}
    {l : Phase} (hc : σ.pc c = .leave i) {b : Car} (hb : (σ.pc b).waits = true)
    (hd : dir b = (afterLeave σ.data).direction)
    (he : r = (afterLeave σ.data, (leaveStreet σ.data).2, .leave l)) :
    ∃ b, ((σ.after c r).pc b).waits = true ∧ dir b = (afterLeave σ.data).direction ∧
      ¬(σ.after c r).Blocked b := by
  have hne : ∀ b, (σ.pc b).waits = true → b ≠ c := fun b hb =>
    ne_of_phase hb (by rw [hc]; rfl)
  have hsig := mem_leaveStreet_signals hi.count_le
    (by rw [← hd]; exact hi.num_ne_zero (waits_registered hb))
  cases hqueue : σ.queue (afterLeave σ.data).direction with
  | nil =>
    -- nobody is in the queue of that direction, so `b` is in none
    refine ⟨b, ?_, hd, not_blocked_after ?_ (hne b hb) r⟩
    · rw [State.after_pc_of_ne _ _ (hne b hb)]
      exact hb
    · intro h
      obtain ⟨g, hg⟩ := h
      obtain rfl := (hr g b hg).1
      rw [hd, hqueue] at hg
      exact List.not_mem_nil hg
  | cons b' q =>
    obtain ⟨hd', hw'⟩ := hr _ b' (hqueue ▸ List.mem_cons_self)
    refine ⟨b', ?_, hd', ?_⟩
    · rw [State.after_pc_of_ne _ _ (hne b' hw')]
      exact hw'
    · intro h
      obtain ⟨g, hg⟩ := h
      rw [he] at hg
      exact head_notMem_signals σ.queue hq.nodup hq.unique hqueue hsig g hg

theorem Alive.after_leave (hi : Inv dir n σ.data σ.pc) (hq : Queued σ) (hr : QueuedRight dir σ)
    (hs : Safe dir n σ (.run c)) {i : ℕ} (hc : σ.pc c = .leave i)
    (he : r = (afterLeave σ.data, (leaveStreet σ.data).2, .leave (iterate n (i + 1)))) :
    Alive dir (σ.after c r) := by
  intro hw
  obtain ⟨b, hb⟩ := waits_of_after (by rw [he]; exact iterate_waits n _) hw
  have hdata : (σ.after c r).data = afterLeave σ.data := by
    rw [he]
    rfl
  rw [hdata]
  by_cases hturn : TurnsAround σ.data
  · rcases hs i hc hturn with h | ⟨b', hb'⟩ | ⟨b', hb', hd'⟩ | h
    · refine .inr (.inl ⟨c, ?_⟩)
      rw [State.after_pc_self, he, Exit.next_leave, iterate, if_pos h]
      rfl
    · exact .inr (.inl (comes_after hb' (by rw [hc]; rfl) r))
    · refine .inr (.inr (wakes hi hq hr hc hb' ?_ he))
      rw [afterLeave_direction_of_turns hturn]
      exact eq_oppositeEnd hd'
    · rw [h b] at hb
      exact absurd hb Bool.false_ne_true
  · by_cases hlast : σ.data.count - 1 = 0
    · -- no car of the other direction is registered
      refine .inr (.inr (wakes hi hq hr hc hb ?_ he))
      rw [afterLeave_direction hturn]
      by_contra hd
      have hnum := hi.num_ne_zero (waits_registered hb)
      rw [eq_oppositeEnd hd] at hnum
      exact hturn ⟨hlast, hnum⟩
    · have hpos : 0 < number inStreet σ.pc := number_pos_iff.mpr ⟨c, by rw [hc]; rfl⟩
      have := hi.count_eq
      refine .inl ?_
      rw [afterLeave_count]
      omega

theorem Alive.after_register (hi : Inv dir n σ.data σ.pc) (s : Street size) :
    Alive dir (σ.after c (s, [], .leave (iterate n 0))) := by
  intro hw
  obtain ⟨b, hb⟩ := waits_of_after (by exact iterate_waits n 0) hw
  have hloop := hi.inLoop b
  have hn : 0 < n := by
    cases hpb : σ.pc b with
    | woken i t =>
      rw [hpb] at hloop
      exact Nat.lt_of_le_of_lt (Nat.zero_le i) hloop
    | _ => rw [hpb] at hb; exact absurd hb Bool.false_ne_true
  refine .inr (.inl ⟨c, ?_⟩)
  rw [State.after_pc_self, Exit.next_leave, iterate, if_pos hn]
  rfl

omit [Fintype Car] in
/-- A car that finishes wakes nobody, and nobody needs it. -/
theorem Alive.after_unregister (ha : Alive dir σ) (hc : σ.pc c = .unregister) {s : Street size}
    (hcount : s.count = σ.data.count) (hdir : s.direction = σ.data.direction) :
    Alive dir (σ.after c (s, [], .leave .done)) := by
  intro hw
  rcases ha (waits_of_after rfl hw) with h | ⟨b, hb⟩ | ⟨b, hb, hd, hbb⟩
  · exact .inl (hcount ▸ h)
  · exact .inr (.inl (comes_after hb (by rw [hc]; rfl) _))
  · have hne : b ≠ c := ne_of_phase hb (by rw [hc]; rfl)
    refine .inr (.inr ⟨b, ?_, hdir ▸ hd, not_blocked_after hbb hne _⟩)
    rw [State.after_pc_of_ne _ _ hne]
    exact hb

/-- **Safe sections keep the cars alive.** -/
theorem Alive.after (ha : Alive dir σ) (hi : Inv dir n σ.data σ.pc) (hq : Queued σ)
    (hr : QueuedRight dir σ) (hs : Safe dir n σ (.run c))
    (ho : Outcome dir n c σ.data (σ.pc c) r) : Alive dir (σ.after c r) := by
  have hcount := hi.count_nonneg
  generalize hp : σ.pc c = p at ho
  cases ho with
  | register => exact Alive.after_register hi _
  | enterNow _ _ _ => exact fun _ => .inl (by change 0 < σ.data.count + 1; omega)
  | wokenEnter _ _ _ => exact fun _ => .inl (by change 0 < σ.data.count + 1; omega)
  | enterWait hw =>
    refine fun _ => .inl ?_
    change 0 < (claimStreet (dir c) σ.data).count
    rw [claimStreet_count]
    by_contra h0
    -- an empty street takes the direction of the car, which then does not wait
    have hd : (claimStreet (dir c) σ.data).direction = dir c :=
      claimStreet_direction (by omega) (hi.num_ne_zero (by rw [hp]; rfl))
    rcases hw with hw | hw
    · exact hw hd.symm
    · have hmax : (0 : ℤ) < MAX_OCCUPANCY := by decide
      exact h0 (lt_of_lt_of_le hmax hw)
  | wokenWait hw => exact ha.after_wait hp hw
  | leave => exact Alive.after_leave hi hq hr hs hp rfl
  | unregister => exact ha.after_unregister hp rfl rfl

section Run

variable {σ σ' : State Car Phase (Street (WAITING_HISTOGRAM_SIZE Car n)) Direction}

theorem reach_alive (hr : ((sys (traffic dir n)).restrict (Safe dir n)).Reach σ) :
    Alive dir σ := by
  refine hr.invariant ?_ ?_
  · intro σ hσ
    rw [show σ = _ from hσ]
    exact fun hw => absurd hw (by simp [traffic, Phase.waits])
  · intro σ a σ' hr ha hst
    obtain ⟨hs, hst⟩ := hst
    have hr := hr.of_restrict
    cases hst with
    | lock _ _ _ => exact ha
    | run hh hb =>
      exact ha.after (reach_inv hr) (reach_queued hr) (reach_queuedRight hr) hs (car_cases hb)

/-- **Nobody is stuck** while the cars are alive. -/
theorem Alive.not_stuck (ha : Alive dir σ) (hr : (sys (traffic dir n)).Reach σ) : ¬Stuck σ := by
  intro hst
  obtain ⟨⟨c, hc⟩, hall⟩ := hst
  have hwaits : ∀ b, σ.pc b ≠ .done → (σ.pc b).waits = true := by
    intro b hb
    obtain ⟨g, hg⟩ := hall b hb
    exact (reach_queuedRight hr g b hg).2
  rcases ha ⟨c, hwaits c hc⟩ with h | ⟨b, hb⟩ | ⟨b, hb, -, hbb⟩
  · rw [(reach_inv hr).count_eq] at h
    obtain ⟨b, hb⟩ := number_pos_iff.mp h
    have hb : (σ.pc b).inStreet = true := hb
    have := hwaits b fun e => by rw [e] at hb; exact Bool.false_ne_true hb
    cases hp : σ.pc b <;> rw [hp] at hb this <;> first
      | exact Bool.false_ne_true hb
      | exact Bool.false_ne_true this
  · have := hwaits b fun e => by rw [e] at hb; exact Bool.false_ne_true hb
    cases hp : σ.pc b <;> rw [hp] at hb this <;> first
      | exact Bool.false_ne_true hb
      | exact Bool.false_ne_true this
  · exact hbb (hall b fun e => by rw [e] at hb; exact Bool.false_ne_true hb)

end Run

/-! ## Unsafe steps -/

/-- The street is empty, the lock is free, and every car is about to finish, finished, or waits
against the direction of the street. -/
structure Doomed (dir : Car → Direction) (σ : State Car Phase (Street size) Direction) : Prop where
  holder : σ.holder = none
  phase : ∀ c, σ.pc c = .unregister ∨ σ.pc c = .done ∨
    ∃ i t, σ.pc c = .woken i t ∧ dir c ≠ σ.data.direction
  waiting : ∃ c, (σ.pc c).waits = true

theorem alone_of_last (hi : Inv dir n σ.data σ.pc) {i : ℕ} (hc : σ.pc c = .leave i)
    (hlast : σ.data.count - 1 = 0) {b : Car} (hbc : b ≠ c) : (σ.pc b).inStreet = false := by
  have hempty : number inStreet (Function.update σ.pc c .unregister) = 0 := by
    have hin : inStreet c (σ.pc c) = true := by rw [hc]; rfl
    have hout : inStreet c Phase.unregister = false := rfl
    rw [number_update, ← hi.count_eq]
    simp only [hin, hout, if_true, Bool.false_eq_true, if_false]
    omega
  have := number_eq_zero_iff.mp hempty b
  rwa [Function.update_of_ne hbc] at this

/-- **An unsafe step dooms the cars.** -/
theorem doomed_of_not_safe (hi : Inv dir n σ.data σ.pc) (hs : ¬Safe dir n σ (.run c))
    (ho : Outcome dir n c σ.data (σ.pc c) r) : Doomed dir (σ.after c r) := by
  simp only [Safe, not_forall, not_or, not_exists, not_and, not_not, not_lt, exists_prop,
    Bool.not_eq_true, Bool.not_eq_false] at hs
  obtain ⟨i, hc, hturn, hlast, hcomes, hdir, b, hb⟩ := hs
  rw [hc] at ho
  have hend : iterate n (i + 1) = .unregister := by rw [iterate, if_neg (by omega)]
  cases ho with
  | leave =>
    refine ⟨rfl, ?_, b, ?_⟩
    · intro a
      by_cases hac : a = c
      · subst hac
        exact .inl (by rw [State.after_pc_self]; exact hend)
      · rw [State.after_pc_of_ne _ _ hac]
        have h1 := alone_of_last hi hc hturn.1 hac
        have h2 := hcomes a
        have h3 := hdir a
        cases hp : σ.pc a with
        | woken j t =>
          rw [hp] at h3
          refine .inr (.inr ⟨j, t, rfl, ?_⟩)
          rw [h3 rfl]
          change _ ≠ (afterLeave σ.data).direction
          rw [afterLeave_direction_of_turns hturn]
          exact (oppositeEnd_ne _).symm
        | unregister => exact .inl rfl
        | done => exact .inr (.inl rfl)
        | register => rw [hp] at h2; exact absurd h2 (by simp [Phase.comes])
        | enter j => rw [hp] at h2; exact absurd h2 (by simp [Phase.comes])
        | leave j => rw [hp] at h1; exact absurd h1 (by simp [Phase.inStreet])
    · rw [State.after_pc_of_ne _ _ (ne_of_phase hb (by rw [hc]; rfl))]
      exact hb

section Run

variable {σ σ' : State Car Phase (Street (WAITING_HISTOGRAM_SIZE Car n)) Direction}

omit [DecidableEq Car] in
theorem not_finished {p : Phase} (h : p ≠ .done) : (traffic dir n).finished p = false := by
  simp [traffic, h]

theorem active_of_after {s : Street (WAITING_HISTOGRAM_SIZE Car n)} {e : Exit Direction Phase}
    (hna : ¬Active (traffic dir n) (σ.after c (s, [], e)) c) {b : Car}
    (hb : Active (traffic dir n) (σ.after c (s, [], e)) b) : Active (traffic dir n) σ b := by
  have hbc : b ≠ c := by
    rintro rfl
    exact hna hb
  obtain ⟨h1, h2⟩ := hb
  rw [State.after_pc_of_ne _ _ hbc] at h1
  refine ⟨h1, fun hblocked => h2 ?_⟩
  obtain ⟨g, hg⟩ := hblocked
  refine ⟨g, ?_⟩
  cases e with
  | leave l => exact hg
  | wait g' l =>
    change b ∈ Function.update σ.queue g' _ g
    by_cases hgg : g = g'
    · subst hgg
      rw [Function.update_self]
      exact List.mem_append_left _ hg
    · rw [Function.update_of_ne hgg]
      exact hg

theorem Doomed.after (hd : Doomed dir σ) {s : Street (WAITING_HISTOGRAM_SIZE Car n)}
    {e : Exit Direction Phase} (hdir : s.direction = σ.data.direction)
    (he : e.next = .done ∨ ∃ i t, e.next = .woken i t ∧ dir c ≠ σ.data.direction)
    (hwait : ∃ b, ((σ.after c (s, [], e)).pc b).waits = true) :
    Doomed dir (σ.after c (s, [], e)) := by
  refine ⟨rfl, fun b => ?_, hwait⟩
  change _ ∨ _ ∨ ∃ i t, _ ∧ dir b ≠ s.direction
  rw [hdir]
  by_cases hbc : b = c
  · subst hbc
    rw [State.after_pc_self]
    exact .inr he
  · rw [State.after_pc_of_ne _ _ hbc]
    exact hd.phase b

theorem Doomed.turn (hd : Doomed dir σ) (ha : Active (traffic dir n) σ c) :
    ∃ σ', (sys (traffic dir n)).Moves σ σ' ∧ Doomed dir σ' ∧ ¬Active (traffic dir n) σ' c ∧
      ∀ b, Active (traffic dir n) σ' b → Active (traffic dir n) σ b := by
  obtain ⟨b, hb⟩ := hd.waiting
  rcases hd.phase c with hc | hc | ⟨i, t, hc, hdir⟩
  · have hcar : car dir n c (σ.pc c) σ.data =
        some (addToDir σ.data (dir c) (-1), [], .leave .done) := by rw [hc]; rfl
    have hna : ¬Active (traffic dir n) (σ.after c (addToDir σ.data (dir c) (-1), [], .leave .done))
        c := by
      intro h
      have := h.1
      rw [State.after_pc_self] at this
      simp [traffic] at this
    refine ⟨_, moves_run hd.holder ha hcar, hd.after rfl (.inl rfl) ⟨b, ?_⟩, hna,
      fun _ => active_of_after hna⟩
    rw [State.after_pc_of_ne _ _ (ne_of_phase hb (by rw [hc]; rfl))]
    exact hb
  · exact absurd ha.1 (by rw [hc]; simp [traffic])
  · have hcar : car dir n c (σ.pc c) σ.data =
        some (σ.data, [], .wait (dir c) (.woken i t)) := by
      rw [hc]
      exact if_pos (.inl hdir)
    have hna : ¬Active (traffic dir n) (σ.after c (σ.data, [], .wait (dir c) (.woken i t))) c := by
      intro h
      refine h.2 ⟨dir c, ?_⟩
      change c ∈ Function.update σ.queue (dir c) (σ.queue (dir c) ++ [c]) (dir c)
      rw [Function.update_self]
      exact List.mem_append_right _ (List.mem_singleton_self c)
    refine ⟨_, moves_run hd.holder ha hcar, hd.after rfl (.inr ⟨i, t, rfl, hdir⟩) ⟨c, ?_⟩, hna,
      fun _ => active_of_after hna⟩
    rw [State.after_pc_self]
    rfl

/-- **Doomed cars can get stuck.** -/
theorem Doomed.stuck (hd : Doomed dir σ) : ∃ σ', (sys (traffic dir n)).Moves σ σ' ∧ Stuck σ' := by
  obtain ⟨σ', hm, hd', hq⟩ := exists_quiescent (P := traffic dir n) (I := Doomed dir)
    (fun σ c h ha => h.turn ha) hd
  obtain ⟨c, hc⟩ := hd'.waiting
  refine ⟨σ', hm, ⟨c, fun e => ?_⟩, fun b hb => ?_⟩
  · rw [e] at hc
    exact Bool.false_ne_true hc
  · by_contra hblocked
    exact hq b ⟨not_finished hb, hblocked⟩

end Run

/-- **When the cars never get stuck**: as long as every step is safe, and not after one that is
not. -/
theorem stuck_free (dir : Car → Direction) (n : ℕ) :
    (∀ σ, ((sys (traffic dir n)).restrict (Safe dir n)).Reach σ → ¬Stuck σ) ∧
      ∀ σ a σ', (sys (traffic dir n)).Reach σ → (sys (traffic dir n)).step σ a σ' →
        ¬Safe dir n σ a → ∃ σ'', (sys (traffic dir n)).Moves σ' σ'' ∧ Stuck σ'' := by
  constructor
  · intro σ hr
    exact (reach_alive hr).not_stuck hr.of_restrict
  · intro σ a σ' hr hst hs
    cases hst with
    | lock _ _ _ => exact absurd trivial hs
    | run hh hb => exact (doomed_of_not_safe (reach_inv hr) hs (car_cases hb)).stuck

theorem stuck_free_three : (¬∃ σ, ((sys (traffic threeCars 1)).restrict (Safe threeCars 1)).Reach σ ∧
    Stuck σ) ∧ ∃ σ, (sys (traffic threeCars 1)).Reach σ ∧ Stuck σ := by
  obtain ⟨hsafe, hdoom⟩ := stuck_free threeCars 1
  refine ⟨fun ⟨σ, hr, hst⟩ => hsafe σ hr hst, ?_⟩
  obtain ⟨σ, hr, hp⟩ := reach_of_turns (P := traffic threeCars 1)
    (p := fun σ => decide (σ.holder = none ∧ σ.pc 0 = .leave 0 ∧ σ.pc 1 = .woken 0 1 ∧
      σ.pc 2 = .unregister ∧ σ.queue .EAST = [] ∧ σ.queue .WEST = [] ∧ TurnsAround σ.data ∧
      σ.data.direction = .EAST)) [0, 1, 2, 2, 0, 1, 2, 0] (by decide)
  obtain ⟨hh, h0, h1, h2, hE, hW, hturn, hd⟩ := of_decide_eq_true hp
  have hb : ¬σ.Blocked 0 := fun ⟨g, hg⟩ => by cases g <;> simp_all
  have hlock : (sys (traffic threeCars 1)).Reach { σ with holder := some 0 } :=
    hr.step (l := .lock 0) (.lock hh hb (by rw [h0]; rfl))
  have hrun : Step (traffic threeCars 1) { σ with holder := some 0 } (.run 0) _ :=
    .run rfl (show car threeCars 1 0 (σ.pc 0) σ.data = some _ by rw [h0]; rfl)
  have hbad : ¬Safe threeCars 1 { σ with holder := some 0 } (.run 0) := by
    intro hs
    rcases hs 0 h0 hturn with h | ⟨b, hb⟩ | ⟨b, hb, hdb⟩ | h
    · exact absurd h (by decide)
    · match b with
      | 0 | 1 | 2 => simp [h0, h1, h2, Phase.comes] at hb
    · match b with
      | 0 | 1 | 2 => simp [h0, h1, h2, hd, Phase.waits, threeCars] at hb hdb
    · have := h 1
      simp [h1, Phase.waits] at this
  obtain ⟨σ', hm, hst⟩ := hdoom _ _ _ hlock hrun hbad
  exact ⟨σ', (hlock.step hrun).moves hm, hst⟩

end IntroSystems.Traffic.Cond
