import IntroSystems.Lib.Monitor
import IntroSystems.Lib.Tally

/-!
# Producers and consumers

Threads of a monitor that put things into a buffer and take them out of it, a fixed number of
rounds each. A thread waits at its gate as long as there is no room there, and otherwise makes room
at the other gate and signals there.

* `Gate`, `Exchange`: the programs of this kind. Their data are only known through the `room` at
  each gate.
* `Exchange.Inv`, `Exchange.reach_inv`: as long as threads wait at a gate, enough others of their
  side have been woken for the room that there is.
* **`Exchange.defined`**: no section is undefined. **`Exchange.complete`**: with as many producers as
  consumers, a run does not get stuck before all are through.
-/

set_option autoImplicit false

namespace Monitor

open Tally

/-- Producers wait for `notFull`, and consumers for `notEmpty`. -/
inductive Gate
  | notFull
  | notEmpty
  deriving DecidableEq

def Gate.other : Gate → Gate
  | .notFull => .notEmpty
  | .notEmpty => .notFull

theorem Gate.other_ne (g : Gate) : g.other ≠ g := by cases g <;> simp [Gate.other]

theorem Gate.eq_other {g g' : Gate} (h : g' ≠ g) : g' = g.other := by
  cases g <;> cases g' <;> simp_all [Gate.other]

variable {T D : Type}

/-- A program of producers and consumers. Point `i` is round `i`. -/
structure Exchange (P : Program T ℕ D Gate) (side : T → Gate) (rounds cap : ℕ) (I : D → Prop)
    (room : Gate → D → ℕ) : Prop where
  start : P.start = 0
  finished : ∀ i, P.finished i = decide (rounds ≤ i)
  data : I P.data
  empty : room .notEmpty P.data = 0
  cap : ∀ d, I d → room .notFull d + room .notEmpty d = cap
  body : ∀ t i d, I d → ∃ d', I d' ∧
    (room (side t) d = 0 ∧ (∀ g, room g d' = room g d) ∧
        P.body t i d = some (d', [], .wait (side t) i) ∨
      room (side t) d = room (side t) d' + 1 ∧
        room (side t).other d' = room (side t).other d + 1 ∧
        P.body t i d = some (d', [(side t).other], .leave (i + 1)))

namespace Exchange

variable {P : Program T ℕ D Gate} {side : T → Gate} {rounds cap : ℕ} {I : D → Prop}
  {room : Gate → D → ℕ}

/-- Of this side, and not through yet. -/
def busy (side : T → Gate) (rounds : ℕ) (g : Gate) (t : T) (i : ℕ) : Bool :=
  decide (side t = g) && decide (i < rounds)

/-- Put in, less taken out. -/
def flow (side : T → Gate) (t : T) (i : ℕ) : ℤ := if side t = .notFull then i else -i

variable [Fintype T]

/-- The invariant. -/
structure Inv (side : T → Gate) (rounds : ℕ) (I : D → Prop) (room : Gate → D → ℕ)
    (s : State T ℕ D Gate) : Prop where
  data : I s.data
  le : ∀ t, s.pc t ≤ rounds
  holder : ∀ t, s.holder = some t → s.pc t < rounds
  queued : ∀ g t, t ∈ s.queue g → side t = g ∧ s.pc t < rounds
  flow : (room .notEmpty s.data : ℤ) = total (flow side) s.pc
  wake : ∀ g, s.queue g ≠ [] →
    (room g s.data + (s.queue g).length : ℤ) ≤ number (busy side rounds g) s.pc

variable [DecidableEq T] {s : State T ℕ D Gate} {g : Gate} {t : T}

theorem Inv.length_le (hn : (s.queue g).Nodup) (hq : ∀ t ∈ s.queue g, side t = g ∧ s.pc t < rounds) :
    ((s.queue g).length : ℤ) ≤ number (busy side rounds g) s.pc := by
  unfold number
  rw [← List.toFinset_card_of_nodup hn, Nat.cast_le]
  refine Finset.card_le_card fun t ht => ?_
  simp [busy, hq t (List.mem_toFinset.mp ht)]

theorem Inv.after_wait (h : Inv side rounds I room s) (hq : Queued s) (ht : s.holder = some t) {d : D}
    (hd : I d) (h0 : room (side t) s.data = 0) (hroom : ∀ g, room g d = room g s.data) :
    Inv side rounds I room (s.after t (d, [], .wait (side t) (s.pc t))) := by
  have hpc : (s.after t (d, [], .wait (side t) (s.pc t))).pc = s.pc := by simp [State.after]
  have hqueue : (s.after t (d, [], .wait (side t) (s.pc t))).queue =
      Function.update s.queue (side t) (s.queue (side t) ++ [t]) := rfl
  have hqueued : ∀ g u, u ∈ (s.after t (d, [], .wait (side t) (s.pc t))).queue g →
      side u = g ∧ s.pc u < rounds := by
    intro g u hu
    rw [hqueue] at hu
    by_cases hg : g = side t
    · subst hg
      rw [Function.update_self, List.mem_append, List.mem_singleton] at hu
      rcases hu with hu | rfl
      · exact h.queued _ u hu
      · exact ⟨rfl, h.holder _ ht⟩
    · rw [Function.update_of_ne hg] at hu
      exact h.queued g u hu
  refine ⟨hd, ?_, ?_, ?_, ?_, ?_⟩
  · rw [hpc]
    exact h.le
  · simp [State.after]
  · rw [hpc]
    exact hqueued
  · rw [hpc]
    exact (congrArg Nat.cast (hroom _)).trans h.flow
  · intro g hne
    rw [hpc]
    change (room g d + _ : ℤ) ≤ _
    rw [hroom]
    by_cases hg : g = side t
    · subst hg
      have hnd := (hq.after (hq.holder t ht) (d, [], .wait (side t) (s.pc t))).nodup (side t)
      have hlen := length_le (s := s.after t (d, [], .wait (side t) (s.pc t))) hnd
        (by rw [hpc]; exact hqueued _)
      rw [hpc] at hlen
      rw [h0]
      simpa using hlen
    · rw [hqueue, Function.update_of_ne hg] at hne ⊢
      exact h.wake g hne

theorem Inv.after_leave (h : Inv side rounds I room s) (hq : Queued s) (ht : s.holder = some t) {d : D}
    (hd : I d) (h1 : room (side t) s.data = room (side t) d + 1)
    (h2 : room (side t).other d = room (side t).other s.data + 1) :
    Inv side rounds I room (s.after t (d, [(side t).other], .leave (s.pc t + 1))) := by
  have hlt := h.holder t ht
  have hpc : (s.after t (d, [(side t).other], .leave (s.pc t + 1))).pc =
      Function.update s.pc t (s.pc t + 1) := rfl
  have hqueue : (s.after t (d, [(side t).other], .leave (s.pc t + 1))).queue =
      signal s.queue (side t).other := rfl
  refine ⟨hd, fun u => ?_, ?_, fun g u hu => ?_, ?_, fun g hne => ?_⟩
  · rw [hpc]
    by_cases hu : u = t
    · subst hu
      simpa [Nat.succ_le_iff] using hlt
    · simpa [hu] using h.le u
  · simp [State.after]
  · have hu' := (signal_sublist s.queue _ g).subset hu
    have hut : u ≠ t := fun e => hq.holder t ht ⟨g, e ▸ hu'⟩
    rw [hpc, Function.update_of_ne hut]
    exact h.queued g u hu'
  · rw [hpc, total_update, ← h.flow]
    change (room .notEmpty d : ℤ) = _
    cases hs : side t <;> simp only [hs, Gate.other] at h1 h2 <;> simp [Exchange.flow, hs] <;> omega
  · rw [hpc, number_update]
    rw [hqueue] at hne ⊢
    change (room g d + _ : ℤ) ≤ _
    by_cases hg : g = side t
    · subst hg
      rw [signal_of_ne _ (Gate.other_ne _).symm] at hne ⊢
      have hw := h.wake _ hne
      split_ifs <;> omega
    · obtain rfl := Gate.eq_other hg
      rw [signal_self] at hne ⊢
      have hne' : s.queue (side t).other ≠ [] := fun e => by simp [e] at hne
      have hw := h.wake _ hne'
      have hl := List.length_tail (l := s.queue (side t).other)
      have hpos := List.length_pos_iff.mpr hne'
      have hb : ∀ i, busy side rounds (side t).other t i = false := fun i => by
        simp [busy, (Gate.other_ne (side t)).symm]
      rw [hb, hb]
      simp only [Bool.false_eq_true, if_false]
      omega

/-- **The invariant holds in every run.** -/
theorem reach_inv (hP : Exchange P side rounds cap I room) (hr : (sys P).Reach s) :
    Inv side rounds I room s := by
  refine hr.invariant ?_ ?_
  · rintro s rfl
    refine ⟨hP.data, fun t => ?_, by simp, by simp, ?_, by simp⟩
    · simp [hP.start]
    · simp [hP.empty, total, Exchange.flow, hP.start]
  · intro s a s' hr h hst
    cases hst with
    | lock _ _ hf =>
      refine ⟨h.data, h.le, fun u hu => ?_, h.queued, h.flow, h.wake⟩
      obtain rfl := Option.some.inj hu
      simpa [hP.finished] using hf
    | @run t r hh hb =>
      obtain ⟨d, hd, ⟨h0, hroom, hb'⟩ | ⟨h1, h2, hb'⟩⟩ := hP.body t (s.pc t) s.data h.data
      · rw [hb] at hb'
        cases hb'
        exact h.after_wait (reach_queued hr) hh hd h0 hroom
      · rw [hb] at hb'
        cases hb'
        exact h.after_leave (reach_queued hr) hh hd h1 h2

/-- **No section is undefined.** -/
theorem defined (hP : Exchange P side rounds cap I room) (hr : (sys P).Reach s) (t : T) (i : ℕ) :
    P.body t i s.data ≠ none := by
  obtain ⟨d, -, ⟨-, -, hb⟩ | ⟨-, -, hb⟩⟩ := hP.body t i s.data (hP.reach_inv hr).data <;> simp [hb]

theorem Inv.room_eq_zero (h : Inv side rounds I room s) (hn : ∀ g, (s.queue g).Nodup)
    (hstuck : ∀ t, s.pc t < rounds → s.Blocked t) (hne : s.queue g ≠ []) : room g s.data = 0 := by
  have hle : number (busy side rounds g) s.pc ≤ (s.queue g).length := by
    unfold number
    rw [← List.toFinset_card_of_nodup (hn g), Nat.cast_le]
    refine Finset.card_le_card fun t ht => ?_
    simp only [busy, Bool.and_eq_true, decide_eq_true_eq, Finset.mem_filter, Finset.mem_univ,
      true_and] at ht
    obtain ⟨g', hg'⟩ := hstuck t ht.2
    rw [List.mem_toFinset, ← ht.1, (h.queued g' t hg').1]
    exact hg'
  have hw := h.wake g hne
  omega

omit [DecidableEq T] in
theorem Inv.missing (h : Inv side rounds I room s)
    (heq : total (Exchange.flow side) (fun _ => 1) = 0) :
    (room .notEmpty s.data : ℤ) =
      ∑ t, if side t = .notFull then (s.pc t : ℤ) - rounds else rounds - s.pc t := by
  have hzero : ∑ t, Exchange.flow side t rounds = 0 := by
    calc ∑ t, Exchange.flow side t rounds = ∑ t, (rounds : ℤ) * Exchange.flow side t 1 := by
          refine Finset.sum_congr rfl fun t _ => ?_
          unfold Exchange.flow
          split_ifs <;> simp
      _ = rounds * total (Exchange.flow side) (fun _ => 1) := by rw [total, Finset.mul_sum]
      _ = 0 := by rw [heq, mul_zero]
  rw [h.flow, total, ← sub_zero (∑ t, Exchange.flow side t (s.pc t)), ← hzero,
    ← Finset.sum_sub_distrib]
  refine Finset.sum_congr rfl fun t _ => ?_
  unfold Exchange.flow
  split_ifs <;> omega

/-- **A run does not get stuck** before all threads are through. -/
theorem complete (hP : Exchange P side rounds cap I room) (hcap : 0 < cap)
    (heq : total (flow side) (fun _ => 1) = 0) (hr : (sys P).Reach s)
    (hstuck : ∀ t, ¬Active P s t) (t : T) : s.pc t = rounds ∧ ¬s.Blocked t := by
  have h := hP.reach_inv hr
  suffices hpc : ∀ t, s.pc t = rounds from
    ⟨hpc t, fun ⟨g, hg⟩ => ((h.queued g t hg).2.trans_eq (hpc t).symm).false⟩
  intro t
  have hq := reach_queued hr
  have hwait : ∀ t, s.pc t < rounds → s.Blocked t := fun t ht => by
    by_contra hb
    exact hstuck t ⟨by simpa [hP.finished] using ht, hb⟩
  have hsum := h.missing heq
  have hboth := hP.cap s.data h.data
  -- the threads of a side all are through when none of them waits
  have hside : ∀ g, s.queue g = [] → ∀ t, side t = g → s.pc t = rounds := fun g hg t ht => by
    refine le_antisymm (h.le t) (not_lt.mp fun hlt => ?_)
    obtain ⟨g', hg'⟩ := hwait t hlt
    rw [← (h.queued g' t hg').1, ht, hg] at hg'
    exact List.not_mem_nil hg'
  by_cases hE : s.queue .notEmpty = []
  · by_cases hF : s.queue .notFull = []
    · cases hs : side t with
      | notFull => exact hside _ hF t hs
      | notEmpty => exact hside _ hE t hs
    · -- producers wait, and nobody takes anything out
      exfalso
      have h0 := h.room_eq_zero hq.nodup hwait hF
      have hle : ∑ t, (if side t = .notFull then (s.pc t : ℤ) - rounds else rounds - s.pc t) ≤ 0 := by
        refine Finset.sum_nonpos fun u _ => ?_
        have hu := h.le u
        split_ifs with hs
        · omega
        · rw [hside _ hE u (Gate.eq_other hs)]
          omega
      omega
  · have h0 := h.room_eq_zero hq.nodup hwait hE
    have hF : s.queue .notFull = [] := by
      by_contra hF
      have h0' := h.room_eq_zero hq.nodup hwait hF
      omega
    -- consumers wait, and nobody puts anything in
    exfalso
    obtain ⟨u, hu⟩ := List.exists_mem_of_ne_nil _ hE
    obtain ⟨hs, hlt⟩ := h.queued _ u hu
    have hpos : 0 < ∑ t, (if side t = .notFull then (s.pc t : ℤ) - rounds else rounds - s.pc t) := by
      refine Finset.sum_pos' (fun v _ => ?_) ⟨u, Finset.mem_univ u, ?_⟩
      · have hv := h.le v
        split_ifs with hs'
        · rw [hside _ hF v hs']
          omega
        · omega
      · rw [hs]
        simpa using hlt
    omega

end Exchange

end Monitor
