import IntroSystems.Lib.Tally
import IntroSystems.Traffic.SemModel

/-!
# Safety of the street with semaphores

A car that enters at once never takes a token from its semaphore, so tokens are left over; and a
car that got a token enters without looking at the street again.

* `mixed_street`: cars of opposite directions in the street, and a fourth car about to enter it.
* `Rechecked`: a step in which a car that waited finds what an entering car would have looked for.
* `Inv`, `Inv.after`: with such steps, the counters and the direction of the street are right.
* **`street_safe_of_rechecked`**: then the street is safe, and the first step that is not of this
  kind indexes the histogram out of range or puts a car into the street against its direction.
-/

set_option autoImplicit false

namespace IntroSystems.Traffic.Sem

open Semaphore Tally

variable {Car : Type} [Fintype Car] {dir : Car → Direction} {n size : ℕ}

/-- A car in the street. -/
def inStreet (_ : Car) (p : Phase) : Bool := p.inStreet

/-- A car of direction `g` in the street. -/
def inStreetIn (dir : Car → Direction) (g : Direction) (c : Car) (p : Phase) : Bool :=
  decide (dir c = g) && p.inStreet

/-- The local `t` of a car that waits or has waited. -/
def Phase.recorded : Phase → Option ℤ
  | .waitSem _ t => some t
  | .admitted _ t => some t
  | _ => none

@[simp] theorem iterate_recorded (n i : ℕ) : (iterate n i).recorded = none := by
  unfold iterate
  split_ifs <;> rfl

/-- What `traffic.c` checks, and `enterAfterWait` does not: a car that has waited finds the street
in its direction and not full. -/
def Rechecked (dir : Car → Direction) (σ : State Car Phase (Street size) Direction) :
    Act Car → Prop
  | .run c => ∀ i t, σ.pc c = .admitted i t →
      dir c = σ.data.direction ∧ σ.data.count < MAX_OCCUPANCY
  | _ => True

/-- The street and the phases of the cars agree. -/
structure Inv (dir : Car → Direction) (s : Street size) (pc : Car → Phase) : Prop where
  count_eq : s.count = number inStreet pc
  count_le : s.count ≤ MAX_OCCUPANCY
  dir_eq : ∀ c, (pc c).inStreet = true → dir c = s.direction
  in_eq : ∀ g, s.num_each_dir_in_street g = number (inStreetIn dir g) pc
  ticker : ∀ c t, (pc c).recorded = some t → t ≤ s.hist.entryTicker

/-- **Cars of both directions in the street**, and a fourth car that has the token to enter it.
First the westbound car is woken, and then the second eastbound car finds the street empty. -/
theorem mixed_street :
    (∃ σ, (sys (traffic threeCars 1)).Reach σ ∧ (σ.pc 1).inStreet = true ∧
      (σ.pc 2).inStreet = true ∧ threeCars 1 ≠ threeCars 2) ∧
    ∃ σ, (sys (traffic (fun _ : Fin 4 => .EAST) 1)).Reach σ ∧ σ.data.count = 3 ∧
      σ.pc 3 = .admitted 0 3 ∧ σ.Blocked 3 = False ∧ enterAfterWait .EAST 0 3 σ.data = none := by
  constructor
  · obtain ⟨σ, hσ, hp⟩ := reach_of_plays (P := traffic threeCars 1)
      (p := fun σ => (σ.pc 1).inStreet && (σ.pc 2).inStreet) [0, 1, 2, 0, 2, 2, 0, 1, 2] (by decide)
    rw [Bool.and_eq_true] at hp
    exact ⟨σ, hσ, hp.1, hp.2, by decide⟩
  · obtain ⟨σ, hσ, hp⟩ := reach_of_plays (P := traffic (fun _ : Fin 4 => .EAST) 1)
      (p := fun σ => decide (σ.data.count = 3 ∧ σ.pc 3 = .admitted 0 3 ∧ (σ.sem .EAST).queue = [] ∧
        (σ.sem .WEST).queue = [] ∧ (enterAfterWait .EAST 0 3 σ.data).isNone = true))
      [0, 1, 2, 3, 0, 1, 2, 3, 3] (by decide)
    obtain ⟨h1, h2, h3, h4, h5⟩ := of_decide_eq_true hp
    refine ⟨σ, hσ, h1, h2, ?_, Option.isNone_iff_eq_none.mp h5⟩
    refine eq_false fun h => ?_
    obtain ⟨g, hg⟩ := h
    cases g with
    | EAST => rw [h3] at hg; exact List.not_mem_nil hg
    | WEST => rw [h4] at hg; exact List.not_mem_nil hg

variable {s : Street size} {pc : Car → Phase} {c : Car}

theorem Inv.count_nonneg (hi : Inv dir s pc) : 0 ≤ s.count := by
  rw [hi.count_eq]
  exact number_nonneg _ _

/-- **All cars in the street go in its direction.** -/
theorem Inv.in_street_eq (hi : Inv dir s pc) {g : Direction} (hg : g = s.direction) :
    s.num_each_dir_in_street g = s.count := by
  rw [hg, hi.in_eq, hi.count_eq]
  refine number_congr fun c => ?_
  unfold inStreetIn inStreet
  cases hc : (pc c).inStreet with
  | false => rw [Bool.and_false]
  | true => rw [hi.dir_eq c hc, decide_eq_true rfl, Bool.and_true]

theorem Inv.turn (hi : Inv dir s pc) (h0 : s.count = 0) (g : Direction) :
    Inv dir { s with direction := g } pc := by
  refine ⟨hi.count_eq, hi.count_le, fun c hc => ?_, hi.in_eq, hi.ticker⟩
  rw [hi.count_eq] at h0
  have hout : (pc c).inStreet = false := number_eq_zero_iff.mp h0 c
  exact absurd (hout.symm.trans hc) Bool.false_ne_true

theorem Inv.claim (hi : Inv dir s pc) (g : Direction) : Inv dir (claimStreet g s) pc := by
  cases hc : claims g s with
  | true =>
    obtain ⟨h0, he⟩ := claimStreet_of_claims hc
    rw [he]
    exact hi.turn h0 g
  | false =>
    rw [claimStreet, if_neg (by simp [hc])]
    exact hi

theorem Inv.activate (hi : Inv dir s pc) (g : Direction) (k : ℤ) : Inv dir (activate g k s) pc :=
  ⟨hi.count_eq, hi.count_le, hi.dir_eq, hi.in_eq, hi.ticker⟩

theorem Inv.waiting (hi : Inv dir s pc) (a : Direction → ℤ) :
    Inv dir { s with num_each_dir_waiting := a } pc :=
  ⟨hi.count_eq, hi.count_le, hi.dir_eq, hi.in_eq, hi.ticker⟩

theorem inv_init (dir : Car → Direction) : Inv dir (initializeStreet size) fun _ => .register := by
  refine ⟨?_, Int.natCast_nonneg _, ?_, ?_, ?_⟩
  · exact (number_eq_zero_iff.mpr fun _ => rfl).symm
  · exact fun c hc => absurd hc (by simp [Phase.inStreet])
  · intro g
    exact (number_eq_zero_iff.mpr fun c => by simp [inStreetIn, Phase.inStreet]).symm
  · exact fun c t hc => absurd hc (by simp [Phase.recorded])

/-! ## One section -/

variable [DecidableEq Car]

theorem Inv.enters (hi : Inv dir s pc) (hout : (pc c).inStreet = false) (hdir : dir c = s.direction)
    (hc : s.count < MAX_OCCUPANCY) {w : ℤ} {h : Histograms size} {i : ℕ} {a : Direction → ℤ}
    (hr : recordEntry s.hist w (dir c) (s.count + 1) = some h) :
    Inv dir (enter (dir c) { s with num_each_dir_waiting := a } h)
      (Function.update pc c (.leave i)) := by
  have htick := recordEntry_entryTicker hr
  have h1 : inStreet c (pc c) = false := hout
  refine ⟨?_, ?_, ?_, ?_, ?_⟩
  · have h2 : inStreet c (.leave i) = true := rfl
    rw [number_update, h1, h2, ← hi.count_eq]
    simp [enter]
  · change s.count + 1 ≤ _
    omega
  · exact (Function.forall_update_iff pc fun b p => p.inStreet = true → dir b = s.direction).2
      ⟨fun _ => hdir, fun b _ => hi.dir_eq b⟩
  · intro g
    have h3 : inStreetIn dir g c (.leave i) = decide (dir c = g) := Bool.and_true _
    have h4 : inStreetIn dir g c (pc c) = false := by rw [inStreetIn, hout, Bool.and_false]
    rw [number_update, h3, h4, ← hi.in_eq]
    by_cases hg : dir c = g
    · subst hg
      simp [enter, addTo]
    · simp [enter, addTo, hg, Function.update_of_ne (Ne.symm hg)]
  · refine (Function.forall_update_iff pc fun _ p => ∀ t, p.recorded = some t → t ≤ h.entryTicker).2
      ⟨fun t hb => absurd hb (by simp [Phase.recorded]), fun b _ t hb => ?_⟩
    have := hi.ticker b t hb
    omega

theorem Inv.outside (hi : Inv dir s pc) {p : Phase} (hout : (pc c).inStreet = false)
    (hp : p.inStreet = false)
    (ht : ∀ t, p.recorded = some t → t ≤ s.hist.entryTicker) :
    Inv dir s (Function.update pc c p) := by
  refine ⟨?_, hi.count_le, ?_, ?_, ?_⟩
  · have h1 : inStreet c p = inStreet c (pc c) := hp.trans hout.symm
    rw [number_update_of_eq h1]
    exact hi.count_eq
  · exact (Function.forall_update_iff pc fun b p => p.inStreet = true → dir b = s.direction).2
      ⟨fun hb => absurd (hp.symm.trans hb) Bool.false_ne_true, fun b _ => hi.dir_eq b⟩
  · intro g
    rw [number_update_of_eq (by rw [inStreetIn, inStreetIn, hp, hout])]
    exact hi.in_eq g
  · exact (Function.forall_update_iff pc fun _ p => ∀ t, p.recorded = some t → t ≤ _).2
      ⟨ht, fun b _ => hi.ticker b⟩

theorem Inv.leaves (hi : Inv dir s pc) {p : Phase} (hin : (pc c).inStreet = true)
    (hp : p.inStreet = false) (ht : p.recorded = none) :
    Inv dir { s with
      count := s.count - 1
      num_each_dir_in_street := addTo s.num_each_dir_in_street (dir c) (-1) }
      (Function.update pc c p) := by
  have h1 : inStreet c (pc c) = true := hin
  have h2 : inStreet c p = false := hp
  refine ⟨?_, ?_, ?_, ?_, ?_⟩
  · rw [number_update, h1, h2, ← hi.count_eq]
    simp
  · change s.count - 1 ≤ _
    have := hi.count_le
    omega
  · exact (Function.forall_update_iff pc fun b p => p.inStreet = true → dir b = s.direction).2
      ⟨fun hb => absurd (hp.symm.trans hb) Bool.false_ne_true, fun b _ => hi.dir_eq b⟩
  · intro g
    have h3 : inStreetIn dir g c p = false := by rw [inStreetIn, hp, Bool.and_false]
    have h4 : inStreetIn dir g c (pc c) = decide (dir c = g) := by
      rw [inStreetIn, hin, Bool.and_true]
    rw [number_update, h3, h4, ← hi.in_eq]
    by_cases hg : dir c = g
    · subst hg
      simp [addTo, sub_eq_add_neg]
    · simp [addTo, hg, Function.update_of_ne (Ne.symm hg)]
  · exact (Function.forall_update_iff pc fun _ p => ∀ t, p.recorded = some t → t ≤ _).2
      ⟨fun t hb => absurd (ht.symm.trans hb) (by simp), fun b _ => hi.ticker b⟩

theorem Inv.enterStreet (hi : Inv dir s pc) {i : ℕ} {r : Result size} (hp : pc c = .enter i)
    (hr : enterStreet (dir c) i s = some r) : Inv dir r.1 (Function.update pc c r.2.2) := by
  have hout : (pc c).inStreet = false := by rw [hp]; rfl
  have hc := hi.claim (dir c)
  rw [enterStreet_eq] at hr
  dsimp only at hr
  split_ifs at hr with hin
  · -- the cars counted for the direction are all cars in the street
    have hlt := hin.2
    rw [hc.in_street_eq hin.1] at hlt
    obtain ⟨k, hk, rfl⟩ := Option.map_eq_some_iff.mp hr
    exact hc.enters hout hin.1 hlt hk
  · obtain rfl := Option.some.inj hr
    refine (hc.waiting _).outside hout rfl fun t ht => ?_
    exact le_of_eq (Option.some.inj ht).symm

theorem Inv.leaveStreet (hi : Inv dir s pc) {i : ℕ} {p : Phase} (hp : pc c = .leave i)
    (hout : p.inStreet = false) (ht : p.recorded = none) :
    Inv dir (leaveStreet (dir c) s).1 (Function.update pc c p) := by
  have hl := hi.leaves (by rw [hp]; rfl) hout ht
  rcases leaveStreet_cases (dir c) s with h | ⟨h0, h⟩
  · rw [h]
    exact hl
  · rw [h]
    exact hl.turn h0 _

/-- **Each section keeps the invariant**, if the street was looked at again where the car has
waited. -/
theorem Inv.after (hi : Inv dir s pc) {b : Street size → Option (Result size)} {r : Result size}
    (ha : car dir n c (pc c) = .locked b) (hb : b s = some r)
    (hg : ∀ i t, pc c = .admitted i t → dir c = s.direction ∧ s.count < MAX_OCCUPANCY) :
    Inv dir r.1 (Function.update pc c r.2.2) := by
  cases hp : pc c with
  | register =>
    rw [hp] at ha
    cases ha
    obtain rfl := Option.some.inj hb
    refine (hi.activate _ _).outside (by rw [hp]; rfl) (iterate_inStreet n 0) fun t h => ?_
    exact absurd h (by simp)
  | enter i =>
    rw [hp] at ha
    cases ha
    exact hi.enterStreet hp hb
  | waitSem i t =>
    rw [hp] at ha
    exact absurd ha (by simp [car])
  | admitted i t =>
    rw [hp] at ha
    cases ha
    obtain ⟨h, hh, rfl⟩ := Option.map_eq_some_iff.mp hb
    obtain ⟨hd, hc⟩ := hg i t hp
    exact hi.enters (by rw [hp]; rfl) hd hc hh
  | leave i =>
    rw [hp] at ha
    cases ha
    obtain rfl := Option.some.inj hb
    exact hi.leaveStreet hp (iterate_inStreet n _) (iterate_recorded n _)
  | unregister =>
    rw [hp] at ha
    cases ha
    obtain rfl := Option.some.inj hb
    refine (hi.activate _ _).outside (by rw [hp]; rfl) rfl fun t h => ?_
    exact absurd h (by simp [Phase.recorded])
  | done =>
    rw [hp] at ha
    exact absurd ha (by simp [car])

/-! ## Runs -/

variable {σ σ' : State Car Phase (Street (WAITING_HISTOGRAM_SIZE Car n)) Direction}

theorem reach_inv (hr : ((sys (traffic dir n)).restrict (Rechecked dir)).Reach σ) :
    Inv dir σ.data σ.pc := by
  refine reach_induction (I := Inv dir) (inv_init dir) ?_ ?_ hr
  · intro σ c b r hg hi ha hb
    exact hi.after ha hb hg
  · intro σ c g l hi ha
    cases hp : σ.pc c with
    | waitSem i t =>
      rw [hp] at ha
      obtain rfl : Phase.admitted i t = l := by injection ha
      refine hi.outside (by rw [hp]; rfl) rfl fun t' h => ?_
      exact hi.ticker c t' (by rw [hp]; exact h)
    | _ => rw [hp] at ha; exact absurd ha (by simp [car, traffic])

omit [DecidableEq Car] in
theorem Inv.defined (hi : Inv dir s pc) {b : Street size → Option (Result size)}
    (ha : car dir n c (pc c) = .locked b)
    (hg : ∀ i t, pc c = .admitted i t → dir c = s.direction ∧ s.count < MAX_OCCUPANCY) :
    ∃ r, b s = some r := by
  have h0 := hi.count_nonneg
  cases hp : pc c with
  | enter i =>
    rw [hp] at ha
    cases ha
    have hc := hi.claim (dir c)
    have h0 := hc.count_nonneg
    rw [enterStreet_eq]
    dsimp only
    split_ifs with hin
    · have hlt := hin.2
      rw [hc.in_street_eq hin.1] at hlt
      obtain ⟨k, hk⟩ := recordEntry_eq_some (claimStreet (dir c) s).hist (dir c) (le_refl 0)
        (show 0 ≤ (claimStreet (dir c) s).count + 1 by omega) (by omega)
      exact ⟨_, Option.map_eq_some_iff.mpr ⟨k, hk, rfl⟩⟩
    · exact ⟨_, rfl⟩
  | admitted i t =>
    rw [hp] at ha
    cases ha
    have hlt := (hg i t hp).2
    have ht := hi.ticker c t (by rw [hp]; rfl)
    obtain ⟨k, hk⟩ := recordEntry_eq_some s.hist (dir c)
      (show 0 ≤ s.hist.entryTicker - t by omega) (show 0 ≤ s.count + 1 by omega) (by omega)
    exact ⟨_, Option.map_eq_some_iff.mpr ⟨k, hk, rfl⟩⟩
  | waitSem i t =>
    rw [hp] at ha
    exact absurd ha (by simp [car])
  | done =>
    rw [hp] at ha
    exact absurd ha (by simp [car])
  | _ =>
    rw [hp] at ha
    cases ha
    exact ⟨_, rfl⟩

omit [DecidableEq Car] in
theorem Inv.breaks (hi : Inv dir s pc) {i : ℕ} {t : ℤ} (hp : pc c = .admitted i t)
    (hg : ¬(dir c = s.direction ∧ s.count < MAX_OCCUPANCY)) :
    enterAfterWait (dir c) i t s = none ∨
      ∃ r, enterAfterWait (dir c) i t s = some r ∧ r.2.2 = .leave i ∧ dir c ≠ r.1.direction := by
  by_cases hfull : s.count < MAX_OCCUPANCY
  · right
    have h0 := hi.count_nonneg
    have ht := hi.ticker c t (by rw [hp]; rfl)
    obtain ⟨k, hk⟩ := recordEntry_eq_some s.hist (dir c)
      (show 0 ≤ s.hist.entryTicker - t by omega) (show 0 ≤ s.count + 1 by omega) (by omega)
    exact ⟨_, Option.map_eq_some_iff.mpr ⟨k, hk, rfl⟩, rfl, fun h => hg ⟨h, hfull⟩⟩
  · left
    cases hr : recordEntry s.hist (s.hist.entryTicker - t) (dir c) (s.count + 1) with
    | none => exact Option.map_eq_none_iff.mpr hr
    | some k =>
      have := (recordEntry_count hr).2
      omega

/-- **When the street is safe**: as long as every car that has waited finds it in its direction and
not full; the first that does not breaks it. -/
theorem street_safe_of_rechecked (dir : Car → Direction) (n : ℕ) :
    (∀ σ, ((sys (traffic dir n)).restrict (Rechecked dir)).Reach σ →
      (σ.data.count = number inStreet σ.pc ∧ σ.data.count ≤ MAX_OCCUPANCY) ∧
        (∀ b c, (σ.pc b).inStreet = true → (σ.pc c).inStreet = true → dir b = dir c) ∧
        ∀ c b, Rechecked dir σ (.run c) → car dir n c (σ.pc c) = .locked b →
          ∃ r, b σ.data = some r) ∧
      ∀ σ c i t, ((sys (traffic dir n)).restrict (Rechecked dir)).Reach σ →
        σ.pc c = .admitted i t → ¬Rechecked dir σ (.run c) →
        enterAfterWait (dir c) i t σ.data = none ∨
          ∃ r, enterAfterWait (dir c) i t σ.data = some r ∧ r.2.2 = .leave i ∧
            dir c ≠ r.1.direction := by
  constructor
  · intro σ hr
    have hi := reach_inv hr
    refine ⟨⟨hi.count_eq, hi.count_le⟩, fun b c hb hc => ?_, fun c b hg ha => hi.defined ha hg⟩
    rw [hi.dir_eq b hb, hi.dir_eq c hc]
  · intro σ c i t hr hp hg
    refine (reach_inv hr).breaks hp fun h => hg fun i' t' _ => h

omit [Fintype Car] [DecidableEq Car] in
/-- `Rechecked`, evaluated. -/
def rechecked (dir : Car → Direction) (σ : State Car Phase (Street size) Direction) (c : Car) : Bool :=
  match σ.pc c with
  | .admitted _ _ => decide (dir c = σ.data.direction ∧ σ.data.count < MAX_OCCUPANCY)
  | _ => true

omit [Fintype Car] [DecidableEq Car] in
theorem allows_of_rechecked {σ : State Car Phase (Street size) Direction}
    (h : rechecked dir σ c = true) : Allows (Rechecked dir) σ c := by
  refine ⟨trivial, fun i t hp => ?_, trivial⟩
  unfold rechecked at h
  have hp : σ.pc c = .admitted i t := hp
  rw [hp] at h
  exact of_decide_eq_true h

/-- The westbound car waits, and enters when the first eastbound car has left. Or the second eastbound
car is quicker. -/
theorem street_safe_of_rechecked_three :
    (∃ σ, ((sys (traffic threeCars 1)).restrict (Rechecked threeCars)).Reach σ ∧
      σ.pc 2 = .admitted 0 1 ∧ Rechecked threeCars σ (.run 2) ∧
      ∃ r, enterAfterWait .WEST 0 1 σ.data = some r) ∧
    (∃ σ, ((sys (traffic threeCars 1)).restrict (Rechecked threeCars)).Reach σ ∧
      σ.pc 1 = .waitSem 0 2 ∧ σ.pc 2 = .leave 0 ∧ σ.data.count = number inStreet σ.pc ∧
      ∀ c, (σ.pc c).inStreet = true → threeCars c = .WEST) ∧
    ∃ σ, ((sys (traffic threeCars 1)).restrict (Rechecked threeCars)).Reach σ ∧
      σ.pc 1 = .leave 0 ∧ σ.pc 2 = .admitted 0 1 ∧
      (enterAfterWait .WEST 0 1 σ.data = none ∨
        ∃ r, enterAfterWait .WEST 0 1 σ.data = some r ∧ r.2.2 = .leave 0 ∧
          .WEST ≠ r.1.direction) := by
  have hsafe := street_safe_of_rechecked threeCars 1
  have hallows : ∀ (σ : State _ _ (Street (WAITING_HISTOGRAM_SIZE (Fin 3) 1)) _) c,
      rechecked threeCars σ c = true → Allows (Rechecked threeCars) σ c :=
    fun _ _ => allows_of_rechecked
  refine ⟨?_, ?_, ?_⟩
  · obtain ⟨σ, hσ, hp⟩ := reach_of_playsIf (P := traffic threeCars 1)
      (p := fun σ => σ.pc 2 == .admitted 0 1 && rechecked threeCars σ 2)
      hallows [0, 1, 2, 0, 2, 2, 0] (by decide)
    rw [Bool.and_eq_true, beq_iff_eq] at hp
    have hok : Rechecked threeCars σ (.run 2) := (allows_of_rechecked hp.2).2.1
    refine ⟨σ, hσ, hp.1, hok, (hsafe.1 σ hσ).2.2 2 _ hok ?_⟩
    rw [hp.1]
    rfl
  · obtain ⟨σ, hσ, hp⟩ := reach_of_playsIf (P := traffic threeCars 1)
      (p := fun σ => σ.pc 1 == .waitSem 0 2 && σ.pc 2 == .leave 0)
      hallows [0, 1, 2, 0, 2, 2, 0, 2, 1] (by decide)
    rw [Bool.and_eq_true, beq_iff_eq, beq_iff_eq] at hp
    obtain ⟨⟨hcount, -⟩, hsame, -⟩ := hsafe.1 σ hσ
    exact ⟨σ, hσ, hp.1, hp.2, hcount, fun c hc => hsame c 2 hc (by rw [hp.2]; rfl)⟩
  · obtain ⟨σ, hσ, hp⟩ := reach_of_playsIf (P := traffic threeCars 1)
      (p := fun σ => (σ.pc 1 == .leave 0 && σ.pc 2 == .admitted 0 1) && !rechecked threeCars σ 2)
      hallows [0, 1, 2, 0, 2, 2, 0, 1] (by decide)
    rw [Bool.and_eq_true, Bool.and_eq_true, beq_iff_eq, beq_iff_eq, Bool.not_eq_true'] at hp
    refine ⟨σ, hσ, hp.1.1, hp.1.2, hsafe.2 σ 2 0 1 hσ hp.1.2 fun hok => ?_⟩
    have htrue : rechecked threeCars σ 2 = true := by
      rw [rechecked, hp.1.2]
      exact decide_eq_true (hok 0 1 hp.1.2)
    exact Bool.false_ne_true (hp.2.symm.trans htrue)

end IntroSystems.Traffic.Sem
