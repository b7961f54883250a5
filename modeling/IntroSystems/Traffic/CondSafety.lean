import IntroSystems.Lib.Tally
import IntroSystems.Traffic.CondModel

/-!
# Safety of the monitor

* `Inv`: the counters of `Street` against the phases of the cars, the direction of the street
  against the cars in it, and the totals of the histograms. `Inv.after`: each section keeps it.
* `car_defined`: no section indexes a histogram out of range.
* **`street_safe`**: all of this in every run. `entryTicker_le`: the ticker stays within the
  number of all crossings.
-/

set_option autoImplicit false

namespace IntroSystems.Traffic.Cond

open Monitor Tally

variable {Car : Type} [Fintype Car] {size : ℕ}

/-- The crossings a car has begun. -/
def Phase.entries (n : ℕ) : Phase → ℤ
  | .register => 0
  | .enter i => i
  | .woken i _ => i
  | .leave i => i + 1
  | .unregister => n
  | .done => n

/-- The local `i` of a car in its loop is below the number of iterations. -/
def Phase.inLoop (n : ℕ) : Phase → Prop
  | .enter i => i < n
  | .woken i _ => i < n
  | .leave i => i < n
  | _ => True

theorem iterate_inLoop (n i : ℕ) : (iterate n i).inLoop n := by
  unfold iterate
  split_ifs with h
  · exact h
  · trivial

theorem iterate_entries {n i : ℕ} (h : i ≤ n) : (iterate n i).entries n = i := by
  unfold iterate
  split_ifs with hi
  · rfl
  · change (n : ℤ) = i
    omega

/-- A car in the street. -/
def inStreet (_ : Car) (p : Phase) : Bool := p.inStreet

/-- A registered car of direction `g`. -/
def registeredIn (dir : Car → Direction) (g : Direction) (c : Car) (p : Phase) : Bool :=
  decide (dir c = g) && p.registered

omit [Fintype Car] in
theorem registeredIn_of_registered {dir : Car → Direction} {g : Direction} {c : Car} {p : Phase}
    (h : p.registered = true) : registeredIn dir g c p = decide (dir c = g) := by
  rw [registeredIn, h, Bool.and_true]

omit [Fintype Car] in
theorem registeredIn_of_not {dir : Car → Direction} {g : Direction} {c : Car} {p : Phase}
    (h : p.registered = false) : registeredIn dir g c p = false := by
  rw [registeredIn, h, Bool.and_false]

/-- The street and the phases of the cars agree. -/
structure Inv (dir : Car → Direction) (n : ℕ) (s : Street size) (pc : Car → Phase) : Prop where
  count_eq : s.count = number inStreet pc
  count_le : s.count ≤ MAX_OCCUPANCY
  dir_eq : ∀ c, (pc c).inStreet = true → dir c = s.direction
  num_eq : ∀ g, s.num_each_dir g = number (registeredIn dir g) pc
  balanced : s.hist.Balanced
  ticker : ∀ c i t, pc c = .woken i t → t ≤ s.hist.entryTicker
  entries : s.hist.entryTicker = total (fun _ p => p.entries n) pc
  inLoop : ∀ c, (pc c).inLoop n

variable {dir : Car → Direction} {n : ℕ} {s : Street size} {pc : Car → Phase} {c : Car}

theorem Inv.num_ne_zero (hi : Inv dir n s pc) (hc : (pc c).registered = true) :
    s.num_each_dir (dir c) ≠ 0 := by
  have hpos : 0 < number (registeredIn dir (dir c)) pc :=
    number_pos_iff.mpr ⟨c, by simp [registeredIn, hc]⟩
  rw [hi.num_eq]
  omega

theorem Inv.count_nonneg (hi : Inv dir n s pc) : 0 ≤ s.count := by
  rw [hi.count_eq]
  exact number_nonneg _ _

/-- **Nobody is in an empty street.** -/
theorem Inv.not_inStreet (hi : Inv dir n s pc) (h0 : s.count = 0) (c : Car) :
    (pc c).inStreet = false := by
  rw [hi.count_eq] at h0
  exact number_eq_zero_iff.mp h0 c

theorem Inv.claim (hi : Inv dir n s pc) (g : Direction) : Inv dir n (claimStreet g s) pc := by
  by_cases h0 : s.count = 0
  · refine ⟨?_, ?_, ?_, ?_, ?_, ?_, ?_, hi.inLoop⟩
    · rw [claimStreet_count, hi.count_eq]
    · rw [claimStreet_count]
      exact hi.count_le
    · intro c hc
      rw [hi.not_inStreet h0 c] at hc
      exact absurd hc (by decide)
    · rw [claimStreet_num]
      exact hi.num_eq
    · rw [claimStreet_hist]
      exact hi.balanced
    · rw [claimStreet_hist]
      exact hi.ticker
    · rw [claimStreet_hist]
      exact hi.entries
  · rw [claimStreet_of_ne g h0]
    exact hi

/-! ## One section -/

variable [DecidableEq Car]

theorem Inv.enters (hi : Inv dir n s pc) {p : Phase} {i : ℕ} (hp : pc c = p)
    (hout : p.inStreet = false) (hreg : p.registered = true) (hent : p.entries n = i)
    (hlt : i < n) (hdir : s.direction = dir c) (hc : s.count < MAX_OCCUPANCY) {w : ℤ}
    {h : Histograms size} (hr : recordEntry s.hist w (dir c) (s.count + 1) = some h) :
    Inv dir n { s with count := s.count + 1, hist := h } (Function.update pc c (.leave i)) := by
  have htick := recordEntry_entryTicker hr
  refine ⟨?_, ?_, ?_, ?_, hi.balanced.recordEntry hr, ?_, ?_, ?_⟩
  · have h1 : inStreet c p = false := hout
    have h2 : inStreet c (.leave i) = true := rfl
    simp [number_update, hp, h1, h2, hi.count_eq]
  · change s.count + 1 ≤ _
    omega
  · exact (Function.forall_update_iff pc fun b p => p.inStreet = true → dir b = s.direction).2
      ⟨fun _ => hdir.symm, fun b _ => hi.dir_eq b⟩
  · intro g
    rw [number_update_of_eq (by rw [hp, registeredIn_of_registered hreg,
      registeredIn_of_registered rfl])]
    exact hi.num_eq g
  · refine (Function.forall_update_iff pc fun _ p => ∀ j t, p = .woken j t → t ≤ h.entryTicker).2
      ⟨fun _ _ hb => absurd hb (by simp), fun b _ j t hb => ?_⟩
    have := hi.ticker b j t hb
    omega
  · change h.entryTicker = _
    rw [total_update, hp, hent, htick, hi.entries]
    simp only [Phase.entries]
    omega
  · exact (Function.forall_update_iff pc fun _ p => p.inLoop n).2 ⟨hlt, fun b _ => hi.inLoop b⟩

theorem Inv.waits (hi : Inv dir n s pc) {p : Phase} {i : ℕ} (hp : pc c = p)
    (hout : p.inStreet = false) (hreg : p.registered = true) (hent : p.entries n = i)
    (hlt : i < n) {t : ℤ} (ht : t ≤ s.hist.entryTicker) :
    Inv dir n s (Function.update pc c (.woken i t)) := by
  refine ⟨?_, hi.count_le, ?_, ?_, hi.balanced, ?_, ?_, ?_⟩
  · have h1 : inStreet c p = false := hout
    rw [number_update_of_eq (by rw [hp, h1]; rfl)]
    exact hi.count_eq
  · exact (Function.forall_update_iff pc fun b p => p.inStreet = true → dir b = s.direction).2
      ⟨fun hb => absurd hb (by simp [Phase.inStreet]), fun b _ => hi.dir_eq b⟩
  · intro g
    rw [number_update_of_eq (by rw [hp, registeredIn_of_registered hreg,
      registeredIn_of_registered rfl])]
    exact hi.num_eq g
  · refine (Function.forall_update_iff pc fun _ p => ∀ j t, p = .woken j t → t ≤ _).2
      ⟨fun j t' hb => ?_, fun b _ => hi.ticker b⟩
    obtain ⟨-, rfl⟩ := Phase.woken.inj hb
    exact ht
  · rw [total_update, hp, hent, hi.entries]
    simp only [Phase.entries]
    omega
  · exact (Function.forall_update_iff pc fun _ p => p.inLoop n).2 ⟨hlt, fun b _ => hi.inLoop b⟩

theorem Inv.moves (hi : Inv dir n s pc) {s' : Street size} {p : Phase} (hhist : s'.hist = s.hist)
    (hcount : s'.count = s.count - (if inStreet c (pc c) then 1 else 0))
    (hout : inStreet c p = false) (hdir : s'.count ≠ 0 → s'.direction = s.direction)
    (hnum : ∀ g, s'.num_each_dir g = s.num_each_dir g -
      (if registeredIn dir g c (pc c) then 1 else 0) + if registeredIn dir g c p then 1 else 0)
    (hent : p.entries n = (pc c).entries n) (hp : p.inLoop n) (hw : ∀ i t, p ≠ .woken i t) :
    Inv dir n s' (Function.update pc c p) := by
  have hcount' : s'.count = number inStreet (Function.update pc c p) := by
    rw [number_update, hcount, hi.count_eq, hout]
    simp
  refine ⟨hcount', ?_, ?_, ?_, ?_, ?_, ?_, ?_⟩
  · have := hi.count_le
    rw [hcount]
    split_ifs <;> omega
  · intro b hb
    have hpos : 0 < number inStreet (Function.update pc c p) := number_pos_iff.mpr ⟨b, hb⟩
    rw [hdir (by omega)]
    exact (Function.forall_update_iff pc fun b p => p.inStreet = true → dir b = s.direction).2
      ⟨fun hb => absurd (hout.symm.trans hb) (by decide), fun b _ => hi.dir_eq b⟩ b hb
  · intro g
    rw [number_update, hnum, hi.num_eq]
  · rw [hhist]
    exact hi.balanced
  · rw [hhist]
    exact (Function.forall_update_iff pc fun _ p => ∀ j t, p = .woken j t → t ≤ _).2
      ⟨fun j t hb => absurd hb (hw j t), fun b _ => hi.ticker b⟩
  · rw [total_update, hhist, hi.entries, hent]
    omega
  · exact (Function.forall_update_iff pc fun _ p => p.inLoop n).2 ⟨hp, fun b _ => hi.inLoop b⟩

/-- **Each section keeps the invariant.** -/
theorem Inv.after (hi : Inv dir n s pc) {r : Result size} (hr : Outcome dir n c s (pc c) r) :
    Inv dir n r.1 (Function.update pc c r.2.2.next) := by
  generalize hp : pc c = p at hr
  have hloop := hi.inLoop c
  rw [hp] at hloop
  cases hr with
  | register =>
    refine hi.moves rfl ?_ (iterate_inStreet n 0) (fun _ => rfl) ?_ ?_ (iterate_inLoop n 0)
      fun i t => iterate_ne_woken
    · simp [addToDir, hp, inStreet, Phase.inStreet]
    · intro g
      rw [hp, registeredIn_of_not rfl, Exit.next_leave,
        registeredIn_of_registered (iterate_registered n 0)]
      by_cases hg : dir c = g
      · subst hg
        simp [addToDir]
      · simp [addToDir, hg, Function.update_of_ne (Ne.symm hg)]
    · rw [hp]
      exact iterate_entries (Nat.zero_le n)
  | enterNow hd hc hrec =>
    have := (hi.claim (dir c)).enters (i := _) hp rfl rfl rfl hloop hd hc
      (by simpa only [claimStreet_hist, claimStreet_count] using hrec)
    simpa only [claimStreet_count, Exit.next_leave] using this
  | enterWait hw =>
    exact (hi.claim (dir c)).waits hp rfl rfl rfl hloop (by rw [claimStreet_hist])
  | wokenEnter hd hc hrec => exact hi.enters hp rfl rfl rfl hloop hd hc hrec
  | wokenWait hw => exact hi.waits hp rfl rfl rfl hloop (hi.ticker c _ _ hp)
  | @leave i =>
    refine hi.moves (afterLeave_hist s) ?_ (iterate_inStreet n _) ?_ ?_ ?_ (iterate_inLoop n _)
      fun i t => iterate_ne_woken
    · rw [hp]
      exact afterLeave_count s
    · intro h0
      rw [afterLeave_count] at h0
      exact afterLeave_direction fun ht => h0 ht.1
    · intro g
      rw [hp, registeredIn_of_registered rfl, Exit.next_leave,
        registeredIn_of_registered (iterate_registered n _), afterLeave_num]
      omega
    · rw [hp]
      exact iterate_entries hloop
  | unregister =>
    refine hi.moves rfl ?_ rfl (fun _ => rfl) ?_ ?_ trivial (fun i t => Phase.noConfusion)
    · simp [addToDir, hp, inStreet, Phase.inStreet]
    · intro g
      rw [hp, registeredIn_of_registered rfl, Exit.next_leave, registeredIn_of_not rfl]
      by_cases hg : dir c = g
      · subst hg
        simp [addToDir, sub_eq_add_neg]
      · simp [addToDir, hg, Function.update_of_ne (Ne.symm hg)]
    · rw [hp]
      rfl

omit [DecidableEq Car] in
theorem inv_init (dir : Car → Direction) (n : ℕ) :
    Inv dir n (initializeStreet size) fun _ => .register := by
  refine ⟨?_, ?_, ?_, ?_, Histograms.balanced_zero, ?_, ?_, fun _ => trivial⟩
  · exact (number_eq_zero_iff.mpr fun _ => rfl).symm
  · exact Int.natCast_nonneg _
  · exact fun c hc => absurd hc (by simp [Phase.inStreet])
  · intro g
    exact (number_eq_zero_iff.mpr fun c => by simp [registeredIn, Phase.registered]).symm
  · exact fun c i t hc => absurd hc (by simp)
  · simp [total, Phase.entries, initializeStreet, Histograms.zero]

/-! ## Every run -/

variable {σ : State Car Phase (Street (WAITING_HISTOGRAM_SIZE Car n)) Direction}

/-- **The invariant holds in every run.** -/
theorem reach_inv (hr : (sys (traffic dir n)).Reach σ) : Inv dir n σ.data σ.pc := by
  refine reach_induction (I := fun σ => Inv dir n σ.data σ.pc) (inv_init dir n) ?_ ?_ hr
  · exact fun σ c hi => hi
  · exact fun σ c r _ hi _ hb => hi.after (car_cases hb)

omit [Fintype Car] [DecidableEq Car] in
theorem waitLoop_defined {g : Direction} {i : ℕ} {t : ℤ} {s : Street size} (h0 : 0 ≤ s.count)
    (ht : t ≤ s.hist.entryTicker) : ∃ r, waitLoop g i t s = some r := by
  unfold waitLoop
  split_ifs with hw
  · exact ⟨_, rfl⟩
  · rw [not_or, not_not, ge_iff_le, not_le] at hw
    obtain ⟨h, hh⟩ := recordEntry_eq_some s.hist g (show 0 ≤ s.hist.entryTicker - t by omega)
      (show 0 ≤ s.count + 1 by omega) (by omega)
    exact ⟨_, Option.map_eq_some_iff.mpr ⟨h, hh, rfl⟩⟩

omit [DecidableEq Car] in
/-- **No section indexes a histogram out of range.** -/
theorem car_defined (hi : Inv dir n s pc) (hc : pc c ≠ .done) :
    ∃ r, car dir n c (pc c) s = some r := by
  cases hp : pc c with
  | register => exact ⟨_, rfl⟩
  | enter i =>
    exact waitLoop_defined (by rw [claimStreet_count]; exact hi.count_nonneg) (le_refl _)
  | woken i t => exact waitLoop_defined hi.count_nonneg (hi.ticker c i t hp)
  | leave i => exact ⟨_, rfl⟩
  | unregister => exact ⟨_, rfl⟩
  | done => exact absurd hp hc

theorem entryTicker_le (hr : (sys (traffic dir n)).Reach σ) :
    σ.data.hist.entryTicker ≤ WAITING_HISTOGRAM_SIZE Car n := by
  have hi := reach_inv hr
  have hle : ∀ c, (σ.pc c).entries n ≤ n := by
    intro c
    have := hi.inLoop c
    cases hp : σ.pc c <;> simp_all [Phase.entries, Phase.inLoop] <;> omega
  calc σ.data.hist.entryTicker = total (fun _ p => p.entries n) σ.pc := hi.entries
    _ ≤ Fintype.card Car * n := total_le hle
    _ = WAITING_HISTOGRAM_SIZE Car n := by
      unfold WAITING_HISTOGRAM_SIZE
      rw [Nat.cast_mul, mul_comm]

/-- **The monitor is safe.** -/
theorem street_safe (hr : (sys (traffic dir n)).Reach σ) :
    (σ.data.count = number inStreet σ.pc ∧ σ.data.count ≤ MAX_OCCUPANCY) ∧
      (∀ c, (σ.pc c).inStreet = true → dir c = σ.data.direction) ∧
      (∀ g, σ.data.num_each_dir g = number (registeredIn dir g) σ.pc) ∧
      (∀ c, σ.pc c ≠ .done → ∃ r, car dir n c (σ.pc c) σ.data = some r) ∧
      σ.data.hist.entryTicker = σ.data.hist.occupancyTotal ∧
      σ.data.hist.entryTicker = σ.data.hist.waitingTotal := by
  have hi := reach_inv hr
  exact ⟨⟨hi.count_eq, hi.count_le⟩, hi.dir_eq, hi.num_eq, fun c hc => car_defined hi hc,
    hi.balanced.occupancy, hi.balanced.waiting⟩

/-- Two cars in the street, the third one waiting. -/
theorem street_safe_three : ∃ σ, (sys (traffic threeCars 1)).Reach σ ∧
    (decide (σ.data.count = 2) && decide (σ.queue .WEST = [2])) = true ∧
    ((σ.data.count = number inStreet σ.pc ∧ σ.data.count ≤ MAX_OCCUPANCY) ∧
      (∀ c, (σ.pc c).inStreet = true → threeCars c = σ.data.direction) ∧
      (∀ g, σ.data.num_each_dir g = number (registeredIn threeCars g) σ.pc) ∧
      (∀ c, σ.pc c ≠ .done → ∃ r, car threeCars 1 c (σ.pc c) σ.data = some r) ∧
      σ.data.hist.entryTicker = σ.data.hist.occupancyTotal ∧
      σ.data.hist.entryTicker = σ.data.hist.waitingTotal) := by
  obtain ⟨σ, hσ, hp⟩ := reach_of_turns (P := traffic threeCars 1)
    (p := fun σ => decide (σ.data.count = 2) && decide (σ.queue .WEST = [2]))
    [0, 1, 2, 0, 1, 2] (by decide)
  exact ⟨σ, hσ, hp, street_safe hσ⟩

end IntroSystems.Traffic.Cond
