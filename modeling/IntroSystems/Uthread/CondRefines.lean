import IntroSystems.Uthread.Cond
import IntroSystems.Uthread.Shared

/-!
# Condition variables make a monitor

What threads do over the mutex and the condition variables of `uthread_mutex_cond.c` is a run of the
monitor, in which a section is one step and wakes those it has signalled when it is done.

* `Shows`: the state of the monitor that a state of the code stands for. The section that the holder
  of the mutex has begun is already done there, with the signals it has still to send.
* `Inv`: besides, a waiter of a free mutex has been woken. **`Inv.exec`**: a step of the code is a
  step of the monitor, or none.
* **`simulates`**: so every run is a run of the monitor, and nothing is undefined but sections.
  `Inv.stuck`: when no thread can go on, none can in the monitor.
* `Inv.finish`, `exists_run`: and every run of the monitor is one of the code.
* **`cond_iff`**: the states of the runs are the same, where they get stuck, and where a section is
  undefined.
-/

set_option autoImplicit false

namespace IntroSystems.Uthread.Cond

open Monitor

variable {T L D C : Type}

/-- The queues of the conditions. -/
def conds (ls : Place C → List T) : C → List T := fun c => ls (.cond c)

/-- The threads of the code are where those of the monitor are. -/
structure Shows (P : Program T L D C) (s : State T L D C) (ls : Place C → List T)
    (a : Monitor.State T L D C) : Prop where
  holder : ∀ t, s.holder = some t ↔ (s.pc t).critical = true
  waiting : Waiting s ls
  locking : ∀ t, (s.pc t).locking = true → P.finished (s.pc t).point = false
  data : a.data = s.data
  point : ∀ t, a.pc t = (s.pc t).point
  ahead : ∀ t, a.holder = some t ↔ (s.pc t).ahead = true

variable [DecidableEq T] [DecidableEq C]

/-- The queues are those that the section leaves behind, and if the mutex is free and has waiters,
one has been woken and has not tried yet. -/
structure Inv (P : Program T L D C) (s : State T L D C) (ls : Place C → List T)
    (a : Monitor.State T L D C) : Prop extends Shows P s ls a where
  woken : s.holder = none → ls .mutex ≠ [] → ∃ t, (s.pc t).awake = true
  free : s.holder = none → a.queue = conds ls
  left : ∀ t, (s.pc t).critical = true → a.queue = (s.pc t).left t (conds ls)

variable {P : Program T L D C} {s s' : State T L D C} {a : Monitor.State T L D C} {t u : T}
  {pc : Pc C L} {p : Place C} {l : L} {ls : Place C → List T} {ts : List T}

omit [DecidableEq T] in
theorem conds_update_mutex : conds (Function.update ls .mutex ts) = conds ls := by
  funext c
  exact Function.update_of_ne (by simp) _ _

omit [DecidableEq T] in
theorem conds_update_cond (c : C) :
    conds (Function.update ls (.cond c) ts) = Function.update (conds ls) c ts := by
  funext c'
  simp [conds, Function.update_apply]

omit [DecidableEq C] in
theorem same_goto {X : Type} {f : Pc C L → X} (h : f pc = f (s.pc t)) (u : T) :
    f ((s.goto t pc).pc u) = f (s.pc u) := by
  by_cases hut : u = t
  · rw [hut, goto_pc_self, h]
  · rw [goto_pc_of_ne hut]

/-! ## Who has the mutex -/

omit [DecidableEq T] [DecidableEq C] in
theorem Shows.alone (h : Shows P s ls a) (ht : (s.pc t).critical = true)
    (hu : (s.pc u).critical = true) : u = t :=
  Option.some.inj (((h.holder u).mpr hu).symm.trans ((h.holder t).mpr ht))

omit [DecidableEq T] [DecidableEq C] in
theorem Shows.notCritical (h : Shows P s ls a) (hf : s.holder = none) (t : T) :
    (s.pc t).critical = false := by
  by_contra hc
  have := (h.holder t).mpr (by simpa using hc)
  simp [hf] at this

omit [DecidableEq C] [DecidableEq T] in
theorem ahead_critical (h : pc.ahead = true) : pc.critical = true := by
  cases pc <;> first | rfl | cases h

omit [DecidableEq C] [DecidableEq T] in
theorem Shows.idle (h : Shows P s ls a) (hf : s.holder = none) : a.holder = none := by
  by_contra hne
  obtain ⟨t, ht⟩ := Option.ne_none_iff_exists'.mp hne
  have hc := ahead_critical ((h.ahead t).mp ht)
  rw [h.notCritical hf t] at hc
  cases hc

/-! ## Steps that the monitor does not see -/

omit [DecidableEq C] in
theorem Shows.goto (h : Shows P s ls a) (hc : pc.critical = (s.pc t).critical)
    (has : pc.asleep = (s.pc t).asleep) (hpt : pc.point = (s.pc t).point)
    (hah : pc.ahead = (s.pc t).ahead)
    (hlk : pc.locking = true → P.finished pc.point = false) : Shows P (s.goto t pc) ls a where
  holder u := by
    rw [same_goto hc]
    exact h.holder u
  waiting := h.waiting.goto has
  locking u hu := by
    by_cases hut : u = t
    · subst hut
      rw [goto_pc_self] at hu ⊢
      exact hlk hu
    · rw [goto_pc_of_ne hut] at hu ⊢
      exact h.locking u hu
  data := h.data
  point u := by
    rw [same_goto hpt]
    exact h.point u
  ahead u := by
    rw [same_goto hah]
    exact h.ahead u

theorem Shows.dequeue (h : Shows P s ls a) (hn : ∀ u ∈ ls p, (s.pc u).critical = false) :
    ∃ s', dequeue s p = some s' ∧ Shows P s' (Function.update ls p (ls p).tail) a ∧
      s'.holder = s.holder ∧ (∀ u, u ∉ ls p → s'.pc u = s.pc u) ∧
      (∀ u, (s.pc u).resting = true → (s'.pc u).resting = true) ∧
      (p = .mutex → ls p ≠ [] → ∃ u, (s'.pc u).awake = true) := by
  cases hp : ls p with
  | nil =>
    refine ⟨s, h.waiting.dequeue_nil hp, ?_, rfl, fun _ _ => rfl, fun _ => id,
      fun _ hne => absurd rfl hne⟩
    rw [List.tail_nil, ← hp, Function.update_eq_self]
    exact h
  | cons w ts =>
    have hw : (s.pc w).critical = false := hn w (by simp [hp])
    obtain ⟨s', pc, hs, hdata, hholder, hpc, hwait, hcr, hpt, haw, hlk, hrest⟩ :=
      h.waiting.dequeue hp hw
    have hsame : ∀ {X : Type} {f : Pc C L → X}, f pc = f (s.pc w) → ∀ u, f (s'.pc u) = f (s.pc u) :=
      fun hf u => by
        rw [hpc]
        exact same_goto (s := s) hf u
    have hah : pc.ahead = (s.pc w).ahead := by
      have h₁ : pc.ahead = false := by
        by_contra ha
        rw [ahead_critical (by simpa using ha)] at hcr
        cases hcr
      have h₂ : (s.pc w).ahead = false := by
        by_contra ha
        rw [ahead_critical (by simpa using ha)] at hw
        cases hw
      rw [h₁, h₂]
    refine ⟨s', hs, ⟨fun u => ?_, hwait, fun u hu => ?_, ?_, fun u => ?_, fun u => ?_⟩, hholder,
      fun u hu => ?_, fun u hu => ?_, fun hm _ => ⟨w, ?_⟩⟩
    · rw [hholder, hsame (hcr.trans hw.symm)]
      exact h.holder u
    · rw [hsame hpt]
      refine h.locking u ?_
      by_cases huw : u = w
      · subst huw
        rw [hpc, Function.update_self] at hu
        exact hlk hu
      · rwa [hpc, Function.update_of_ne huw] at hu
    · rw [hdata]
      exact h.data
    · rw [hsame hpt]
      exact h.point u
    · rw [hsame hah]
      exact h.ahead u
    · rw [hpc, Function.update_of_ne fun e => hu (by simp [e])]
    · by_cases huw : u = w
      · subst huw
        rw [hpc, Function.update_self]
        exact hrest hu
      · rwa [hpc, Function.update_of_ne huw]
    · rw [hpc, Function.update_self, haw]
      exact decide_eq_true hm

theorem Inv.block (h : Inv P s ls a) {b : Bool} (hpc : s.pc t = .toBlock p l b) :
    Inv P (s.goto t (if b then p.resume l else .blocked p l)) ls a := by
  generalize hpc' : (if b then p.resume l else .blocked p l : Pc C L) = pc'
  have hc : pc'.critical = (s.pc t).critical := by
    rw [hpc, ← hpc']
    cases b <;> cases p <;> rfl
  have haw : pc'.awake = (s.pc t).awake := by
    rw [hpc, ← hpc']
    cases b <;> cases p <;> rfl
  have hpt : pc'.point = (s.pc t).point := by
    rw [hpc, ← hpc']
    cases b <;> cases p <;> rfl
  have hlk : pc'.locking = true → (s.pc t).locking = true := by
    rw [hpc, ← hpc']
    cases b <;> cases p <;> simp [Pc.locking, Place.resume]
  refine ⟨h.toShows.goto hc ?_ hpt ?_ fun hl => ?_, fun hf hne => ?_, h.free, fun u hu => ?_⟩
  · rw [hpc, ← hpc']
    cases b <;> cases p <;> rfl
  · rw [hpc, ← hpc']
    cases b <;> cases p <;> rfl
  · rw [hpt]
    exact h.locking t (hlk hl)
  · obtain ⟨u, hu⟩ := h.woken hf hne
    exact ⟨u, by rw [same_goto haw, hu]⟩
  · rw [same_goto hc] at hu
    have hut : u ≠ t := by
      rintro rfl
      simp [hpc, Pc.critical] at hu
    rw [goto_pc_of_ne hut]
    exact h.left u hu

theorem Inv.enqueue_mutex (h : Inv P s ls a) (hpc : s.pc t = .outside l ∨ s.pc t = .woken l)
    (hfin : P.finished l = false) (hf : s.holder ≠ none) :
    Inv P (enqueue s .mutex t (.toBlock .mutex l false))
      (Function.update ls .mutex (ls .mutex ++ [t])) a := by
  have hsame : ∀ {X : Type} (f : Pc C L → X), f (.toBlock .mutex l false) = f (.outside l) →
      f (.toBlock .mutex l false) = f (.woken l) → ∀ u,
      f ((enqueue s .mutex t (.toBlock .mutex l false)).pc u) = f (s.pc u) := by
    intro X f h₁ h₂ u
    refine same_goto (s := s) ?_ u
    rcases hpc with hpc | hpc <;> rw [hpc] <;> assumption
  have has : (s.pc t).asleep = none := by rcases hpc with hpc | hpc <;> rw [hpc] <;> rfl
  refine ⟨⟨fun u => ?_, h.waiting.enqueue has rfl, fun u hu => ?_, h.data, fun u => ?_, fun u => ?_⟩,
    fun hf' => absurd hf' hf, fun hf' => absurd hf' hf, fun u hu => ?_⟩
  · rw [hsame Pc.critical rfl rfl]
    exact h.holder u
  · rw [hsame Pc.point rfl rfl]
    by_cases hut : u = t
    · subst hut
      rcases hpc with hpc | hpc <;> rw [hpc] <;> exact hfin
    · refine h.locking u ?_
      have hgo : (s.goto t (.toBlock .mutex l false)).pc u = s.pc u := goto_pc_of_ne hut
      rwa [← hgo]
  · rw [hsame Pc.point rfl rfl]
    exact h.point u
  · rw [hsame Pc.ahead rfl rfl]
    exact h.ahead u
  · rw [hsame Pc.critical rfl rfl] at hu
    have hut : u ≠ t := by
      rintro rfl
      rcases hpc with hpc | hpc <;> simp [hpc, Pc.critical] at hu
    rw [conds_update_mutex]
    change _ = (Function.update s.pc t _ u).left u (conds ls)
    rw [Function.update_of_ne hut]
    exact h.left u hu

theorem Inv.signal (h : Inv P s ls a) {c : C} {cs : List C} {e : Exit C L}
    (hpc : s.pc t = .calls (c :: cs) e) :
    ∃ s' ls', exec P s t = some s' ∧ Inv P s' ls' a ∧ s'.pc t = .calls cs e ∧
      ∀ u, u ≠ t → (s.pc u).resting = true → (s'.pc u).resting = true := by
  have hcr : (s.pc t).critical = true := by rw [hpc]; rfl
  have hholder : s.holder = some t := (h.holder t).mpr hcr
  have hs₁ : Shows P (s.goto t (.calls cs e)) ls a := by
    refine h.toShows.goto ?_ ?_ ?_ ?_ (fun hl => ?_)
    · rw [hcr]
      rfl
    · rw [hpc]
      rfl
    · rw [hpc]
      rfl
    · rw [hpc]
      rfl
    · cases hl
  have hn : ∀ u ∈ ls (.cond c), ((s.goto t (.calls cs e)).pc u).critical = false := by
    intro u hu
    by_contra hc
    obtain rfl := hs₁.alone (t := t) (by simp [Pc.critical]) (by simpa using hc)
    have has := (h.waiting.asleep u _).mp hu
    rw [hpc] at has
    cases has
  obtain ⟨s', hs, hs₂, hholder', hkeep, hrest, -⟩ := hs₁.dequeue hn
  have hpc' : s'.pc t = .calls cs e := by
    rw [hkeep t (h.waiting.notMem (by rw [hpc]; rfl) _)]
    exact goto_pc_self
  refine ⟨s', _, ?_, ⟨hs₂, fun hf => ?_, fun hf => ?_, fun u hu => ?_⟩, hpc', fun u hut hu => ?_⟩
  · unfold exec uthreadCondSignal
    rw [hpc]
    dsimp only
    rw [if_pos (by exact hholder)]
    exact hs
  · rw [hholder'] at hf
    cases hholder.symm.trans hf
  · rw [hholder'] at hf
    cases hholder.symm.trans hf
  · obtain rfl := hs₂.alone (t := t) (by rw [hpc']; rfl) hu
    rw [h.left u hcr, hpc, hpc', conds_update_cond]
    rfl
  · refine hrest u ?_
    rwa [goto_pc_of_ne hut]

theorem Inv.unlock (h : Inv P s ls a) (pc : Pc C L) (hcr : (s.pc t).critical = true)
    (hah : (s.pc t).ahead = false) (hc : pc.critical = false) (has : pc.asleep = (s.pc t).asleep)
    (hpt : pc.point = (s.pc t).point) (hah' : pc.ahead = false) (hlk : pc.locking = false)
    (hm : (s.pc t).asleep ≠ some .mutex)
    (hleft : (s.pc t).left t (conds ls) = conds ls) :
    ∃ s' ls', uthreadMutexUnlock (s.goto t pc) t = some s' ∧ Inv P s' ls' a ∧ s'.pc t = pc ∧
      ∀ u, u ≠ t → (s.pc u).resting = true → (s'.pc u).resting = true := by
  have hholder : s.holder = some t := (h.holder t).mpr hcr
  let s₁ : State T L D C := { s.goto t pc with holder := none }
  have hnone : ∀ u, (s₁.pc u).critical = false := by
    intro u
    by_cases hut : u = t
    · rw [hut]
      change ((s.goto t pc).pc t).critical = false
      rw [goto_pc_self, hc]
    · change ((s.goto t pc).pc u).critical = false
      rw [goto_pc_of_ne hut]
      by_contra hu
      exact hut (h.alone hcr (by simpa using hu))
  have hs₁ : Shows P s₁ ls a := by
    refine ⟨fun u => ?_, (h.waiting.goto has).congr rfl rfl rfl, fun u hu => ?_, h.data,
      fun u => ?_, fun u => ?_⟩
    · rw [hnone u]
      exact iff_of_false (by simp [s₁]) Bool.false_ne_true
    · by_cases hut : u = t
      · subst hut
        change ((s.goto u pc).pc u).locking = true at hu
        rw [goto_pc_self, hlk] at hu
        cases hu
      · change P.finished ((s.goto t pc).pc u).point = false
        change ((s.goto t pc).pc u).locking = true at hu
        rw [goto_pc_of_ne hut] at hu ⊢
        exact h.locking u hu
    · change a.pc u = ((s.goto t pc).pc u).point
      rw [same_goto hpt]
      exact h.point u
    · change a.holder = some u ↔ ((s.goto t pc).pc u).ahead = true
      rw [same_goto (hah'.trans hah.symm)]
      exact h.ahead u
  obtain ⟨s', hs, hs₂, hholder', hkeep, hrest, hwoken⟩ := hs₁.dequeue (p := .mutex) fun u _ => hnone u
  refine ⟨s', _, ?_, ⟨hs₂, fun _ hne => ?_, fun _ => ?_, fun u hu => ?_⟩, ?_, fun u hut hu => ?_⟩
  · unfold uthreadMutexUnlock
    rw [if_pos (by exact hholder)]
    exact hs
  · refine hwoken rfl fun hnil => hne ?_
    rw [Function.update_self, hnil, List.tail_nil]
  · rw [conds_update_mutex, h.left t hcr, hleft]
  · have := (hs₂.holder u).mpr hu
    rw [hholder'] at this
    cases this
  · rw [hkeep t fun hmem => hm ((h.waiting.asleep t _).mp hmem)]
    exact goto_pc_self
  · refine hrest u ?_
    change ((s.goto t pc).pc u).resting = true
    rwa [goto_pc_of_ne hut]

theorem Inv.enqueue_cond (h : Inv P s ls a) {c : C} (hpc : s.pc t = .calls [] (.wait c l)) :
    Inv P (enqueue s (.cond c) t (.waitUnlock c l))
      (Function.update ls (.cond c) (ls (.cond c) ++ [t])) a := by
  have hcr : (s.pc t).critical = true := by rw [hpc]; rfl
  have hholder : s.holder = some t := (h.holder t).mpr hcr
  have hsame : ∀ {X : Type} (f : Pc C L → X), f (.waitUnlock c l) = f (.calls [] (.wait c l)) →
      ∀ u, f ((enqueue s (.cond c) t (.waitUnlock c l)).pc u) = f (s.pc u) := by
    intro X f hf u
    exact same_goto (s := s) (hf.trans (congrArg f hpc).symm) u
  refine ⟨⟨fun u => ?_, h.waiting.enqueue ?_ rfl, fun u hu => ?_, h.data, fun u => ?_, fun u => ?_⟩,
    fun hf => ?_, fun hf => ?_, fun u hu => ?_⟩
  · rw [hsame Pc.critical rfl]
    exact h.holder u
  · rw [hpc]
    rfl
  · rw [hsame Pc.locking rfl] at hu
    rw [hsame Pc.point rfl]
    exact h.locking u hu
  · rw [hsame Pc.point rfl]
    exact h.point u
  · rw [hsame Pc.ahead rfl]
    exact h.ahead u
  · cases hholder.symm.trans hf
  · cases hholder.symm.trans hf
  · rw [hsame Pc.critical rfl] at hu
    obtain rfl := h.alone hcr hu
    rw [h.left u hcr, hpc, conds_update_cond]
    change _ = (Function.update s.pc u (.waitUnlock c l) u).left u _
    rw [Function.update_self]
    rfl

/-! ## Steps of the monitor -/

theorem Inv.lock (h : Inv P s ls a) (hpc : s.pc t = .outside l ∨ s.pc t = .woken l)
    (hfin : P.finished l = false) (hf : s.holder = none) :
    Monitor.Step P a (.lock t) { a with holder := some t } ∧
      Inv P ({ s with holder := some t }.goto t (.inside l)) ls { a with holder := some t } := by
  have hpt : (s.pc t).point = l := by rcases hpc with hpc | hpc <;> rw [hpc] <;> rfl
  have has : (s.pc t).asleep = none := by rcases hpc with hpc | hpc <;> rw [hpc] <;> rfl
  have hcr : ∀ u, ((s.goto t (.inside l)).pc u).critical = true ↔ u = t := by
    intro u
    by_cases hut : u = t
    · subst hut
      simp [Pc.critical]
    · rw [goto_pc_of_ne hut, h.notCritical hf]
      simp [hut]
  have hah : ∀ u, ((s.goto t (.inside l)).pc u).ahead = true ↔ u = t := by
    intro u
    refine ⟨fun hu => (hcr u).mp (ahead_critical hu), ?_⟩
    rintro rfl
    simp [Pc.ahead]
  have hw : Waiting (s.goto t (.inside l)) ls := h.waiting.goto (by rw [has]; rfl)
  refine ⟨.lock (h.idle hf) ?_ ?_, ⟨fun u => ?_, hw.congr rfl rfl rfl, fun u hu => ?_, h.data,
    fun u => ?_, fun u => ?_⟩, fun hf' => ?_, fun hf' => ?_, fun u hu => ?_⟩
  · rintro ⟨c, hc⟩
    rw [h.free hf] at hc
    exact h.waiting.notMem has _ hc
  · rw [h.point, hpt]
    exact hfin
  · change some t = some u ↔ ((s.goto t (.inside l)).pc u).critical = true
    rw [hcr u, Option.some.injEq, eq_comm]
  · change P.finished ((s.goto t (.inside l)).pc u).point = false
    change ((s.goto t (.inside l)).pc u).locking = true at hu
    by_cases hut : u = t
    · subst hut
      simpa [Pc.point] using hfin
    · rw [goto_pc_of_ne hut] at hu ⊢
      exact h.locking u hu
  · change a.pc u = ((s.goto t (.inside l)).pc u).point
    rw [same_goto (f := Pc.point) (by rw [hpt]; rfl)]
    exact h.point u
  · change some t = some u ↔ ((s.goto t (.inside l)).pc u).ahead = true
    rw [hah u, Option.some.injEq, eq_comm]
  · cases hf'
  · cases hf'
  · obtain rfl := (hcr u).mp hu
    change a.queue = ((s.goto u (.inside l)).pc u).left u _
    rw [goto_pc_self, h.free hf]
    rfl

theorem Inv.body (h : Inv P s ls a) (hpc : s.pc t = .inside l) {d : D} {cs : List C} {e : Exit C L}
    (hb : P.body t l s.data = some (d, cs, e)) :
    Monitor.Step P a (.run t) (a.after t (d, cs, e)) ∧
      Inv P ({ s with data := d }.goto t (.calls cs e)) ls (a.after t (d, cs, e)) := by
  have hcr : (s.pc t).critical = true := by rw [hpc]; rfl
  have hholder : s.holder = some t := (h.holder t).mpr hcr
  have hcrit : ∀ u, ((s.goto t (.calls cs e)).pc u).critical = (s.pc u).critical :=
    same_goto (by rw [hcr]; rfl)
  have hpt : (s.pc t).point = l := by rw [hpc]; rfl
  have hw : Waiting (s.goto t (.calls cs e)) ls := h.waiting.goto (by rw [hpc]; rfl)
  refine ⟨.run ((h.ahead t).mpr (by rw [hpc]; rfl)) ?_, ⟨fun u => ?_, hw.congr rfl rfl rfl,
    fun u hu => ?_, rfl, fun u => ?_, fun u => ?_⟩, fun hf => ?_, fun hf => ?_, fun u hu => ?_⟩
  · rw [h.point, hpt, h.data]
    exact hb
  · change s.holder = some u ↔ ((s.goto t (.calls cs e)).pc u).critical = true
    rw [hcrit]
    exact h.holder u
  · change P.finished ((s.goto t (.calls cs e)).pc u).point = false
    change ((s.goto t (.calls cs e)).pc u).locking = true at hu
    by_cases hut : u = t
    · subst hut
      rw [goto_pc_self] at hu
      cases hu
    · rw [goto_pc_of_ne hut] at hu ⊢
      exact h.locking u hu
  · change _ = ((s.goto t (.calls cs e)).pc u).point
    by_cases hut : u = t
    · subst hut
      rw [goto_pc_self, State.after_pc_self]
      rfl
    · rw [goto_pc_of_ne hut, State.after_pc_of_ne _ _ hut]
      exact h.point u
  · change none = some u ↔ ((s.goto t (.calls cs e)).pc u).ahead = true
    refine iff_of_false (by simp) fun hu => ?_
    have hc := ahead_critical hu
    rw [hcrit] at hc
    obtain rfl := h.alone hcr hc
    rw [goto_pc_self] at hu
    cases hu
  · cases hholder.symm.trans hf
  · cases hholder.symm.trans hf
  · change ((s.goto t (.calls cs e)).pc u).critical = true at hu
    rw [hcrit] at hu
    obtain rfl := h.alone hcr hu
    change queueAfter a.queue u cs e = ((s.goto u (.calls cs e)).pc u).left u _
    rw [goto_pc_self, h.left u hcr, hpc]
    rfl

/-! ## Runs -/

/-- The section that comes next is undefined. -/
def Undefined (P : Program T L D C) (a : Monitor.State T L D C) : Prop :=
  ∃ t, a.holder = some t ∧ P.body t (a.pc t) a.data = none

theorem Inv.lockSection (h : Inv P s ls a) (hpc : s.pc t = .outside l ∨ s.pc t = .woken l)
    (hfin : P.finished l = false) :
    ∃ ls' a', (Monitor.sys P).Moves a a' ∧ Inv P (lockSection s t l) ls' a' := by
  unfold Cond.lockSection
  by_cases hf : s.holder = none
  · rw [if_neg (not_not.mpr hf)]
    obtain ⟨hstep, h'⟩ := h.lock hpc hfin hf
    exact ⟨_, _, .single _ hstep, h'⟩
  · rw [if_pos hf]
    exact ⟨_, a, .refl a, h.enqueue_mutex hpc hfin hf⟩

/-- **A step of the code is a step of the monitor, or none.** -/
theorem Inv.exec (h : Inv P s ls a) (hr : Ready P s t) :
    (∃ s' ls' a', exec P s t = some s' ∧ (Monitor.sys P).Moves a a' ∧ Inv P s' ls' a') ∨
      exec P s t = none ∧ Undefined P a := by
  unfold Ready at hr
  cases hpc : s.pc t with
  | outside l =>
    rw [hpc] at hr
    obtain ⟨ls', a', hmoves, h'⟩ := h.lockSection (.inl hpc) hr
    exact .inl ⟨_, ls', a', by rw [Cond.exec, hpc], hmoves, h'⟩
  | woken l =>
    have hfin := h.locking t (by rw [hpc]; rfl)
    rw [hpc] at hfin
    obtain ⟨ls', a', hmoves, h'⟩ := h.lockSection (.inr hpc) hfin
    exact .inl ⟨_, ls', a', by rw [Cond.exec, hpc], hmoves, h'⟩
  | toBlock p l b => exact .inl ⟨_, ls, a, by rw [Cond.exec, hpc], .refl a, h.block hpc⟩
  | blocked p l =>
    rw [hpc] at hr
    exact hr.elim
  | inside l =>
    cases hb : P.body t l s.data with
    | some r =>
      obtain ⟨hstep, h'⟩ := h.body hpc hb
      exact .inl ⟨_, ls, _, by rw [Cond.exec, hpc]; dsimp only; rw [hb]; rfl, .single _ hstep, h'⟩
    | none =>
      refine .inr ⟨by rw [Cond.exec, hpc]; dsimp only; rw [hb]; rfl, t, ?_, ?_⟩
      · rw [h.ahead, hpc]
        rfl
      · rw [h.point, hpc, h.data]
        exact hb
  | calls cs e =>
    cases cs with
    | cons c cs =>
      obtain ⟨s', ls', hs, h', -⟩ := h.signal hpc
      exact .inl ⟨s', ls', a, hs, .refl a, h'⟩
    | nil =>
      cases e with
      | leave l =>
        obtain ⟨s', ls', hs, h', -⟩ := h.unlock (.outside l) (by rw [hpc]; rfl)
          (by rw [hpc]; rfl) rfl (by rw [hpc]; rfl) (by rw [hpc]; rfl) rfl rfl
          (by rw [hpc]; simp [Pc.asleep]) (by rw [hpc]; rfl)
        exact .inl ⟨s', ls', a, by rw [Cond.exec, hpc]; exact hs, .refl a, h'⟩
      | wait c l =>
        have hholder : s.holder = some t := (h.holder t).mpr (by rw [hpc]; rfl)
        exact .inl ⟨_, _, a, by rw [Cond.exec, hpc]; exact if_pos hholder, .refl a,
          h.enqueue_cond hpc⟩
  | waitUnlock c l =>
    obtain ⟨s', ls', hs, h', -⟩ := h.unlock (.toBlock (.cond c) l false) (by rw [hpc]; rfl)
      (by rw [hpc]; rfl) rfl (by rw [hpc]; rfl) (by rw [hpc]; rfl) rfl rfl
      (by rw [hpc]; simp [Pc.asleep]) (by rw [hpc]; rfl)
    exact .inl ⟨s', ls', a, by rw [Cond.exec, hpc]; exact hs, .refl a, h'⟩

omit [DecidableEq T] in
theorem inv_start (P : Program T L D C) :
    Inv P (start P) (fun _ => []) ⟨P.data, fun _ => P.start, fun _ => [], none⟩ where
  holder t := iff_of_false (by simp [start]) Bool.false_ne_true
  waiting := ⟨queues_initqueue, fun t p => iff_of_false List.not_mem_nil (by simp [start, Pc.asleep])⟩
  locking t ht := by cases ht
  data := rfl
  point t := rfl
  ahead t := iff_of_false (by simp) Bool.false_ne_true
  woken _ hne := absurd rfl hne
  free _ := rfl
  left t ht := by cases ht

/-- **The code refines the monitor.** -/
theorem simulates (P : Program T L D C) : Sys.Simulates (sys P) (Monitor.sys P) fun o a =>
    (∃ s ls, o = some s ∧ Inv P s ls a) ∨ o = none ∧ Undefined P a where
  init := by
    rintro o ⟨s, rfl, rfl⟩
    exact ⟨_, rfl, .inl ⟨_, _, rfl, inv_start P⟩⟩
  step := by
    rintro o t o' a (⟨s, ls, rfl, h⟩ | ⟨rfl, -⟩) ⟨s₀, hs₀, hr, rfl⟩
    · cases hs₀
      rcases h.exec hr with ⟨s', ls', a', hs, hmoves, h'⟩ | ⟨hs, hun⟩
      · exact ⟨a', hmoves, .inl ⟨s', ls', hs, h'⟩⟩
      · exact ⟨a, .refl a, .inr ⟨hs, hun⟩⟩
    · cases hs₀

omit [DecidableEq T] in
/-- When no thread can go on, the mutex is free, and none waits for it. -/
theorem Inv.no_holder_of_stuck (h : Inv P s ls a) (hstuck : ∀ t, ¬Ready P s t) :
    s.holder = none ∧ ls .mutex = [] := by
  have hf : s.holder = none := by
    by_contra hne
    obtain ⟨t, ht⟩ := Option.ne_none_iff_exists'.mp hne
    have hc := (h.holder t).mp ht
    have hr := hstuck t
    unfold Ready at hr
    cases hpc : s.pc t <;> simp_all [Pc.critical]
  refine ⟨hf, ?_⟩
  by_contra hne
  obtain ⟨t, ht⟩ := h.woken hf hne
  have hr := hstuck t
  unfold Ready at hr
  cases hpc : s.pc t <;> simp_all [Pc.awake]

omit [DecidableEq T] in
theorem Inv.stuck_at (h : Inv P s ls a) (hstuck : ∀ t, ¬Ready P s t) (t : T) :
    s.pc t = .outside (a.pc t) ∧ P.finished (a.pc t) = true ∨
      (∃ c, s.pc t = .blocked (.cond c) (a.pc t)) ∧ a.Blocked t := by
  obtain ⟨hf, hempty⟩ := h.no_holder_of_stuck hstuck
  have hr := hstuck t
  unfold Ready at hr
  rw [h.point]
  cases hpc : s.pc t with
  | outside l =>
    rw [hpc] at hr
    exact .inl ⟨rfl, Bool.not_eq_false _ ▸ hr⟩
  | blocked p l =>
    have hmem : t ∈ ls p := (h.waiting.asleep t p).mpr (by rw [hpc]; rfl)
    cases p with
    | mutex => simp [hempty] at hmem
    | cond c =>
      refine .inr ⟨⟨c, rfl⟩, c, ?_⟩
      rw [h.free hf]
      exact hmem
  | woken l | toBlock p l b | inside l | calls cs e | waitUnlock c l =>
    rw [hpc] at hr
    exact absurd trivial hr

omit [DecidableEq T] in
/-- **No wake-up is lost**: if no thread can go on, those that are not finished wait on conditions. -/
theorem Inv.stuck (h : Inv P s ls a) (hstuck : ∀ t, ¬Ready P s t) :
    s.holder = none ∧ ∀ t, ¬Active P a t := by
  refine ⟨(h.no_holder_of_stuck hstuck).1, fun t ht => ?_⟩
  rcases h.stuck_at hstuck t with ⟨-, hfin⟩ | ⟨-, hb⟩
  · exact Bool.false_ne_true (ht.1.symm.trans hfin)
  · exact ht.2 hb

/-! ## Every state of the code -/

/-- **The code is defined where the sections are**, and each of its states shows one of the monitor. -/
theorem reach_some (hdef : ∀ a t, (Monitor.sys P).Reach a → a.holder = some t →
    P.body t (a.pc t) a.data ≠ none) {o : Option (State T L D C)} (hr : (sys P).Reach o) :
    ∃ s ls a, o = some s ∧ (Monitor.sys P).Reach a ∧ Inv P s ls a := by
  obtain ⟨a, ha, ⟨s, ls, rfl, h⟩ | ⟨-, t, ht, hb⟩⟩ := (simulates P).reach hr
  · exact ⟨s, ls, a, rfl, ha, h⟩
  · exact absurd hb (hdef a t ha ht)

/-! ## Every run of the monitor -/

theorem Inv.finish (h : Inv P s ls a) {cs : List C} {e : Exit C L} (hpc : s.pc t = .calls cs e)
    (hrest : ∀ u, u ≠ t → (s.pc u).resting = true) :
    ∃ s' ls', (sys P).Moves (some s) (some s') ∧ Inv P s' ls' a ∧
      ∀ u, (s'.pc u).resting = true := by
  have hready : Ready P s t := by
    unfold Ready
    rw [hpc]
    trivial
  induction cs generalizing s ls with
  | cons c cs ih =>
    obtain ⟨s₁, ls₁, hs₁, h₁, hpc₁, hrest₁⟩ := h.signal hpc
    obtain ⟨s', ls', hmoves, h', hrest'⟩ := ih h₁ hpc₁ (fun u hu => hrest₁ u hu (hrest u hu)) (by
      unfold Ready
      rw [hpc₁]
      trivial)
    exact ⟨s', ls', (Sys.Moves.single (A := sys P) t ⟨s, rfl, hready, hs₁⟩).trans hmoves, h', hrest'⟩
  | nil =>
    cases e with
    | leave l =>
      obtain ⟨s', ls', hs, h', hpc', hrest'⟩ := h.unlock (.outside l) (by rw [hpc]; rfl)
        (by rw [hpc]; rfl) rfl (by rw [hpc]; rfl) (by rw [hpc]; rfl) rfl rfl
        (by rw [hpc]; simp [Pc.asleep]) (by rw [hpc]; rfl)
      have hexec : Cond.exec P s t = some s' := by
        rw [Cond.exec, hpc]
        exact hs
      refine ⟨s', ls', .single (A := sys P) t ⟨s, rfl, hready, hexec⟩, h', fun u => ?_⟩
      by_cases hut : u = t
      · subst hut
        rw [hpc']
        rfl
      · exact hrest' u hut (hrest u hut)
    | wait c l =>
      have hholder : s.holder = some t := (h.holder t).mpr (by rw [hpc]; rfl)
      let s₁ := enqueue s (.cond c) t (.waitUnlock c l)
      have h₁ : Inv P s₁ _ a := h.enqueue_cond hpc
      have hpc₁ : s₁.pc t = .waitUnlock c l := Function.update_self _ _ _
      have hrest₁ : ∀ u, u ≠ t → (s₁.pc u).resting = true := fun u hu => by
        change (Function.update s.pc t _ u).resting = true
        rw [Function.update_of_ne hu]
        exact hrest u hu
      have hexec : Cond.exec P s t = some s₁ := by
        rw [Cond.exec, hpc]
        exact if_pos hholder
      obtain ⟨s₂, ls₂, hs₂, h₂, hpc₂, hrest₂⟩ :=
        h₁.unlock (.toBlock (.cond c) l false) (by rw [hpc₁]; rfl)
          (by rw [hpc₁]; rfl) rfl (by rw [hpc₁]; rfl) (by rw [hpc₁]; rfl) rfl rfl
          (by rw [hpc₁]; simp [Pc.asleep]) (by rw [hpc₁]; rfl)
      have hexec₁ : Cond.exec P s₁ t = some s₂ := by
        rw [Cond.exec, hpc₁]
        exact hs₂
      have hexec₂ : Cond.exec P s₂ t = some (s₂.goto t (.blocked (.cond c) l)) := by
        rw [Cond.exec, hpc₂]
        rfl
      refine ⟨_, _, (Sys.Moves.single (A := sys P) t ⟨s, rfl, hready, hexec⟩).trans
        ((Sys.Moves.single (A := sys P) t ⟨s₁, rfl, ?_, hexec₁⟩).trans
          (.single (A := sys P) t ⟨s₂, rfl, ?_, hexec₂⟩)), h₂.block hpc₂, fun u => ?_⟩
      · unfold Ready
        rw [hpc₁]
        trivial
      · unfold Ready
        rw [hpc₂]
        trivial
      · by_cases hut : u = t
        · subst hut
          simp [Pc.resting]
        · exact (congrArg Pc.resting (goto_pc_of_ne hut)).trans (hrest₂ u hut (hrest₁ u hut))

/-- **Every run of the monitor is a run of the code**, with no thread on its way in the end. -/
theorem exists_run (h : (Monitor.sys P).Reach a) :
    ∃ s ls, (sys P).Reach (some s) ∧ Inv P s ls a ∧ ∀ t, (s.pc t).resting = true := by
  induction h with
  | init hi => exact ⟨_, _, .init ⟨_, rfl, rfl⟩, by rw [show _ = _ from hi]; exact inv_start P,
      fun _ => rfl⟩
  | @step a a' _ _ hst ih =>
    obtain ⟨s, ls, hs, h, hrest⟩ := ih
    cases hst with
    | @lock t hnone hb hfin =>
      have hcr : ∀ u, (s.pc u).critical = false := by
        intro u
        have hr := hrest u
        have hah := h.ahead u
        cases hpc : s.pc u <;> simp_all [Pc.critical, Pc.resting, Pc.ahead]
      have hf : s.holder = none := by
        by_contra hne
        obtain ⟨u, hu⟩ := Option.ne_none_iff_exists'.mp hne
        rw [h.holder, hcr u] at hu
        cases hu
      obtain ⟨l, hpc⟩ : ∃ l, s.pc t = .outside l := by
        have hr := hrest t
        have hc := hcr t
        cases hpc : s.pc t with
        | outside l => exact ⟨l, rfl⟩
        | blocked p l =>
          cases p with
          | mutex => simp [hpc, Pc.resting] at hr
          | cond c =>
            refine absurd ⟨c, ?_⟩ hb
            rw [h.free hf]
            exact (h.waiting.asleep t _).mpr (by rw [hpc]; rfl)
        | woken l | toBlock p l b | inside l | calls cs e | waitUnlock c l =>
          simp [hpc, Pc.resting, Pc.critical] at hr hc
      have hfin' : P.finished l = false := by rwa [h.point, hpc] at hfin
      obtain ⟨-, h'⟩ := h.lock (.inl hpc) hfin' hf
      have hexec : Cond.exec P s t = some ({ s with holder := some t }.goto t (.inside l)) := by
        rw [Cond.exec, hpc]
        exact congrArg some (if_neg (not_not.mpr hf))
      refine ⟨_, _, hs.step (l := t) ⟨s, rfl, ?_, hexec⟩, h', fun u => ?_⟩
      · unfold Ready
        rw [hpc]
        exact hfin'
      · by_cases hut : u = t
        · subst hut
          simp [Pc.resting]
        · rw [goto_pc_of_ne hut]
          exact hrest u
    | @run t r hh hb =>
      obtain ⟨l, hpc⟩ : ∃ l, s.pc t = .inside l := by
        have hah := (h.ahead t).mp hh
        cases hpc : s.pc t <;> simp_all [Pc.ahead]
      obtain ⟨d, cs, e⟩ := r
      have hb' : P.body t l s.data = some (d, cs, e) := by rwa [h.point, hpc, h.data] at hb
      obtain ⟨-, h'⟩ := h.body hpc hb'
      have hexec : Cond.exec P s t = some ({ s with data := d }.goto t (.calls cs e)) := by
        rw [Cond.exec, hpc]
        dsimp only
        rw [hb']
        rfl
      have hs' : (sys P).Reach (some ({ s with data := d }.goto t (.calls cs e))) := by
        refine hs.step (l := t) ⟨s, rfl, ?_, hexec⟩
        unfold Ready
        rw [hpc]
        trivial
      obtain ⟨s₂, ls₂, hmoves, h₂, hrest₂⟩ := h'.finish goto_pc_self fun u hu => by
        rw [goto_pc_of_ne hu]
        exact hrest u
      exact ⟨s₂, ls₂, hs'.moves hmoves, h₂, hrest₂⟩

/-! ## The same states -/

/-- The mutex is free, and the state of the code is that of the monitor. -/
structure Stands (s : State T L D C) (a : Monitor.State T L D C) : Prop where
  free : s.holder = none
  idle : a.holder = none
  data : a.data = s.data
  point : ∀ t, a.pc t = (s.pc t).point
  queue : ∀ c, Line s.next (s.queue (.cond c)) (a.queue c)

omit [DecidableEq T] in
theorem Inv.stands (h : Inv P s ls a) (hf : s.holder = none) : Stands s a where
  free := hf
  idle := h.idle hf
  data := h.data
  point := h.point
  queue c := by
    rw [h.free hf]
    exact h.waiting.queues.line (.cond c)

omit [DecidableEq T] [DecidableEq C] in
theorem Stands.unique {a' : Monitor.State T L D C} (h : Stands s a) (h' : Stands s a') : a = a' := by
  obtain ⟨d, pc, q, hold⟩ := a
  obtain ⟨d', pc', q', hold'⟩ := a'
  obtain rfl : d = d' := h.data.trans h'.data.symm
  obtain rfl : pc = pc' := funext fun t => (h.point t).trans (h'.point t).symm
  obtain rfl : q = q' := funext fun c => Shared.path_unique (h.queue c).path (h'.queue c).path
  obtain rfl : hold = hold' := h.idle.trans h'.idle.symm
  rfl

omit [DecidableEq T] in
theorem Inv.free_of_resting (h : Inv P s ls a) (hrest : ∀ t, (s.pc t).resting = true)
    (hidle : a.holder = none) : s.holder = none := by
  by_contra hne
  obtain ⟨t, ht⟩ := Option.ne_none_iff_exists'.mp hne
  have hc := (h.holder t).mp ht
  have hr := hrest t
  have hah := h.ahead t
  cases hpc : s.pc t <;> simp_all [Pc.critical, Pc.resting, Pc.ahead]

/-- **The mutex and the condition variables make a monitor.** With the mutex free, the code gets
into the states that the monitor gets into between its sections; it gets stuck where the monitor
does, and goes wrong only where a section of the monitor is undefined. -/
theorem cond_iff (P : Program T L D C) :
    (∀ a : Monitor.State T L D C, (Monitor.sys P).Reach a ∧ a.holder = none ↔
      ∃ s, (sys P).Reach (some s) ∧ Stands s a) ∧
    ((∃ s, (sys P).Reach (some s) ∧ ∀ t, ¬Ready P s t) ↔
      ∃ a, (Monitor.sys P).Reach a ∧ a.holder = none ∧ ∀ t, ¬Active P a t) ∧
    ((sys P).Reach none ↔ ∃ a, (Monitor.sys P).Reach a ∧ Undefined P a) := by
  refine ⟨fun a => ⟨?_, ?_⟩, ⟨?_, ?_⟩, ?_, ?_⟩
  · rintro ⟨ha, hidle⟩
    obtain ⟨s, ls, hs, h, hrest⟩ := exists_run ha
    exact ⟨s, hs, h.stands (h.free_of_resting hrest hidle)⟩
  · rintro ⟨s, hs, hstands⟩
    obtain ⟨a', ha', ⟨s', ls, heq, h⟩ | ⟨heq, -⟩⟩ := (simulates P).reach hs
    · cases heq
      obtain rfl := hstands.unique (h.stands hstands.free)
      exact ⟨ha', hstands.idle⟩
    · cases heq
  · rintro ⟨s, hs, hstuck⟩
    obtain ⟨a, ha, ⟨s', ls, heq, h⟩ | ⟨heq, -⟩⟩ := (simulates P).reach hs
    · cases heq
      obtain ⟨hf, hact⟩ := h.stuck hstuck
      exact ⟨a, ha, h.idle hf, hact⟩
    · cases heq
  · rintro ⟨a, ha, hidle, hact⟩
    obtain ⟨s, ls, hs, h, hrest⟩ := exists_run ha
    refine ⟨s, hs, fun t hr => ?_⟩
    have hf := h.free_of_resting hrest hidle
    have hr' := hrest t
    have hah := h.ahead t
    unfold Ready at hr
    cases hpc : s.pc t with
    | outside l =>
      rw [hpc] at hr
      refine hact t ⟨by rw [h.point, hpc]; exact hr, ?_⟩
      rintro ⟨c, hc⟩
      rw [h.free hf] at hc
      exact h.waiting.notMem (by rw [hpc]; rfl) (.cond c) hc
    | inside l => simp [hpc, hidle, Pc.ahead] at hah
    | blocked p l => simp [hpc] at hr
    | woken l | toBlock p l b | calls cs e | waitUnlock c l => simp [hpc, Pc.resting] at hr'
  · intro h
    obtain ⟨a, ha, ⟨s', ls, heq, -⟩ | ⟨-, hun⟩⟩ := (simulates P).reach h
    · cases heq
    · exact ⟨a, ha, hun⟩
  · rintro ⟨a, ha, t, ht, hb⟩
    obtain ⟨s, ls, hs, h, -⟩ := exists_run ha
    obtain ⟨l, hpc⟩ : ∃ l, s.pc t = .inside l := by
      have hah := (h.ahead t).mp ht
      cases hpc : s.pc t <;> simp_all [Pc.ahead]
    refine hs.step (l := t) ⟨s, rfl, ?_, ?_⟩
    · unfold Ready
      rw [hpc]
      trivial
    · rw [h.point, hpc, h.data] at hb
      rw [Cond.exec, hpc]
      dsimp only
      rw [show P.body t l s.data = none from hb]
      rfl

end IntroSystems.Uthread.Cond
