import IntroSystems.Uthread.Dispatch

/-!
# Dispatching: the steps

Each step changes where one processor is, and one thread.

* `Inv.goto`, `Inv.touch`, `Inv.update`; a lemma for each step. **`Inv.go`**, **`Inv.exec`**.
* **`reach_inv`**: the invariant holds in every prompt run.
-/

set_option autoImplicit false

namespace IntroSystems.Uthread.Scheduler

variable {T P : Type} [DecidableEq P] [DecidableEq T] {s s' : State T P} {v : Thread T P → View P}
  {p q : P} {t u : Thread T P} {pc pc' : Pc T P} {x : View P} {r : Role} {fs ts : TS} {w : Option P}

/-! ## One step -/

omit [DecidableEq T] in
theorem Inv.goto (h : Inv s v) (hpair : ∀ u, Pair p (s.pc p) u (v u) → Pair p pc' u (v u))
    (hquiet : Quiet (Function.update s.pc p pc')) : Inv (s.goto p pc') v :=
  ⟨⟨h.shows.state, h.shows.wanted, h.shows.fits⟩, h.pairs.update_left hpair, h.ready, hquiet⟩

theorem Inv.touch (h : Inv s v) (hs : s'.state = Function.update s.state t x.state)
    (hw : s'.wanted = Function.update s.wanted t x.wanted) (hpc : s'.pc = s.pc) (hfits : Fits t x)
    (hpair : ∀ q, Pair q (s.pc q) t (v t) → Pair q (s.pc q) t x)
    (hready : Ready s'.ready_queue (Function.update v t x)) : Inv s' (Function.update v t x) := by
  refine ⟨h.shows.update hs hw hfits, ?_, hready, ?_⟩ <;> rw [hpc]
  · exact h.pairs.update_right hpair
  · exact h.quiet

theorem Inv.update {c : Pc T P} (h : Inv s v) (hs : s'.state = Function.update s.state t x.state)
    (hw : s'.wanted = Function.update s.wanted t x.wanted)
    (hpc : s'.pc = Function.update s.pc p c) (hfits : Fits t x) (hpair : Pair p c t x)
    (hp : ∀ u, u ≠ t → Pair p (s.pc p) u (v u) → Pair p c u (v u))
    (ht : ∀ q, q ≠ p → Pair q (s.pc q) t (v t) → Pair q (s.pc q) t x)
    (hready : Ready s'.ready_queue (Function.update v t x))
    (hquiet : Quiet (Function.update s.pc p c)) : Inv s' (Function.update v t x) := by
  refine ⟨h.shows.update hs hw hfits, ?_, hready, ?_⟩ <;> rw [hpc]
  · exact h.pairs.update hpair hp ht
  · exact hquiet

/-! ## The ready queue -/

omit [DecidableEq T] in
theorem Inv.asleep (h : Inv s v) {b b' : Bool} (hpc : s.pc p = .sleep t fs b) :
    Inv (s.goto p (.sleep t fs b')) v := by
  refine h.goto (fun u hu => ?_) (h.quiet.update (fun u hu => ?_) (fun u hu => ?_) (fun u hu => ?_)
    fun u fs' b he => ?_)
  · rw [hpc] at hu
    refine hu.congr (fun r => ?_) ?_ ?_ fun fs' he => hu.stops fs' he
    · simp [Pc.Has, Pc.stack, Pc.target]
    · simp [Pc.leaves]
    · simp [Pc.leaves]
  · left
    rw [hpc]
    exact hu
  · cases hu
  · simp [Pc.leaves]
  · cases he
    exact h.quiet.asleep p t fs _ hpc

omit [DecidableEq T] in
theorem Inv.signal (h : Inv s v) (w : Option P) : Inv (signal s w) v := by
  unfold Scheduler.signal
  cases w with
  | none => exact h
  | some q =>
    dsimp only
    split
    · next hpc => exact h.asleep hpc
    · exact h

/-- **A thread joins the ready queue.** -/
theorem Inv.enqueue (ht : t ∉ s.ready_queue) (w : Option P)
    (h : Inv { s with ready_queue := s.ready_queue ++ [t] } v) : Inv (readyQueueEnqueue s t w) v := by
  unfold readyQueueEnqueue
  simp only [ht, if_false]
  split_ifs
  · exact h.signal w
  · exact h

/-! ## What a thread does -/

omit [DecidableEq T] in
theorem Inv.stop (h : Inv s v) (hpc : s.pc p = .run t) (hfs : fs.role = .runs)
    (hs : Stops t fs (s.wanted t)) (hq : fs ≠ .blocked → ∀ q, (s.pc q).leaves ≠ some t) :
    Inv (s.goto p (.stop t fs)) v := by
  refine h.goto (fun u hu => ?_) (h.quiet.update ?_ ?_ ?_ (by simp))
  · rw [hpc] at hu
    refine hu.congr (fun r => ?_) ?_ ?_ ?_
    · simp [Pc.Has, Pc.stack, Pc.target, hfs]
    · simp [Pc.leaves]
    · simp [Pc.leaves]
    · intro fs' he
      cases he
      rw [h.shows.wanted]
      exact hs
  · intro u hu
    right
    simp only [Pc.settles] at hu
    split_ifs at hu with hb
    cases hu
    exact hq hb
  · simp [Pc.leaves]
  · simp [Pc.leaves]

theorem Inv.register {t : T} (h : Inv s v) (hpc : s.pc p = .run (.user t))
    (hw : s.wanted (.user t) = .nothing) :
    Inv (s.want (.user t) .waiting)
      (Function.update v (.user t) { v (.user t) with wanted := .waiting }) := by
  have hon := h.on_of_run hpc
  have hw' := (h.shows.wanted (.user t)).trans hw
  refine h.touch ?_ rfl rfl ((h.shows.fits _).registered hon hw')
    (fun q hq => ⟨hq.has, hq.left, hq.owed, fun fs hfs => ?_⟩) (h.ready.same Iff.rfl)
  · simp [State.want, h.shows.state]
  · -- the processor that the thread is on is not about to leave it
    obtain ⟨rfl, -⟩ := hq.on_of_stops hon hfs
    rw [hpc] at hfs
    cases hfs

theorem Inv.exit {t : T} (h : Inv s v) (hpc : s.pc p = .run (.user t))
    (hw : s.wanted (.user t) = .nothing) (hq : ∀ q, (s.pc q).leaves ≠ some (.user t)) :
    Inv ((s.set (.user t) (some .dying)).goto p (.ending (.user t)))
      (Function.update v (.user t) ⟨some .dying, .nothing, some (p, .ends), .nowhere⟩) := by
  have hon := h.on_of_run hpc
  have hw' := (h.shows.wanted (.user t)).trans hw
  have htu := (h.shows.fits (.user t)).turn_of_on (by simp [hon]) (by simp [hw'])
  refine h.update (p := p) (c := .ending (.user t)) rfl ?_ rfl (.ending t p) ?_ ?_ ?_
    (h.ready.same (by simp [htu])) (h.quiet.update ?_ ?_ ?_ (by simp))
  · simp [State.goto, State.set, hw]
  · refine ⟨fun r => ?_, by simp [Pc.leaves], by simp, by simp [Pc.stops]⟩
    simp [Pc.Has, View.Has, Pc.stack, Pc.target, eq_comm]
  · intro u hu hold
    rw [hpc] at hold
    refine hold.congr (fun r => ?_) ?_ ?_ ?_
    · simp [Pc.Has, Pc.stack, Pc.target, hu.symm]
    · simp [Pc.leaves]
    · simp [Pc.leaves]
    · simp [Pc.stops]
  · intro q hqp hold
    refine ⟨fun r => ?_, fun hl => absurd hl (hq q), by simp, fun fs hfs => ?_⟩
    · rw [hold.has]
      simp [View.Has, hon, htu, hqp.symm]
    · exact absurd (hold.on_of_stops hon hfs).1 hqp
  · intro u hu
    cases hu
    exact .inr hq
  · simp [Pc.leaves]
  · simp [Pc.leaves]

/-- **A thread is unblocked.** -/
theorem Inv.unblock (h : Inv s v) (hu : s.wanted u = .waiting) (w : Option P) :
    Inv (readyQueueEnqueue (s.want u .granted) u w)
      (Function.update v u { v u with wanted := .granted, turn := .queued }) := by
  have hw := (h.shows.wanted u).trans hu
  have htu := (h.shows.fits u).turn_of_waiting hw
  have hm : u ∉ s.ready_queue := fun hm => by simp [(h.ready.2 u).mp hm] at htu
  refine Inv.enqueue (s := s.want u .granted) hm w ?_
  refine h.touch (x := { v u with wanted := .granted, turn := .queued }) ?_ rfl rfl
    ((h.shows.fits u).unblocked hw) (fun q hq => ?_) (h.ready.push (by simp [htu]) rfl)
  · simp [State.want, h.shows.state]
  · refine ⟨fun r => ?_, fun hl => ?_, by simp, fun fs hfs => ?_⟩
    · rw [hq.has]
      simp [View.Has, htu]
    · obtain ⟨ts, hst, hk, hleft⟩ := hq.left hl
      exact ⟨ts, hst, hk, hleft.change (by simp [htu])⟩
    · have hs := hq.stops fs hfs
      rw [hw] at hs
      cases hs
      exact .blocked _ (by simp)

/-- **A new thread.** -/
theorem Inv.create {t : T} (h : Inv s v) (ht : s.state (.user t) = none) (w : Option P)
    (d : Thread T P → Bool) :
    Inv (readyQueueEnqueue { s.set (.user t) (some .nascent) with detached := d } (.user t) w)
      (Function.update v (.user t) ⟨some .nascent, .nothing, none, .queued⟩) := by
  have hst := (h.shows.state (.user t)).trans ht
  have hx := (h.shows.fits (.user t)).eq_of_absent hst
  have hm : .user t ∉ s.ready_queue := fun hm => by simpa [hx] using (h.ready.2 _).mp hm
  refine Inv.enqueue (s := { s.set (.user t) (some .nascent) with detached := d }) hm w ?_
  refine h.touch rfl ?_ rfl (.ready (.nascent _) (.queued t)) (fun q hq => ?_)
    (h.ready.push (by simp [hx]) rfl)
  · simp [State.set, ← h.shows.wanted, hx]
  · rw [hx] at hq
    refine ⟨fun r => ?_, fun hl => ?_, by simp, hq.stops⟩
    · rw [hq.has]
      simp [View.Has]
    · obtain ⟨ts, hts, -⟩ := hq.left hl
      cases hts

theorem Inv.free {t : T} (h : Inv s v) (ht : s.state (.user t) = some .dead) :
    Inv (s.set (.user t) none) (Function.update v (.user t) ⟨none, .nothing, none, .nowhere⟩) := by
  have hst := (h.shows.state (.user t)).trans ht
  have hx := (h.shows.fits (.user t)).eq_of_dead hst
  refine h.touch rfl ?_ rfl (.absent t) (fun q hq => ?_) (h.ready.same (by simp [hx]))
  · simp [State.set, ← h.shows.wanted, hx]
  · rw [hx] at hq
    refine ⟨hq.has, fun hl => ?_, by simp, hq.stops⟩
    obtain ⟨ts, hts, -, hleft⟩ := hq.left hl
    cases hts
    cases hleft

/-! ## The scheduler -/

omit [DecidableEq T] in
theorem Inv.halt (h : Inv s v) (hst : pc'.stack = (s.pc p).stack)
    (htg : pc'.target = (s.pc p).target) (hs : pc'.stops = (s.pc p).stops)
    (hset : pc'.settles = (s.pc p).settles) (hl : pc'.leaves = none)
    (hl' : (s.pc p).leaves = none) (hsleep : ∀ t fs b, pc' = .sleep t fs b → t = .base p) :
    Inv (s.goto p pc') v := by
  refine h.goto (fun u hu => hu.congr (fun r => ?_) ?_ ?_ fun fs hfs => hu.stops fs (hs ▸ hfs))
    (h.quiet.update (fun u hu => .inl (hset ▸ hu)) ?_ ?_ hsleep)
  · rw [Pc.Has, Pc.Has, hst, htg]
  · rw [hl, hl']
  · simp [hl']
  · simp [hl]
  · simp [hl]

omit [DecidableEq T] in
theorem Inv.ending (h : Inv s v) (hpc : s.pc p = .ending t) : Inv (s.goto p (.stop t .dying)) v := by
  have hon := (h.pairs p t).stack (r := .ends) (by rw [hpc]; rfl)
  obtain ⟨⟨t, rfl⟩, hx⟩ := (h.shows.fits t).eq_of_ends hon
  refine h.goto (fun u hu => ?_) (h.quiet.update (fun u hu => ?_) ?_ ?_ (by simp))
  · rw [hpc] at hu
    refine hu.congr (fun r => ?_) ?_ ?_ fun fs hfs => ?_
    · simp [Pc.Has, Pc.stack, Pc.target, TS.role]
    · simp [Pc.leaves]
    · simp [Pc.leaves]
    · cases hfs
      rw [hx]
      exact .dying t
  · rw [hpc]
    exact .inl hu
  · simp [Pc.leaves]
  · simp [Pc.leaves]

theorem Inv.hold {l : List (Thread T P)} (h : Inv s v) (hpc : s.pc p = .stop t fs)
    (hk : (v u).turn = .nowhere ∨ (v u).turn = .queued) (hf : Fits u { v u with turn := .held p })
    (hready : Ready l (Function.update v u { v u with turn := .held p })) :
    Inv ({ s with ready_queue := l }.goto p (.switch t u fs))
      (Function.update v u { v u with turn := .held p }) := by
  have hheld : ∀ q, (v u).turn ≠ .held q := fun q hq => by simp [hq] at hk
  refine h.update (p := p) (c := .switch t u fs) ?_ ?_ rfl hf ?_ ?_ ?_ hready
    (h.quiet.update (fun u hu => ?_) ?_ ?_ (by simp))
  · simp [State.goto, h.shows.state]
  · simp [State.goto, h.shows.wanted]
  · have hold := h.pairs p u
    rw [hpc] at hold
    refine ⟨fun r => ?_, by simp [Pc.leaves], by simp, hold.stops⟩
    have hr := hold.has r
    simp only [Pc.Has, View.Has, Pc.stack, Pc.target, hheld, reduceCtorEq, false_and, or_false] at hr
    simp [Pc.Has, View.Has, Pc.stack, Pc.target, hr]
  · intro b hb hold
    rw [hpc] at hold
    refine hold.congr (fun r => ?_) ?_ ?_ fun fs hfs => hold.stops fs hfs
    · simp [Pc.Has, Pc.stack, Pc.target, hb.symm]
    · simp [Pc.leaves]
    · simp [Pc.leaves]
  · intro q hqp hold
    refine ⟨fun r => ?_, fun hl => ?_, by simp, hold.stops⟩
    · rw [hold.has]
      simp [View.Has, hheld, hqp.symm]
    · obtain ⟨ts, hst, hknows, hleft⟩ := hold.left hl
      exact ⟨ts, hst, hknows, hleft.change fun q hq => by simp [hq] at hk⟩
  · rw [hpc]
    exact .inl hu
  · simp [Pc.leaves]
  · simp [Pc.leaves]

theorem Inv.dequeue {l : List (Thread T P)} (h : Inv s v) (hpc : s.pc p = .stop t fs)
    (hl : s.ready_queue = u :: l) :
    Inv ({ s with ready_queue := l }.goto p (.switch t u fs))
      (Function.update v u { v u with turn := .held p }) := by
  have hu : (v u).turn = .queued := (h.ready.2 u).mp (by simp [hl])
  refine h.hold hpc (.inr hu) ((h.shows.fits u).taken hu p) (Ready.pop ?_ (by simp))
  rw [← hl]
  exact h.ready

theorem Inv.fallback (h : Inv s v) (hpc : s.pc p = .stop t fs) (ht : .base p ≠ t) :
    Inv (s.goto p (.switch t (.base p) fs))
      (Function.update v (.base p) { v (.base p) with turn := .held p }) := by
  obtain ⟨ts, hr, hx⟩ := h.idle hpc ht
  refine h.hold hpc (.inl (by rw [hx])) ?_ (h.ready.same (by simp [hx]))
  rw [hx]
  exact .ready hr (.held (.base p))

theorem Inv.readyQueueDequeue (h : Inv s v) (hpc : s.pc p = .stop t fs) :
    ∃ v', Inv (readyQueueDequeue s p t fs) v' := by
  unfold Scheduler.readyQueueDequeue
  split
  · next hl => exact ⟨_, h.dequeue hpc hl⟩
  · split_ifs with hb
    · have h' : Inv { s with pthread_num_sleeping := s.pthread_num_sleeping + 1 } v :=
        h.congr rfl rfl rfl rfl
      exact ⟨v, h'.halt (by simp [hpc, Pc.stack]) (by simp [hpc, Pc.target]) (by simp [hpc, Pc.stops])
        (by simp [hpc, Pc.settles]) rfl (by simp [hpc, Pc.leaves]) fun t' fs' b e => by
          cases e
          exact hb.symm⟩
    · exact ⟨_, h.fallback hpc hb⟩

theorem Inv.switch (h : Inv s v) (hpc : s.pc p = .switch t u fs) :
    Inv ((s.set t (some fs)).goto p (.wait t u))
      (Function.update v t
        ⟨some fs, (v t).wanted, none, if fs = .blocked then (v t).turn else .owed p⟩) := by
  have hpt := h.pairs p t
  rw [hpc] at hpt
  have hon := hpt.stack (r := fs.role) rfl
  have hs := hpt.stops fs rfl
  have hquiet : fs ≠ .blocked → ∀ q, (s.pc q).leaves ≠ some t := fun hb q =>
    h.quiet.settled p q t (by simp [hpc, Pc.settles, hb])
  have htu : fs ≠ .blocked → (v t).turn = .nowhere := fun hb =>
    (h.shows.fits t).turn_of_on (by simp [hon]) (by simp [hs.wanted hb])
  refine h.update (p := p) (c := .wait t u) rfl ?_ rfl ((h.shows.fits t).switched hon hs) ?_ ?_ ?_
    (h.ready.same ?_) (h.quiet.update ?_ (fun b hb => ?_) ?_ (by simp))
  · simp [State.goto, State.set, h.shows.wanted]
  · refine ⟨fun r => ?_, fun _ => ⟨fs, rfl, trivial, hs.left p _⟩, fun _ => rfl, by simp [Pc.stops]⟩
    have hr := hpt.has .holds
    have hne : fs.role ≠ .holds := role_ne_holds
    by_cases hb : fs = .blocked
    · simp_all [Pc.Has, View.Has, Pc.stack, Pc.target]
    · simp_all [Pc.Has, View.Has, Pc.stack, Pc.target]
  · intro b hb hold
    rw [hpc] at hold
    refine ⟨fun r => ?_, fun hl => ?_, fun ho => ?_, by simp [Pc.stops]⟩
    · rw [← hold.has]
      simp [Pc.Has, Pc.stack, Pc.target, hb.symm]
    · cases hl
      exact absurd rfl hb
    · exact absurd (hold.owed ho) (by simp [Pc.leaves])
  · intro q hqp hold
    have hstop : ∀ fs', (s.pc q).stops = some (t, fs') → Stops t fs' (v t).wanted := fun fs' hfs =>
      absurd (hold.on_of_stops hon hfs).1 hqp
    by_cases hb : fs = .blocked
    · refine ⟨fun r => ?_, fun hl => ?_, fun ho => hold.owed (by simpa [hb] using ho), hstop⟩
      · rw [hold.has]
        simp [View.Has, hon, hb, hqp.symm]
      · obtain ⟨ts, hts, hk, -⟩ := hold.left hl
        have hrun := (h.shows.fits t).state_of_runs (p := p) (by rw [hon, hb]; rfl)
        cases hts.symm.trans hrun
        refine ⟨_, rfl, hk.change (by simp) (by simp) (by simp [hb]), ?_⟩
        rw [hb]
        exact .blocked _
    · refine ⟨fun r => ?_, fun hl => absurd hl (hquiet hb q), fun ho => ?_, hstop⟩
      · rw [hold.has]
        simp [View.Has, hon, hb, htu hb, hqp.symm]
      · simp only [hb, if_false, Turn.owed.injEq] at ho
        exact absurd ho.symm hqp
  · by_cases hb : fs = .blocked
    · simp [hb]
    · simp [hb, htu hb]
  · simp [Pc.settles]
  · cases hb
    refine .inr fun q hqp hq => ?_
    obtain ⟨r, hr⟩ := Pc.stack_of_settles hq
    have hp : (s.pc p).stack = some (t, fs.role) := by rw [hpc]; rfl
    exact hqp (h.alone hr hp)
  · simp [Pc.settles]

theorem Inv.wait (h : Inv s v) (hpc : s.pc p = .wait t u) (hu : s.state u ≠ some .running) :
    Inv (s.goto p (.after t u))
      (Function.update v u { v u with on := some (p, .boards), turn := .nowhere }) := by
  have hpu := h.pairs p u
  rw [hpc] at hpu
  have htu := hpu.target rfl (h.shows.fits u)
  have hfits := (h.shows.fits u).boarded htu (by rwa [h.shows.state])
  have hon : (v u).on = none := by
    have hf := h.shows.fits u
    have hst := h.shows.state u
    generalize v u = x at hf hst htu
    cases hf <;> simp_all
  refine h.update (p := p) (c := .after t u) ?_ ?_ rfl hfits ?_ ?_ ?_ (h.ready.same (by simp [htu]))
    (h.quiet.update ?_ (fun b hb => ?_) ?_ (by simp))
  · simp [State.goto, h.shows.state]
  · simp [State.goto, h.shows.wanted]
  · refine ⟨fun r => ?_, fun hl => ?_, by simp, by simp [Pc.stops]⟩
    · simp [Pc.Has, View.Has, Pc.stack, Pc.target, eq_comm]
    · obtain ⟨ts, hts, hk, hleft⟩ := hpu.left hl
      exact ⟨ts, hts, trivial, hleft.change (by simp [htu])⟩
  · intro b hb hold
    rw [hpc] at hold
    refine hold.congr (fun r => ?_) Iff.rfl (fun _ _ _ _ => trivial) (by simp [Pc.stops])
    simp [Pc.Has, Pc.stack, Pc.target, hb.symm]
  · intro q hqp hold
    refine ⟨fun r => ?_, fun hl => ?_, by simp, hold.stops⟩
    · rw [hold.has]
      simp [View.Has, hon, htu, hqp.symm]
    · obtain ⟨ts, hts, hk, hleft⟩ := hold.left hl
      exact ⟨ts, hts, hk, hleft.change (by simp [htu])⟩
  · simp [Pc.settles]
  · rw [hpc]
    exact .inl hb
  · simp [Pc.settles]

omit [DecidableEq T] in
/-- What the processor has read of the thread it has switched from. -/
theorem Inv.look (h : Inv s v) (hst : pc'.stack = (s.pc p).stack)
    (htg : pc'.target = (s.pc p).target) (hs : pc'.stops = none) (hset : pc'.settles = none)
    (hl : pc'.leaves = (s.pc p).leaves)
    (hk : ∀ t, pc'.leaves = some t → ∀ ts, s.state t = some ts → pc'.Knows ts) :
    Inv (s.goto p pc') v := by
  refine h.goto (fun b hb => hb.congr (fun r => ?_) ?_ (fun hb ts hts _ => ?_) ?_) (h.quiet.update ?_
    (fun b hb => .inl (hl ▸ hb)) ?_ fun t fs b e => ?_)
  · rw [Pc.Has, Pc.Has, hst, htg]
  · rw [hl]
  · rw [h.shows.state] at hts
    exact hk b (hl.trans hb) ts hts
  · simp [hs]
  · simp [hset]
  · simp [hset]
  · rw [e] at hs
    cases hs

omit [DecidableEq T] in
/-- The thread that the processor has switched from is no concern of it. -/
theorem Inv.pass (h : Inv s v) (hpc : s.pc p = .test t u) (ht : s.state t ≠ some .runable) :
    Inv (s.goto p (.resume u)) v := by
  refine h.goto (fun b hold => ?_) (h.quiet.update ?_ ?_ ?_ (by simp))
  · rw [hpc] at hold
    refine ⟨fun r => ?_, by simp [Pc.leaves], fun ho => ?_, by simp [Pc.stops]⟩
    · rw [← hold.has]
      simp [Pc.Has, Pc.stack, Pc.target]
    · have hl := hold.owed ho
      obtain ⟨ts, hts, hk, -⟩ := hold.left hl
      cases hl
      have hst := h.shows.state t
      obtain ⟨-, hx | hx⟩ := (h.shows.fits t).of_owed ho
      · exact absurd (by rw [← hst, hx]) ht
      · rw [hx] at hts
        cases hts
        exact absurd rfl hk
  · simp [Pc.settles]
  · simp [Pc.leaves]
  · simp [Pc.leaves]

theorem Inv.settle (h : Inv s v) (hl : (s.pc p).leaves = some t)
    (hst : (s.pc p).stack = some (u, .boards)) (htg : (s.pc p).target = none) (hx : x.on = none)
    (hx' : x.turn = .nowhere ∨ x.turn = .queued) (ho : (v t).turn = .owed p) (hfits : Fits t x)
    (hs : s'.state = Function.update s.state t x.state)
    (hw : s'.wanted = Function.update s.wanted t x.wanted)
    (hpc : s'.pc = Function.update s.pc p (.resume u))
    (hready : Ready s'.ready_queue (Function.update v t x)) : Inv s' (Function.update v t x) := by
  obtain ⟨⟨t, rfl⟩, hv⟩ := (h.shows.fits t).of_owed ho
  have hon : (v (.user t)).on = none := by rcases hv with hv | hv <;> rw [hv]
  have hheld : ∀ q, x.turn ≠ .held q := fun q hq => by simp [hq] at hx'
  have howed : ∀ q, x.turn ≠ .owed q := fun q hq => by simp [hq] at hx'
  have htu : u ≠ .user t := fun e => by
    have hb := (h.pairs p u).stack hst
    rw [e, hon] at hb
    cases hb
  refine h.update (p := p) (c := .resume u) hs hw hpc hfits ?_ (fun b hb hold => ?_)
    (fun q hqp hold => ?_) hready (h.quiet.update ?_ ?_ ?_ (by simp))
  · refine ⟨fun r => ?_, by simp [Pc.leaves], fun e => absurd e (howed p), by simp [Pc.stops]⟩
    simp [Pc.Has, View.Has, Pc.stack, Pc.target, hx, hheld, htu]
  · refine ⟨fun r => ?_, by simp [Pc.leaves], fun e => ?_, by simp [Pc.stops]⟩
    · rw [← hold.has, Pc.Has, Pc.Has, hst, htg]
      rfl
    · have := hold.owed e
      rw [hl] at this
      exact absurd (Option.some.inj this).symm hb
  · refine ⟨fun r => ?_, fun hlq => ?_, fun e => absurd e (howed q), fun fs hfs => ?_⟩
    · rw [hold.has]
      simp [View.Has, hon, hx, ho, hheld]
    · -- no other processor has switched from it
      obtain ⟨ts, hts, -, hleft⟩ := hold.left hlq
      rcases hv with hv | hv <;> rw [hv] at hts hleft <;> cases hts <;> cases hleft <;>
        exact absurd rfl hqp
    · have hq := hold.stack (Pc.stack_of_stops hfs)
      rw [hon] at hq
      cases hq
  · simp [Pc.settles]
  · simp [Pc.leaves]
  · simp [Pc.leaves]

theorem Inv.resume (h : Inv s v) (hpc : s.pc p = .resume u) :
    Inv (((s.set u (some .running)).want u .nothing).goto p (.run u))
      (Function.update v u ⟨some .running, .nothing, some (p, .runs), .nowhere⟩) := by
  have hpu := h.pairs p u
  rw [hpc] at hpu
  have hon := hpu.stack (r := .boards) rfl
  have htu := (h.shows.fits u).turn_of_boards hon
  refine h.update (p := p) (c := .run u) rfl rfl rfl ((h.shows.fits u).resumed hon) ?_
    (fun b hb hold => ?_) (fun q hqp hold => ?_) (h.ready.same (by simp [htu]))
    (h.quiet.update ?_ ?_ ?_ (by simp))
  · refine ⟨fun r => ?_, by simp [Pc.leaves], by simp, by simp [Pc.stops]⟩
    simp [Pc.Has, View.Has, Pc.stack, Pc.target, eq_comm]
  · rw [hpc] at hold
    refine hold.congr (fun r => ?_) Iff.rfl (by simp [Pc.leaves]) (by simp [Pc.stops])
    simp [Pc.Has, Pc.stack, Pc.target, hb.symm]
  · refine ⟨fun r => ?_, fun hl => ?_, by simp, fun fs hfs => ?_⟩
    · rw [hold.has]
      simp [View.Has, hon, htu, hqp.symm]
    · obtain ⟨ts', hts', hk, hleft⟩ := hold.left hl
      obtain ⟨h1, h2⟩ := hleft.active (by simp [htu])
      exact ⟨_, rfl, hk.change h1 h2 (by simp), .running _⟩
    · exact absurd (hold.on_of_stops hon hfs).1 hqp
  · simp [Pc.settles]
  · simp [Pc.leaves]
  · simp [Pc.leaves]

/-! ## Runs -/

theorem Inv.reap (h : Inv s v) (hpc : s.pc p = .reap t u) (b : Bool) :
    ∃ v', Inv ((s.set t (if b then none else some .dead)).goto p (.resume u)) v' := by
  have ho := h.owed_of_knows (p := p) (t := t) (by rw [hpc]; rfl)
    (by rw [hpc]; exact fun ts hts => .inl hts)
  obtain ⟨⟨t, rfl⟩, hv⟩ := (h.shows.fits t).of_owed ho
  have hw : s.wanted (.user t) = .nothing := by
    rw [← h.shows.wanted]
    rcases hv with hv | hv <;> rw [hv]
  refine ⟨_, h.settle (u := u) (x := ⟨if b then none else some .dead, .nothing, none, .nowhere⟩)
    (by rw [hpc]; rfl) (by rw [hpc]; rfl) (by rw [hpc]; rfl) rfl (.inl rfl) ho ?_ rfl ?_ rfl
    (h.ready.same (by simp [ho]))⟩
  · cases b with
    | false => exact .dead t
    | true => exact .absent t
  · simp [State.goto, State.set, hw]

theorem Inv.requeue (h : Inv s v) (hpc : s.pc p = .requeue t u) (w : Option P) :
    ∃ v', Inv (readyQueueEnqueue (s.goto p (.resume u)) t w) v' := by
  have hl : (s.pc p).leaves = some t := by rw [hpc]; rfl
  have ho := h.owed_of_knows hl (by rw [hpc]; exact fun ts hts => .inr hts)
  obtain ⟨ts, hts, hk, -⟩ := h.exists_left hl
  rw [hpc] at hk
  obtain rfl : ts = .runable := hk
  have hv : v t = ⟨some .runable, .nothing, none, .owed p⟩ := by
    rw [← h.shows.state] at hts
    obtain ⟨-, hv | hv⟩ := (h.shows.fits t).of_owed ho
    · exact hv
    · rw [hv] at hts
      cases hts
  obtain ⟨⟨t, rfl⟩, -⟩ := (h.shows.fits t).of_owed ho
  have hm : .user t ∉ (s.goto p (.resume u)).ready_queue := fun hm => by
    simpa [hv] using (h.ready.2 _).mp hm
  refine ⟨_, Inv.enqueue hm w (h.settle (u := u) (x := ⟨some .runable, .nothing, none, .queued⟩) hl
    (by rw [hpc]; rfl) (by rw [hpc]; rfl) rfl (.inr rfl) ho (.ready (.runable t) (.queued t)) ?_ ?_
    rfl (h.ready.push (by simp [ho]) rfl))⟩
  · simp [State.goto, hts]
  · simp [State.goto, ← h.shows.wanted, hv]

/-- **The scheduler goes on.** -/
theorem Inv.go (h : Inv s v) (hc : (s.pc p).caller = none) (w : Option P) :
    ∃ s' v', go s p w = some s' ∧ Inv s' v' := by
  unfold Scheduler.go
  cases hpc : s.pc p with
  | run t =>
    rw [hpc] at hc
    cases hc
  | ending t => exact ⟨_, v, rfl, h.ending hpc⟩
  | stop t fs =>
    obtain ⟨v', h'⟩ := h.readyQueueDequeue hpc
    exact ⟨_, v', rfl, h'⟩
  | sleep t fs b =>
    cases b with
    | false => exact ⟨_, v, rfl, h.asleep hpc⟩
    | true =>
      have h' : Inv { s with pthread_num_sleeping := s.pthread_num_sleeping - 1 } v :=
        h.congr rfl rfl rfl rfl
      exact ⟨_, v, rfl, h'.halt (by simp [hpc, Pc.stack]) (by simp [hpc, Pc.target])
        (by simp [hpc, Pc.stops]) (by simp [hpc, Pc.settles]) rfl (by simp [hpc, Pc.leaves]) (by simp)⟩
  | switch t u fs =>
    have hon := (h.pairs p t).stack (r := fs.role) (by rw [hpc]; rfl)
    obtain ⟨ts, hts⟩ := h.exists_state (t := t) (.inl (by simp [hon]))
    dsimp only
    rw [hts]
    exact ⟨_, _, rfl, h.switch hpc⟩
  | wait t u =>
    have htu := (h.pairs p u).target (by rw [hpc]; rfl) (h.shows.fits u)
    obtain ⟨ts, hts⟩ := h.exists_state (t := u) (.inr (.inl (by simp [htu])))
    dsimp only
    rw [hts]
    by_cases hrun : ts = .running
    · exact ⟨s, v, by simp [hrun], h⟩
    · exact ⟨_, _, by simp [hrun], h.wait hpc (by simp [hts, hrun])⟩
  | after t u =>
    obtain ⟨ts, hts, -, -⟩ := h.exists_left (p := p) (t := t) (by rw [hpc]; rfl)
    simp only [hts, Option.map_some]
    refine ⟨_, v, rfl, ?_⟩
    split_ifs with hd
    · refine h.look ?_ ?_ ?_ ?_ ?_ ?_
      all_goals simp [hpc, Pc.stack, Pc.target, Pc.stops, Pc.settles, Pc.leaves, Pc.Knows, hts, hd]
    · refine h.look ?_ ?_ ?_ ?_ ?_ ?_
      all_goals simp [hpc, Pc.stack, Pc.target, Pc.stops, Pc.settles, Pc.leaves, Pc.Knows, hts, hd]
  | test t u =>
    obtain ⟨ts, hts, -, -⟩ := h.exists_left (p := p) (t := t) (by rw [hpc]; rfl)
    dsimp only
    rw [hts]
    by_cases hr : ts = .runable
    · subst hr
      refine ⟨_, v, rfl, h.look ?_ ?_ ?_ ?_ ?_ ?_⟩
      all_goals simp [hpc, Pc.stack, Pc.target, Pc.stops, Pc.settles, Pc.leaves, Pc.Knows, hts]
    · exact ⟨_, v, by simp [hr], h.pass hpc (by simp [hts, hr])⟩
  | reap t u =>
    obtain ⟨ts, hts, -, -⟩ := h.exists_left (p := p) (t := t) (by rw [hpc]; rfl)
    obtain ⟨v', h'⟩ := h.reap hpc (s.detached t)
    dsimp only
    rw [hts]
    exact ⟨_, v', rfl, h'⟩
  | requeue t u =>
    obtain ⟨ts, hts, -, -⟩ := h.exists_left (p := p) (t := t) (by rw [hpc]; rfl)
    obtain ⟨v', h'⟩ := h.requeue hpc w
    dsimp only
    rw [hts]
    exact ⟨_, v', rfl, h'⟩
  | resume u =>
    have hon := (h.pairs p u).stack (r := .boards) (by rw [hpc]; rfl)
    obtain ⟨ts, hts⟩ := h.exists_state (t := u) (.inl (by simp [hon]))
    dsimp only
    rw [hts]
    exact ⟨_, _, rfl, h.resume hpc⟩

/-- **The threads go on**, as long as the callers and the other processors let them. -/
theorem Inv.exec {main : T} {a : Act T P} (h : Inv s v) (ha : Allowed main s (p, a))
    (hp : Prompt (some s) (p, a)) : ∃ s' v', exec s p a = some s' ∧ Inv s' v' := by
  cases a with
  | register =>
    obtain ⟨t, hpc, hw⟩ := ha
    simp only [Scheduler.exec, hpc]
    exact ⟨_, _, rfl, h.register hpc hw⟩
  | yield =>
    obtain ⟨t, hpc, hw⟩ := ha
    simp only [Scheduler.exec, hpc]
    exact ⟨_, v, rfl, h.stop hpc rfl (hw ▸ .runable t) fun _ => hp _ hpc⟩
  | block =>
    obtain ⟨t, hpc, hw⟩ := ha
    simp only [Scheduler.exec, hpc]
    rw [← h.shows.wanted] at hw
    have hs := (h.shows.fits t).stops (h.on_of_run hpc) hw
    exact ⟨_, v, rfl, h.stop hpc rfl (h.shows.wanted t ▸ hs) fun hb => absurd rfl hb⟩
  | exit =>
    obtain ⟨t, hpc, hw, -⟩ := ha
    obtain ⟨ts, hts⟩ := h.exists_state (t := .user t) (.inl (by simp [h.on_of_run hpc]))
    simp only [Scheduler.exec, hpc, hts]
    exact ⟨_, _, rfl, h.exit hpc hw (hp _ hpc)⟩
  | unblock u w =>
    obtain ⟨⟨t, hpc⟩, hw, -⟩ := ha
    obtain ⟨ts, hts⟩ := h.exists_state (t := u) (.inr (.inr (by simp [h.shows.wanted, hw])))
    rcases hpc with hpc | hpc <;> simp only [Scheduler.exec, hpc, hts] <;>
      exact ⟨_, _, rfl, h.unblock hw w⟩
  | create u w =>
    obtain ⟨⟨t, hpc⟩, ⟨u, rfl⟩, hu, -⟩ := ha
    simp only [Scheduler.exec, hpc]
    exact ⟨_, _, rfl, h.create hu w _⟩
  | detach u =>
    obtain ⟨⟨t, hpc⟩, ⟨u, rfl⟩, hu, -⟩ := ha
    obtain ⟨ts, hts⟩ := Option.ne_none_iff_exists'.mp hu
    simp only [Scheduler.exec, hpc, hts, Option.map_some]
    split_ifs with hd
    · exact ⟨_, _, rfl, h.free (hd ▸ hts)⟩
    · exact ⟨_, v, rfl, h.congr rfl rfl rfl rfl⟩
  | go w =>
    obtain ⟨s', v', hgo, h'⟩ := h.go ha.1 w
    refine ⟨s', v', ?_, h'⟩
    rw [← hgo]
    unfold Scheduler.exec
    cases s.pc p <;> rfl

/-- The processors on which the threads start. -/
def startsOn (main : T) (boot : P) : Thread T P → Option (P × Role)
  | .user t => if t = main then some (boot, .runs) else none
  | .base p => if p = boot then none else some (p, .runs)

theorem start_inv (main : T) (boot : P) : ∃ v, Inv (start main boot) v := by
  refine ⟨fun t => ⟨(start main boot).state t, .nothing, startsOn main boot t, .nowhere⟩, ?_⟩
  refine ⟨⟨fun _ => rfl, fun _ => rfl, fun t => ?_⟩, fun p t => ⟨fun r => ?_, ?_, ?_, ?_⟩, ⟨?_, ?_⟩, ?_⟩
  · cases t with
    | user t =>
      by_cases ht : t = main
      · simpa [start, startsOn, ht] using .running main boot (by simp)
      · simpa [start, startsOn, ht] using .absent t
    | base p =>
      by_cases hp : p = boot
      · simpa [start, startsOn, hp] using .idle boot (.nascent _)
      · simpa [start, startsOn, hp] using .serving p
  · simp only [start, startsOn, Pc.Has, View.Has, Pc.stack, Pc.target, Option.some.injEq, Prod.mk.injEq,
      reduceCtorEq, false_and, or_false]
    cases t with
    | user t => by_cases hp : p = boot <;> by_cases ht : t = main <;> grind
    | base q => by_cases hp : p = boot <;> by_cases hq : q = boot <;> grind
  · simp [start, Pc.leaves]
  · simp
  · simp [start, Pc.stops]
  · simp [start]
  · simp [start]
  · exact ⟨fun p q t hs => by simp [start, Pc.settles] at hs, fun p t fs b hs => by simp [start] at hs⟩

/-- **The invariant holds in every prompt run**, and no step is undefined. -/
theorem reach_inv {main : T} {boot : P} {o : Option (State T P)}
    (h : ((sys main boot).restrict Prompt).Reach o) : ∃ s, o = some s ∧ ∃ v, Inv s v := by
  refine Sys.Reach.defined (I := fun s => ∃ v, Inv s v) ?_ ?_ h
  · rintro s rfl
    exact start_inv main boot
  · rintro s ⟨p, a⟩ ⟨v, hv⟩ ha hp
    obtain ⟨s', v', he, h'⟩ := hv.exec ha hp
    exact ⟨s', he, v', h'⟩

end IntroSystems.Uthread.Scheduler
