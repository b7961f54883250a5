import IntroSystems.Barrier.Model
import Mathlib.Algebra.Group.Action.Defs
import Mathlib.Algebra.Order.BigOperators.Group.Finset
import Mathlib.Data.Finset.Card
import Mathlib.Data.Fintype.Basic
import Mathlib.Data.Fintype.Card

/-!
# The barrier holds, and lets everybody go

* `Held`, `Counted`, `Passed`, `Roused`, `Logged`, `Waiting`: what the points of the threads say about
  the mutex, the counter, the waiters and the output; and what a thread that goes on does to that.
* `State.work`: what is left to do at most.
* `Inv`, `Inv.exec`: all of it, and that a step keeps it, with less to do after it.
* **`barrier_holds`**: the output is in order, and no wake-up is lost.
* **`barrier_ends`**: a run has at most `12 * n` steps, and if nobody can go on, all have finished.
-/

set_option autoImplicit false

namespace IntroSystems.Barrier

open Uthread

namespace Pc

/-- Holds the mutex. -/
def critical : Pc → Bool
  | increment | test | wait | waitUnlock | broadcast | unlock => true
  | _ => false

/-- Has been counted. -/
def arrived : Pc → Bool
  | start | toLock | increment => false
  | _ => true

/-- In the queue of the condition. -/
def queued : Pc → Bool
  | waitUnlock | asleep => true
  | _ => false

/-- Has seen that not everybody has arrived, and still holds the mutex. -/
def early : Pc → Bool
  | wait | waitUnlock => true
  | _ => false

/-- Is past the barrier, or has been woken. -/
def late : Pc → Bool
  | woken | broadcast | unlock | print | done => true
  | _ => false

/-- Is about to wake the others, if everybody has arrived. -/
def rousing : Pc → Bool
  | test | broadcast => true
  | _ => false

end Pc

variable {n : ℕ} {t u : Fin n} {pc : Fin n → Pc} {a p : Pc} {holder : Option (Fin n)} {count : ℤ}
  {next : Fin n → Option (Fin n)} {q : ThreadQueue (Fin n)} {ls ts : List (Fin n)}
  {log : List (Fin n × Print)} {s s' : State n}

theorem flag_same {f : Pc → Bool} (ht : pc t = a) (hp : f p = f a) (u : Fin n) :
    f (Function.update pc t p u) = f (pc u) := by
  by_cases hut : u = t
  · rw [hut, Function.update_self, ht, hp]
  · rw [Function.update_of_ne hut]

/-! ## The mutex -/

/-- The holder is in its critical section, and nobody else is. -/
def Held (holder : Option (Fin n)) (pc : Fin n → Pc) : Prop :=
  ∀ t, holder = some t ↔ (pc t).critical = true

theorem Held.same (h : Held holder pc) (ht : pc t = a) (hp : p.critical = a.critical) :
    Held holder (Function.update pc t p) := by
  intro u
  rw [flag_same ht hp]
  exact h u

theorem Held.take (h : Held none pc) (hp : p.critical = true) :
    Held (some t) (Function.update pc t p) := by
  intro u
  by_cases hut : u = t
  · rw [hut, Function.update_self]
    exact iff_of_true rfl hp
  · rw [Function.update_of_ne hut]
    refine iff_of_false (fun e => hut (Option.some.inj e).symm) fun hc => ?_
    cases (h u).mpr hc

theorem Held.release (h : Held (some t) pc) (hp : p.critical = false) :
    Held none (Function.update pc t p) := by
  intro u
  by_cases hut : u = t
  · rw [hut, Function.update_self, hp]
    exact iff_of_false (Option.some_ne_none t).symm Bool.false_ne_true
  · rw [Function.update_of_ne hut]
    refine iff_of_false (Option.some_ne_none u).symm fun hc => hut ?_
    exact (Option.some.inj ((h u).mpr hc)).symm

/-! ## The counter -/

/-- The threads that have been counted. -/
def Counted (count : ℤ) (pc : Fin n → Pc) : Prop :=
  count = (Finset.univ.filter fun t => (pc t).arrived = true).card

theorem Counted.same (h : Counted count pc) (ht : pc t = a) (hp : p.arrived = a.arrived) :
    Counted count (Function.update pc t p) := by
  unfold Counted at h ⊢
  simp only [flag_same ht hp]
  exact h

theorem Counted.arrive (h : Counted count pc) (ht : pc t = a) (ha : a.arrived = false)
    (hp : p.arrived = true) : Counted (count + 1) (Function.update pc t p) := by
  have hinsert : (Finset.univ.filter fun u => (Function.update pc t p u).arrived = true) =
      insert t (Finset.univ.filter fun u => (pc u).arrived = true) := by
    ext u
    simp only [Finset.mem_filter, Finset.mem_univ, true_and, Finset.mem_insert]
    by_cases hut : u = t
    · rw [hut, Function.update_self]
      exact iff_of_true hp (.inl rfl)
    · rw [Function.update_of_ne hut]
      exact (or_iff_right hut).symm
  have hmem : t ∉ Finset.univ.filter fun u => (pc u).arrived = true := by simp [ht, ha]
  unfold Counted at h ⊢
  rw [hinsert, Finset.card_insert_of_notMem hmem, h]
  push_cast
  rfl

/-- **Everybody has arrived** when the counter says so. -/
theorem Counted.all (h : Counted count pc) (hn : (n : ℤ) ≤ count) (t : Fin n) :
    (pc t).arrived = true := by
  have hcard : (Finset.univ.filter fun t => (pc t).arrived = true).card = Fintype.card (Fin n) := by
    refine Nat.le_antisymm (Finset.card_le_univ _) ?_
    rw [Fintype.card_fin]
    unfold Counted at h
    omega
  have huniv := (Finset.card_eq_iff_eq_univ _).mp hcard
  have hmem : t ∈ Finset.univ.filter fun t => (pc t).arrived = true := by
    rw [huniv]
    exact Finset.mem_univ t
  exact (Finset.mem_filter.mp hmem).2

/-- What the threads have seen of the counter. -/
structure Passed (count : ℤ) (pc : Fin n → Pc) : Prop where
  early : ∀ t, (pc t).early = true → count < n
  late : ∀ t, (pc t).late = true → n ≤ count

theorem Passed.goto (h : Passed count pc) (he : p.early = true → count < n)
    (hl : p.late = true → n ≤ count) : Passed count (Function.update pc t p) := by
  refine ⟨fun u hu => ?_, fun u hu => ?_⟩
  · by_cases hut : u = t
    · rw [hut, Function.update_self] at hu
      exact he hu
    · rw [Function.update_of_ne hut] at hu
      exact h.early u hu
  · by_cases hut : u = t
    · rw [hut, Function.update_self] at hu
      exact hl hu
    · rw [Function.update_of_ne hut] at hu
      exact h.late u hu

theorem Passed.goto_plain (h : Passed count pc) (he : p.early = false) (hl : p.late = false) :
    Passed count (Function.update pc t p) :=
  h.goto (fun e => by simp [he] at e) fun e => by simp [hl] at e

theorem Passed.goto_early (h : Passed count pc) (hl : p.late = false) (hlt : count < n) :
    Passed count (Function.update pc t p) :=
  h.goto (fun _ => hlt) fun e => by simp [hl] at e

theorem Passed.goto_late (h : Passed count pc) (he : p.early = false) (hle : n ≤ count) :
    Passed count (Function.update pc t p) :=
  h.goto (fun e => by simp [he] at e) fun _ => hle

/-! ## The waiters -/

/-- **If everybody has arrived and somebody waits, then somebody is about to wake the waiters.** -/
def Roused (count : ℤ) (pc : Fin n → Pc) (ls : List (Fin n)) : Prop :=
  n ≤ count → ls ≠ [] → ∃ t, (pc t).rousing = true

theorem Roused.same (h : Roused count pc ls) (ht : pc t = a) (hp : p.rousing = a.rousing) :
    Roused count (Function.update pc t p) ls := by
  intro hn hls
  obtain ⟨u, hu⟩ := h hn hls
  exact ⟨u, by rw [flag_same ht hp]; exact hu⟩

theorem roused_goto (hp : p.rousing = true) : Roused count (Function.update pc t p) ls :=
  fun _ _ => ⟨t, by rw [Function.update_self]; exact hp⟩

theorem roused_early (h : count < n) : Roused count pc ls := fun hn => absurd h (not_lt.mpr hn)

/-- The queue is the list `ls` of the threads that sleep, or are about to. -/
structure Waiting (next : Fin n → Option (Fin n)) (q : ThreadQueue (Fin n)) (pc : Fin n → Pc)
    (ls : List (Fin n)) : Prop where
  line : Line next q ls
  free : ∀ t ∉ ls, next t = none
  queued : ∀ t, t ∈ ls ↔ (pc t).queued = true

theorem Waiting.same (h : Waiting next q pc ls) (ht : pc t = a) (hp : p.queued = a.queued) :
    Waiting next q (Function.update pc t p) ls := by
  refine ⟨h.line, h.free, fun u => ?_⟩
  rw [flag_same ht hp]
  exact h.queued u

theorem Waiting.notMem (h : Waiting next q pc ls) (ht : pc t = a) (ha : a.queued = false) :
    t ∉ ls := by
  rw [h.queued t, ht, ha]
  exact Bool.false_ne_true

theorem Waiting.enqueue (h : Waiting next q pc ls) (ht : pc t = a) (ha : a.queued = false)
    (hp : p.queued = true) : Waiting (uthreadEnqueue next q t).1 (uthreadEnqueue next q t).2
      (Function.update pc t p) (ls ++ [t]) := by
  have hmem := h.notMem ht ha
  obtain ⟨hline, hother⟩ := h.line.enqueue hmem (h.free t hmem)
  refine ⟨hline, fun u hu => ?_, fun u => ?_⟩
  · rw [List.mem_append, not_or] at hu
    rw [hother u hu.1]
    exact h.free u hu.1
  · by_cases hut : u = t
    · rw [hut, Function.update_self]
      exact iff_of_true (by simp) hp
    · rw [Function.update_of_ne hut, List.mem_append, List.mem_singleton, or_iff_left hut]
      exact h.queued u

theorem Waiting.dequeue (h : Waiting next q pc (u :: ls)) (hp : p.queued = false) :
    ∃ q', uthreadDequeue next q = (Function.update next u none, q', some u) ∧
      Waiting (Function.update next u none) q' (Function.update pc u p) ls := by
  obtain ⟨q', hdeq, hline⟩ := h.line.dequeue
  have hnd := List.nodup_cons.mp h.line.nodup
  refine ⟨q', hdeq, hline, fun v hv => ?_, fun v => ?_⟩
  · by_cases hvu : v = u
    · rw [hvu, Function.update_self]
    · rw [Function.update_of_ne hvu]
      exact h.free v fun hm => (List.mem_cons.mp hm).elim hvu hv
  · by_cases hvu : v = u
    · rw [hvu, Function.update_self, hp]
      exact iff_of_false hnd.1 Bool.false_ne_true
    · rw [Function.update_of_ne hvu, ← h.queued v, List.mem_cons]
      exact (or_iff_right hvu).symm

/-! ## The output -/

/-- Whoever has started has printed `a`, and `b` comes after that of everybody. -/
structure Logged (log : List (Fin n × Print)) (pc : Fin n → Pc) : Prop where
  started : ∀ t, pc t ≠ .start → (t, .a) ∈ log
  order : ∀ pre t post, log = pre ++ (t, .b) :: post → ∀ u, (u, .a) ∈ pre

theorem Logged.same (h : Logged log pc) (ht : pc t = a) (ha : a ≠ .start) :
    Logged log (Function.update pc t p) := by
  refine ⟨fun u hu => ?_, h.order⟩
  by_cases hut : u = t
  · rw [hut]
    exact h.started t (ht ▸ ha)
  · rw [Function.update_of_ne hut] at hu
    exact h.started u hu

theorem Logged.snoc_a (h : Logged log pc) : Logged (log ++ [(t, .a)]) (Function.update pc t p) := by
  refine ⟨fun u hu => ?_, fun pre v post heq w => ?_⟩
  · by_cases hut : u = t
    · rw [hut]
      simp
    · rw [Function.update_of_ne hut] at hu
      exact List.mem_append_left _ (h.started u hu)
  · rcases List.eq_nil_or_concat post with rfl | ⟨post, x, rfl⟩
    · obtain ⟨-, hx⟩ := List.append_inj' heq rfl
      cases hx
    · rw [List.concat_eq_append, ← List.cons_append, ← List.append_assoc] at heq
      obtain ⟨hlog, -⟩ := List.append_inj' heq rfl
      exact h.order pre v post hlog w

theorem Logged.snoc_b (h : Logged log pc) (hall : ∀ u, pc u ≠ .start) :
    Logged (log ++ [(t, .b)]) (Function.update pc t p) := by
  refine ⟨fun u _ => List.mem_append_left _ (h.started u (hall u)), fun pre v post heq w => ?_⟩
  rcases List.eq_nil_or_concat post with rfl | ⟨post, x, rfl⟩
  · obtain ⟨hlog, -⟩ := List.append_inj' heq rfl
    rw [← hlog]
    exact h.started w (hall w)
  · rw [List.concat_eq_append, ← List.cons_append, ← List.append_assoc] at heq
    obtain ⟨hlog, -⟩ := List.append_inj' heq rfl
    exact h.order pre v post hlog w

/-! ## What is left to do -/

/-- The steps that are left to a thread at most, before and after everybody has arrived. -/
def Pc.work (full : Bool) : Pc → ℕ
  | start => 12
  | toLock => 11
  | increment => 10
  | test => if full then 4 else 9
  | wait => 8
  | waitUnlock => 7
  | asleep => 6
  | woken => 5
  | broadcast => 3
  | unlock => 2
  | print => 1
  | done => 0

def State.full (s : State n) : Bool := decide ((n : ℤ) ≤ s.count)

def State.work (s : State n) : ℕ := ∑ t, (s.pc t).work s.full

theorem work_le (full : Bool) (p : Pc) : p.work full ≤ 12 := by
  cases full <;> cases p <;> decide

theorem work_lt (hpc : s'.pc = Function.update s.pc t p) (hfull : s.full = true → s'.full = true)
    (hp : p.work s'.full < (s.pc t).work s.full) : s'.work < s.work := by
  have hmono : ∀ p : Pc, p.work s'.full ≤ p.work s.full := fun p => by
    cases hf : s.full with
    | true => rw [hfull hf]
    | false => cases s'.full <;> cases p <;> decide
  refine Finset.sum_lt_sum (fun u _ => ?_) ⟨t, Finset.mem_univ t, ?_⟩
  · rw [hpc]
    by_cases hut : u = t
    · rw [hut, Function.update_self]
      exact le_of_lt hp
    · rw [Function.update_of_ne hut]
      exact hmono _
  · rw [hpc, Function.update_self]
    exact hp

/-! ## The invariant -/

structure Inv (s : State n) (ls : List (Fin n)) : Prop where
  held : Held s.holder s.pc
  counted : Counted s.count s.pc
  passed : Passed s.count s.pc
  roused : Roused s.count s.pc ls
  waiting : Waiting s.next s.waiter_queue s.pc ls
  logged : Logged s.printed s.pc

theorem inv_start : Inv (start : State n) [] where
  held _ := iff_of_false (Option.some_ne_none _).symm Bool.false_ne_true
  counted := by simp [Counted, start, Pc.arrived]
  passed := ⟨fun _ h => (Bool.false_ne_true h).elim, fun _ h => (Bool.false_ne_true h).elim⟩
  roused _ h := absurd rfl h
  waiting := ⟨line_initqueue, fun _ _ => rfl,
    fun _ => iff_of_false List.not_mem_nil Bool.false_ne_true⟩
  logged := ⟨fun _ h => absurd rfl h, fun _ _ _ h => by simp [start] at h⟩

theorem Inv.holder_eq (hi : Inv s ls) (ht : (s.pc t).critical = true) : s.holder = some t :=
  (hi.held t).mpr ht

theorem Inv.alone (hi : Inv s ls) (ht : (s.pc t).critical = true) (hu : (s.pc u).critical = true) :
    t = u := Option.some.inj ((hi.holder_eq ht).symm.trans (hi.holder_eq hu))

theorem Inv.all_started (hi : Inv s ls) (ht : (s.pc t).late = true) (u : Fin n) :
    s.pc u ≠ .start := by
  intro hu
  have harr := hi.counted.all (hi.passed.late t ht) u
  rw [hu] at harr
  cases harr

theorem Inv.outside (hi : Inv s ls) (hpc : s.pc t = .start ∨ s.pc t = .print) :
    ∃ s', exec s t = some s' ∧ Inv s' ls ∧ s'.work < s.work := by
  unfold Barrier.exec
  rcases hpc with hpc | hpc
  · rw [hpc]
    refine ⟨_, rfl, ⟨hi.held.same hpc rfl, hi.counted.same hpc rfl,
      hi.passed.goto_plain rfl rfl,
      hi.roused.same hpc rfl, hi.waiting.same hpc rfl, hi.logged.snoc_a⟩,
      work_lt rfl id ?_⟩
    rw [hpc]
    exact Nat.lt_succ_self 11
  · have hlate : (s.pc t).late = true := by rw [hpc]; rfl
    rw [hpc]
    refine ⟨_, rfl, ⟨hi.held.same hpc rfl, hi.counted.same hpc rfl,
      hi.passed.goto_late rfl (hi.passed.late t hlate),
      hi.roused.same hpc rfl, hi.waiting.same hpc rfl,
      hi.logged.snoc_b (hi.all_started hlate)⟩, work_lt rfl id ?_⟩
    rw [hpc]
    exact Nat.one_pos

theorem Inv.lock (hi : Inv s ls) (hh : s.holder = none)
    (hpc : s.pc t = .toLock ∨ s.pc t = .woken) :
    ∃ s', exec s t = some s' ∧ Inv s' ls ∧ s'.work < s.work := by
  have hheld := hi.held
  rw [hh] at hheld
  unfold Barrier.exec
  rcases hpc with hpc | hpc
  · rw [hpc]
    refine ⟨_, rfl, ⟨hheld.take rfl, hi.counted.same hpc rfl,
      hi.passed.goto_plain rfl rfl,
      hi.roused.same hpc rfl, hi.waiting.same hpc rfl,
      hi.logged.same hpc Pc.noConfusion⟩, work_lt rfl id ?_⟩
    rw [hpc]
    exact Nat.lt_succ_self 10
  · have hfull : s.full = true := decide_eq_true (hi.passed.late t (by rw [hpc]; rfl))
    rw [hpc]
    refine ⟨_, rfl, ⟨hheld.take rfl, hi.counted.same hpc rfl,
      hi.passed.goto_plain rfl rfl, roused_goto rfl,
      hi.waiting.same hpc rfl,
      hi.logged.same hpc Pc.noConfusion⟩, work_lt rfl id ?_⟩
    rw [hpc]
    change Pc.work s.full .test < _
    rw [hfull]
    decide

/-- **A thread arrives.** -/
theorem Inv.increment (hi : Inv s ls) (hpc : s.pc t = .increment) :
    ∃ s', exec s t = some s' ∧ Inv s' ls ∧ s'.work < s.work := by
  have hcritical : (s.pc t).critical = true := by rw [hpc]; rfl
  -- nobody else is in its critical section
  have hearly : ∀ u, (s.pc u).early = true → False := fun u hu => by
    have hcrit : (s.pc u).critical = true := by
      revert hu
      cases s.pc u <;> simp [Pc.early, Pc.critical]
    have htu : t = u := hi.alone hcritical hcrit
    rw [← htu, hpc] at hu
    cases hu
  have hpassed : Passed (s.count + 1) s.pc :=
    ⟨fun u hu => (hearly u hu).elim, fun u hu => by have := hi.passed.late u hu; omega⟩
  unfold Barrier.exec
  rw [hpc]
  refine ⟨_, rfl, ⟨hi.held.same hpc rfl, hi.counted.arrive hpc rfl rfl,
    hpassed.goto_plain rfl rfl, roused_goto rfl,
    hi.waiting.same hpc rfl, hi.logged.same hpc Pc.noConfusion⟩,
    work_lt rfl (fun hf => ?_) ?_⟩
  · have hle := of_decide_eq_true hf
    exact decide_eq_true (by change (n : ℤ) ≤ s.count + 1; omega)
  · rw [hpc]
    refine Nat.lt_succ_of_le ?_
    cases State.full _ <;> decide

theorem Inv.test (hi : Inv s ls) (hpc : s.pc t = .test) :
    ∃ s', exec s t = some s' ∧ Inv s' ls ∧ s'.work < s.work := by
  unfold Barrier.exec
  rw [hpc]
  dsimp only
  by_cases hlt : s.count < n
  · have hfull : s.full = false := decide_eq_false (not_le.mpr hlt)
    rw [if_pos hlt]
    refine ⟨_, rfl, ⟨hi.held.same hpc rfl, hi.counted.same hpc rfl,
      hi.passed.goto_early rfl hlt, roused_early hlt,
      hi.waiting.same hpc rfl,
      hi.logged.same hpc Pc.noConfusion⟩, work_lt rfl id ?_⟩
    rw [hpc, hfull]
    exact Nat.lt_succ_self 8
  · have hfull : s.full = true := decide_eq_true (not_lt.mp hlt)
    rw [if_neg hlt]
    refine ⟨_, rfl, ⟨hi.held.same hpc rfl, hi.counted.same hpc rfl,
      hi.passed.goto_late rfl (not_lt.mp hlt), roused_goto rfl,
      hi.waiting.same hpc rfl,
      hi.logged.same hpc Pc.noConfusion⟩, work_lt rfl id ?_⟩
    rw [hpc, hfull]
    exact Nat.lt_succ_self 3

theorem Inv.wait (hi : Inv s ls) (hpc : s.pc t = .wait ∨ s.pc t = .waitUnlock) :
    ∃ s' ls', exec s t = some s' ∧ Inv s' ls' ∧ s'.work < s.work := by
  have hh : s.holder = some t := by
    refine hi.holder_eq ?_
    rcases hpc with hpc | hpc <;> rw [hpc] <;> rfl
  have hlt : s.count < n := by
    refine hi.passed.early t ?_
    rcases hpc with hpc | hpc <;> rw [hpc] <;> rfl
  have hheld := hi.held
  rw [hh] at hheld
  unfold Barrier.exec
  rcases hpc with hpc | hpc
  · rw [hpc]
    dsimp only
    rw [if_pos hh]
    refine ⟨_, ls ++ [t], rfl, ⟨hi.held.same hpc rfl, hi.counted.same hpc rfl,
      hi.passed.goto_early rfl hlt, roused_early hlt,
      hi.waiting.enqueue hpc rfl rfl,
      hi.logged.same hpc Pc.noConfusion⟩, work_lt rfl id ?_⟩
    rw [hpc]
    exact Nat.lt_succ_self 7
  · rw [hpc]
    dsimp only
    rw [if_pos hh]
    refine ⟨_, ls, rfl, ⟨hheld.release rfl, hi.counted.same hpc rfl,
      hi.passed.goto_plain rfl rfl, roused_early hlt,
      hi.waiting.same hpc rfl,
      hi.logged.same hpc Pc.noConfusion⟩, work_lt rfl id ?_⟩
    rw [hpc]
    exact Nat.lt_succ_self 6

/-- **The broadcast** wakes one waiter after another. -/
theorem Inv.broadcast (hi : Inv s ls) (hpc : s.pc t = .broadcast) :
    ∃ s' ls', exec s t = some s' ∧ Inv s' ls' ∧ s'.work < s.work := by
  have hcritical : (s.pc t).critical = true := by rw [hpc]; rfl
  have hh := hi.holder_eq hcritical
  have hge := hi.passed.late t (by rw [hpc]; rfl)
  unfold Barrier.exec
  rw [hpc]
  dsimp only
  rw [if_pos hh]
  cases ls with
  | nil =>
    rw [hi.waiting.line.dequeue_nil]
    refine ⟨_, [], rfl, ⟨hi.held.same hpc rfl, hi.counted.same hpc rfl,
      hi.passed.goto_late rfl hge, fun _ h => absurd rfl h,
      hi.waiting.same hpc rfl,
      hi.logged.same hpc Pc.noConfusion⟩, work_lt rfl id ?_⟩
    rw [hpc]
    exact Nat.lt_succ_self 2
  | cons u ls =>
    obtain ⟨q', hdeq, hw⟩ := hi.waiting.dequeue (p := .woken) rfl
    have hqu : (s.pc u).queued = true := (hi.waiting.queued u).mp List.mem_cons_self
    -- the thread is not in front of its `uthread_mutex_unlock`
    have hu : s.pc u = .asleep := by
      cases hpu : s.pc u with
      | asleep => rfl
      | waitUnlock =>
        have htu : t = u := hi.alone hcritical (by rw [hpu]; rfl)
        rw [← htu, hpc] at hpu
        cases hpu
      | _ =>
        rw [hpu] at hqu
        cases hqu
    have htu : t ≠ u := fun e => by
      rw [← e, hpc] at hu
      cases hu
    have hroused : Roused s.count (Function.update s.pc u .woken) ls := fun _ _ => by
      refine ⟨t, ?_⟩
      rw [Function.update_of_ne htu, hpc]
      rfl
    rw [hdeq]
    dsimp only [uthreadUnblock]
    rw [hu]
    refine ⟨_, ls, rfl, ⟨hi.held.same hu rfl, hi.counted.same hu rfl,
      hi.passed.goto_late rfl hge, hroused, hw,
      hi.logged.same hu Pc.noConfusion⟩, work_lt rfl id ?_⟩
    rw [hu]
    exact Nat.lt_succ_self 5

/-- A thread gives the mutex back. There are no waiters then. -/
theorem Inv.unlock (hi : Inv s ls) (hpc : s.pc t = .unlock) :
    ∃ s', exec s t = some s' ∧ Inv s' ls ∧ s'.work < s.work := by
  have hcritical : (s.pc t).critical = true := by rw [hpc]; rfl
  have hh := hi.holder_eq hcritical
  have hge := hi.passed.late t (by rw [hpc]; rfl)
  have hheld := hi.held
  rw [hh] at hheld
  have hnil : ls = [] := by
    by_contra hls
    obtain ⟨u, hu⟩ := hi.roused hge hls
    have hcrit : (s.pc u).critical = true := by
      revert hu
      cases s.pc u <;> simp [Pc.rousing, Pc.critical]
    have htu : t = u := hi.alone hcritical hcrit
    rw [← htu, hpc] at hu
    cases hu
  unfold Barrier.exec
  rw [hpc]
  dsimp only
  rw [if_pos hh]
  refine ⟨_, rfl, ⟨hheld.release rfl, hi.counted.same hpc rfl,
    hi.passed.goto_late rfl hge, fun _ h => absurd hnil h,
    hi.waiting.same hpc rfl,
    hi.logged.same hpc Pc.noConfusion⟩, work_lt rfl id ?_⟩
  rw [hpc]
  exact Nat.lt_succ_self 1

/-- **Every step** keeps the invariant, and leaves less to do. -/
theorem Inv.exec (hi : Inv s ls) (hr : Ready s t) :
    ∃ s' ls', exec s t = some s' ∧ Inv s' ls' ∧ s'.work < s.work := by
  unfold Ready at hr
  cases hpc : s.pc t with
  | start =>
    obtain ⟨s', h⟩ := hi.outside (.inl hpc)
    exact ⟨s', ls, h⟩
  | print =>
    obtain ⟨s', h⟩ := hi.outside (.inr hpc)
    exact ⟨s', ls, h⟩
  | toLock =>
    rw [hpc] at hr
    obtain ⟨s', h⟩ := hi.lock hr (.inl hpc)
    exact ⟨s', ls, h⟩
  | woken =>
    rw [hpc] at hr
    obtain ⟨s', h⟩ := hi.lock hr (.inr hpc)
    exact ⟨s', ls, h⟩
  | increment =>
    obtain ⟨s', h⟩ := hi.increment hpc
    exact ⟨s', ls, h⟩
  | test =>
    obtain ⟨s', h⟩ := hi.test hpc
    exact ⟨s', ls, h⟩
  | unlock =>
    obtain ⟨s', h⟩ := hi.unlock hpc
    exact ⟨s', ls, h⟩
  | wait => exact hi.wait (.inl hpc)
  | waitUnlock => exact hi.wait (.inr hpc)
  | broadcast => exact hi.broadcast hpc
  | asleep | done =>
    rw [hpc] at hr
    exact hr.elim

/-- **No wake-up is lost.** -/
theorem Inv.not_lost (hi : Inv s ls) : ¬Lost s := by
  rintro ⟨⟨t, ht⟩, hall⟩
  have harrived : ∀ u, (s.pc u).arrived = true := fun u => by
    by_cases hu : s.pc u = .done
    · rw [hu]
      rfl
    · rw [hall u hu]
      rfl
  have hcount : (n : ℤ) ≤ s.count := by
    have hcounted := hi.counted
    unfold Counted at hcounted
    simp only [harrived, Finset.filter_true, Finset.card_univ, Fintype.card_fin] at hcounted
    exact le_of_eq hcounted.symm
  have hls : ls ≠ [] := by
    refine List.ne_nil_of_mem ((hi.waiting.queued t).mpr ?_)
    rw [hall t ht]
    rfl
  obtain ⟨u, hu⟩ := hi.roused hcount hls
  by_cases hdone : s.pc u = .done
  · rw [hdone] at hu
    cases hu
  · rw [hall u hdone] at hu
    cases hu

/-! ## Runs -/

theorem reach_inv {o : Option (State n)} (h : (barrierRun n).Reach o) :
    ∃ s, o = some s ∧ ∃ ls, Inv s ls := by
  have h := Sys.Reach.restrict_of_forall (fun _ _ => trivial) h
  refine Sys.Reach.defined (P := fun _ _ => True) ?_ ?_ h
  · rintro s rfl
    exact ⟨[], inv_start⟩
  · rintro s t ⟨ls, hi⟩ hready -
    obtain ⟨s', ls', hs, hi', -⟩ := hi.exec hready
    exact ⟨s', hs, ls', hi'⟩

/-- **The barrier works** for any number of threads and in every run: no assertion fails, nobody
prints `b` before everybody has printed `a`, and it never happens that all who have not finished sleep
without a wake-up. -/
theorem barrier_holds {o : Option (State n)} (h : (barrierRun n).Reach o) :
    ∃ s, o = some s ∧ InOrder s ∧ ¬Lost s := by
  obtain ⟨s, rfl, ls, hi⟩ := reach_inv h
  exact ⟨s, rfl, hi.logged.order, hi.not_lost⟩

/-- Two of three threads sleep. The third one wakes them, and is through before they go on. -/
theorem barrier_holds_three :
    (∃ s : State 3, (barrierRun 3).Reach (some s) ∧
      (s.pc 0 = .asleep ∧ s.pc 1 = .asleep ∧ s.pc 2 = .broadcast) ∧ InOrder s ∧ ¬Lost s) ∧
    ∃ s : State 3, (barrierRun 3).Reach (some s) ∧
      (s.pc 0 = .woken ∧ s.pc 1 = .broadcast ∧ s.printed = [(0, .a), (1, .a), (2, .a), (2, .b)]) ∧
      InOrder s ∧ ¬Lost s := by
  let arrivals : List (Fin 3) := List.replicate 6 0 ++ List.replicate 6 1 ++ List.replicate 4 2
  constructor
  · obtain ⟨s, hs, hpc⟩ : ∃ s : State 3, (barrierRun 3).Reach (some s) ∧
        s.pc 0 = .asleep ∧ s.pc 1 = .asleep ∧ s.pc 2 = .broadcast :=
      Sys.Reach.of_follow rfl arrivals (by decide +kernel)
    obtain ⟨_, ⟨⟩, hsafe⟩ := barrier_holds hs
    exact ⟨s, hs, hpc, hsafe⟩
  · obtain ⟨s, hs, hpc⟩ : ∃ s : State 3, (barrierRun 3).Reach (some s) ∧
        s.pc 0 = .woken ∧ s.pc 1 = .broadcast ∧
        s.printed = [(0, .a), (1, .a), (2, .a), (2, .b)] :=
      Sys.Reach.of_follow rfl (arrivals ++ List.replicate 5 2 ++ [1, 1]) (by decide +kernel)
    obtain ⟨_, ⟨⟩, hsafe⟩ := barrier_holds hs
    exact ⟨s, hs, hpc, hsafe⟩

/-- **Every run comes to its end**, with everybody finished: each step leaves less to do, and where
nobody can take one all have finished. -/
theorem barrier_ends (h : (barrierRun n).Reach (some s)) :
    s.work ≤ n * 12 ∧ (∀ t, Ready s t → ∃ s', exec s t = some s' ∧ s'.work < s.work) ∧
      ((∀ t, ¬Ready s t) → ∀ t, s.pc t = .done) := by
  obtain ⟨_, heq, ls, hi⟩ := reach_inv h
  cases heq
  refine ⟨?_, fun t ht => ?_, fun hstuck t => ?_⟩
  · have hsum := Finset.sum_le_card_nsmul Finset.univ (fun t => (s.pc t).work s.full) 12
      fun t _ => work_le _ _
    rw [Finset.card_univ, Fintype.card_fin, smul_eq_mul] at hsum
    exact hsum
  · obtain ⟨s', -, hs, -, hlt⟩ := hi.exec ht
    exact ⟨s', hs, hlt⟩
  · have hfree : s.holder = none := by
      cases hh : s.holder with
      | none => rfl
      | some u =>
        have hcrit := (hi.held u).mp hh
        refine (hstuck u ?_).elim
        unfold Ready
        revert hcrit
        cases s.pc u <;> simp [Pc.critical]
    by_contra ht
    refine hi.not_lost ⟨⟨t, ht⟩, fun u hu => ?_⟩
    have hnot := hstuck u
    unfold Ready at hnot
    revert hnot
    cases hpu : s.pc u <;> simp [hfree, hpu] at hu ⊢

/-- All three threads are through. -/
theorem barrier_ends_three : ∃ s : State 3, (barrierRun 3).Reach (some s) ∧ s.printed.length = 6 ∧
    s.work ≤ 36 ∧ ∀ t, s.pc t = .done := by
  obtain ⟨s, hs, hprinted, hstuck⟩ : ∃ s : State 3, (barrierRun 3).Reach (some s) ∧
      s.printed.length = 6 ∧ ∀ t, ¬Ready s t :=
    Sys.Reach.of_follow rfl (List.replicate 6 0 ++ List.replicate 6 1 ++ List.replicate 9 2 ++
      List.replicate 5 1 ++ List.replicate 5 0) (by decide +kernel)
  obtain ⟨hwork, -, hends⟩ := barrier_ends hs
  exact ⟨s, hs, hprinted, hwork, hends hstuck⟩

end IntroSystems.Barrier
