import IntroSystems.Lib.Exchange
import IntroSystems.Uthread.CondRefines
import Mathlib.Algebra.BigOperators.Fin

/-!
# The pool

`pc_mutex_cond.c` of the uthread examples: producers and consumers of a pool that counts its items,
with a histogram of the counts. Threads of an odd number produce, and the others consume.

* `Pool`, `producer`, `consumer`, `pool`. A failed assertion is undefined. `Pool.sum`: what `main`
  adds up in the end.
* `Pool.counted`: the sum of the histogram, without a bound. `counted_countItems`, `toNat_sum`: it is
  what the `int`s are, as long as it fits.
* `pool_cases`, `pool_exchange`, `reach_counted`: what a section does, and all of them.
* **`assertions_hold`**: over the code of the mutex and the conditions, no assertion fails, up to the
  one about the histogram in the end.
-/

set_option autoImplicit false

namespace IntroSystems.Buffers

open Monitor

def MAX_ITEMS : ℕ := 10

/-- The pool's `items`, and the global variables. -/
structure Pool where
  items : ℤ
  histogram : Fin (MAX_ITEMS + 1) → BitVec 32
  producer_wait_count : BitVec 32
  consumer_wait_count : BitVec 32

/-- `assert` and `histogram [p->items] ++`. -/
def countItems (p : Pool) : Option Pool :=
  if h : 0 ≤ p.items ∧ p.items ≤ MAX_ITEMS then
    let k : Fin (MAX_ITEMS + 1) := ⟨p.items.toNat, by omega⟩
    some { p with histogram := Function.update p.histogram k (p.histogram k + 1) }
  else none

/-- The loop over the histogram at the end of `main`. -/
def Pool.sum (p : Pool) : BitVec 32 := (List.ofFn p.histogram).foldl (· + ·) 0

/-- What a section gives: the pool, the conditions signalled, and how it ends. -/
abbrev PoolResult := Pool × List Gate × Exit Gate ℕ

def producer (i : ℕ) (p : Pool) : Option PoolResult :=
  if p.items = MAX_ITEMS then
    some ({ p with producer_wait_count := p.producer_wait_count + 1 }, [], .wait .notFull i)
  else
    (countItems { p with items := p.items + 1 }).map fun p => (p, [.notEmpty], .leave (i + 1))

def consumer (i : ℕ) (p : Pool) : Option PoolResult :=
  if p.items = 0 then
    some ({ p with consumer_wait_count := p.consumer_wait_count + 1 }, [], .wait .notEmpty i)
  else
    (countItems { p with items := p.items - 1 }).map fun p => (p, [.notFull], .leave (i + 1))

/-- `(i & 1)? producer : consumer`. -/
def role {m : ℕ} (t : Fin (2 * m)) : Gate := if t.val % 2 = 1 then .notFull else .notEmpty

/-- The threads of `main`, `2 * m` of them. -/
def pool (m NUM_ITERATIONS : ℕ) : Program (Fin (2 * m)) ℕ Pool Gate where
  start := 0
  data := ⟨0, fun _ => 0, 0, 0⟩
  finished i := decide (NUM_ITERATIONS ≤ i)
  body t := if t.val % 2 = 1 then producer else consumer

variable {m iterations : ℕ} {p p' : Pool} {i : ℕ} {t : Fin (2 * m)}

/-- What is in the pool, and what there is still room for. -/
def space (g : Gate) (p : Pool) : ℕ :=
  match g with
  | .notEmpty => p.items.toNat
  | .notFull => MAX_ITEMS - p.items.toNat

def InBounds (p : Pool) : Prop := 0 ≤ p.items ∧ p.items ≤ MAX_ITEMS

/-! ### The histogram -/

/-- What the cells of the histogram add up to. -/
def Pool.counted (p : Pool) : ℕ := ∑ k, (p.histogram k).toNat

theorem sum_update_succ {ι : Type} [Fintype ι] [DecidableEq ι] (f : ι → ℕ) (i : ι) :
    ∑ j, Function.update f i (f i + 1) j = ∑ j, f j + 1 := by
  rw [Finset.sum_update_of_mem (Finset.mem_univ i), Finset.sdiff_singleton_eq_erase,
    ← Finset.add_sum_erase _ f (Finset.mem_univ i)]
  omega

/-- **The assertion holds**, and the count is in the histogram. -/
theorem counted_countItems (h : InBounds p) : ∃ p', countItems p = some p' ∧ p'.items = p.items ∧
    (p.counted + 1 < 2 ^ 32 → p'.counted = p.counted + 1) := by
  refine ⟨_, dif_pos h, rfl, fun hlt => ?_⟩
  let k : Fin (MAX_ITEMS + 1) := ⟨p.items.toNat, by unfold InBounds at h; omega⟩
  have hcell : (p.histogram k).toNat ≤ p.counted :=
    Finset.single_le_sum (f := fun k => (p.histogram k).toNat) (fun _ _ => Nat.zero_le _)
      (Finset.mem_univ k)
  have hsucc : (p.histogram k + 1).toNat = (p.histogram k).toNat + 1 := by
    rw [BitVec.toNat_add, show (1 : BitVec 32).toNat = 1 from rfl]
    omega
  have hupdate : ∀ j, (Function.update p.histogram k (p.histogram k + 1) j).toNat =
      Function.update (fun j => (p.histogram j).toNat) k ((p.histogram k).toNat + 1) j := fun j => by
    rw [Function.apply_update (fun _ => BitVec.toNat), hsucc]
  change ∑ j, (Function.update p.histogram k (p.histogram k + 1) j).toNat = _
  rw [Finset.sum_congr rfl fun j _ => hupdate j, sum_update_succ]
  rfl

theorem toNat_foldl_add (l : List (BitVec 32)) {v : BitVec 32}
    (h : v.toNat + (l.map BitVec.toNat).sum < 2 ^ 32) :
    (l.foldl (· + ·) v).toNat = v.toNat + (l.map BitVec.toNat).sum := by
  induction l generalizing v with
  | nil => rfl
  | cons w l ih =>
    rw [List.map_cons, List.sum_cons] at h ⊢
    have hadd : (v + w).toNat = v.toNat + w.toNat := by
      rw [BitVec.toNat_add]
      omega
    rw [List.foldl_cons, ih (by omega), hadd, Nat.add_assoc]

/-- **What `main` adds up**, if it fits. -/
theorem toNat_sum (h : p.counted < 2 ^ 32) : p.sum.toNat = p.counted := by
  have hsum : ((List.ofFn p.histogram).map BitVec.toNat).sum = p.counted := by
    rw [List.map_ofFn, List.sum_ofFn]
    rfl
  rw [Pool.sum, toNat_foldl_add _ (by rw [hsum]; simpa using h), hsum]
  exact Nat.zero_add _

/-! ### The sections -/

theorem pool_cases (iterations : ℕ) (t : Fin (2 * m)) (i : ℕ) (h : InBounds p) : ∃ p', InBounds p' ∧
    (space (role t) p = 0 ∧ p'.items = p.items ∧ p'.counted = p.counted ∧
        (pool m iterations).body t i p = some (p', [], .wait (role t) i) ∨
      space (role t) p = space (role t) p' + 1 ∧
        space (role t).other p' = space (role t).other p + 1 ∧
        (p.counted + 1 < 2 ^ 32 → p'.counted = p.counted + 1) ∧
        (pool m iterations).body t i p = some (p', [(role t).other], .leave (i + 1))) := by
  obtain ⟨h0, h1⟩ := h
  unfold role
  by_cases ht : t.val % 2 = 1
  · have hbody : (pool m iterations).body t i p = producer i p := by simp [pool, ht]
    simp only [if_pos ht, hbody, producer, space, Gate.other]
    by_cases hfull : p.items = MAX_ITEMS
    · simp only [if_pos hfull]
      refine ⟨_, ?_, .inl ⟨?_, ?_, ?_, rfl⟩⟩
      · exact ⟨h0, h1⟩
      · omega
      · rfl
      · rfl
    · have hb : InBounds { p with items := p.items + 1 } := ⟨by simp; omega, by simp; omega⟩
      obtain ⟨p', hp', hitems, hsum⟩ := counted_countItems hb
      simp only [if_neg hfull, hp', Option.map_some]
      simp only at hitems
      exact ⟨p', ⟨by omega, by omega⟩, .inr ⟨by omega, by omega, hsum, rfl⟩⟩
  · have hbody : (pool m iterations).body t i p = consumer i p := by simp [pool, ht]
    simp only [if_neg ht, hbody, consumer, space, Gate.other]
    by_cases hempty : p.items = 0
    · simp only [if_pos hempty]
      refine ⟨_, ?_, .inl ⟨?_, ?_, ?_, rfl⟩⟩
      · exact ⟨h0, h1⟩
      · omega
      · rfl
      · rfl
    · have hb : InBounds { p with items := p.items - 1 } := ⟨by simp; omega, by simp; omega⟩
      obtain ⟨p', hp', hitems, hsum⟩ := counted_countItems hb
      simp only [if_neg hempty, hp', Option.map_some]
      simp only at hitems
      exact ⟨p', ⟨by omega, by omega⟩, .inr ⟨by omega, by omega, hsum, rfl⟩⟩

/-- **Producers and consumers.** -/
theorem pool_exchange : Exchange (pool m iterations) role iterations MAX_ITEMS InBounds space where
  start := rfl
  finished _ := rfl
  data := ⟨le_rfl, by simp [pool]⟩
  empty := rfl
  cap := by
    rintro p ⟨h0, h1⟩
    simp only [space]
    omega
  body := by
    intro t i p h
    obtain ⟨p', h', ⟨h0, hitems, -, hb⟩ | ⟨h1, h2, -, hb⟩⟩ := pool_cases iterations t i h
    · refine ⟨p', h', .inl ⟨h0, fun g => ?_, hb⟩⟩
      cases g <;> simp [space, hitems]
    · exact ⟨p', h', .inr ⟨h1, h2, hb⟩⟩

theorem total_flow_role : Tally.total (Exchange.flow (role (m := m))) (fun _ => 1) = 0 := by
  have hsum : ∀ k : ℕ,
      ∑ t : Fin (2 * k), (if t.val % 2 = 1 then (1 : ℤ) else -1) = 0 := by
    intro k
    induction k with
    | zero => rfl
    | succ k ih =>
      change ∑ t : Fin (2 * k + 1 + 1), (if t.val % 2 = 1 then (1 : ℤ) else -1) = 0
      rw [Fin.sum_univ_castSucc, Fin.sum_univ_castSucc]
      simp only [Fin.val_castSucc, Fin.val_last, ih]
      rw [if_neg (by omega), if_pos (by omega)]
      rfl
  rw [Tally.total, ← hsum m]
  refine Finset.sum_congr rfl fun t _ => ?_
  unfold Exchange.flow role
  by_cases ht : t.val % 2 = 1 <;> simp [ht]

variable {σ : State (Fin (2 * m)) ℕ Pool Gate}

/-- **The histogram counts the rounds**, in every run of the monitor. -/
theorem reach_counted (hlt : 2 * m * iterations < 2 ^ 31) (hr : (sys (pool m iterations)).Reach σ) :
    σ.data.counted = ∑ t, σ.pc t ∧ ∑ t, σ.pc t ≤ 2 * m * iterations := by
  have hbound : ∀ σ, (sys (pool m iterations)).Reach σ → ∑ t, σ.pc t ≤ 2 * m * iterations := by
    intro σ hr
    have hle := Finset.sum_le_card_nsmul Finset.univ σ.pc iterations
      fun t _ => (pool_exchange.reach_inv hr).le t
    rwa [Finset.card_univ, Fintype.card_fin, smul_eq_mul] at hle
  refine ⟨?_, hbound σ hr⟩
  refine reach_induction (I := fun σ => σ.data.counted = ∑ t, σ.pc t) ?_ ?_ ?_ hr
  · simp [pool, Pool.counted]
  · intro s t h
    exact h
  · intro s t r hr h ht hb
    have hle := hbound s hr
    obtain ⟨p', -, ⟨-, -, hh, hb'⟩ | ⟨-, -, hsum, hb'⟩⟩ :=
      pool_cases iterations t (s.pc t) (pool_exchange.reach_inv hr).data
    · cases hb.symm.trans hb'
      change p'.counted = _
      rw [hh, h]
      simp [State.after]
    · cases hb.symm.trans hb'
      change p'.counted = ∑ u, Function.update s.pc t (s.pc t + 1) u
      rw [hsum (by omega), h, sum_update_succ]

/-! ## Over the code -/

/-- **No assertion fails**, and when no thread can go on, all are through, and the sum of the
histogram is the number of rounds. The counters are `int`s, and this number has to fit. -/
theorem assertions_hold (m iterations : ℕ) (hlt : 2 * m * iterations < 2 ^ 31)
    {o : Option (Uthread.Cond.State (Fin (2 * m)) ℕ Pool Gate)}
    (hr : (Uthread.Cond.sys (pool m iterations)).Reach o) :
    ∃ s, o = some s ∧ InBounds s.data ∧ s.data.counted = ∑ t, (s.pc t).point ∧
      s.data.counted ≤ 2 * m * iterations ∧
      ((∀ t, ¬Uthread.Cond.Ready (pool m iterations) s t) →
        (∀ t, s.pc t = .outside iterations) ∧ s.data.items = 0 ∧
        s.data.sum.toInt = 2 * m * iterations) := by
  obtain ⟨s, ls, a, rfl, ha, h⟩ :=
    Uthread.Cond.reach_some (fun a t ha _ => pool_exchange.defined ha t (a.pc t)) hr
  have hdata := (pool_exchange.reach_inv ha).data
  obtain ⟨hsum, hle⟩ := reach_counted hlt ha
  have hpoint : a.pc = fun t => (s.pc t).point := funext h.point
  refine ⟨s, rfl, h.data ▸ hdata, ?_, ?_, fun hstuck => ?_⟩
  · rw [← h.data, hsum, hpoint]
  · rw [← h.data, hsum]
    exact hle
  · have hdone := pool_exchange.complete (by decide) total_flow_role ha (h.stuck hstuck).2
    have hpc : a.pc = fun _ => iterations := funext fun t => (hdone t).1
    refine ⟨fun t => ?_, ?_, ?_⟩
    · rcases h.stuck_at hstuck t with ⟨hout, -⟩ | ⟨-, hb⟩
      · rw [hout, (hdone t).1]
      · exact absurd hb (hdone t).2
    · have hflow := (pool_exchange.reach_inv ha).missing total_flow_role
      rw [Finset.sum_congr rfl fun t _ => by rw [(hdone t).1, sub_self, ite_self]] at hflow
      rw [Finset.sum_const_zero, space] at hflow
      rw [← h.data]
      have h0 := hdata.1
      omega
    · have hnat : a.data.sum.toNat = 2 * m * iterations := by
        rw [toNat_sum (by omega), hsum, hpc]
        simp
      rw [← h.data, BitVec.toInt_eq_toNat_of_lt (by omega), hnat]
      push_cast
      rfl

/-- The consumer waits, and the producer fills the pool and wakes it. In the end both are through. -/
theorem assertions_hold_two :
    (∃ s, (Uthread.Cond.sys (pool 1 1)).Reach (some s) ∧ s.data.consumer_wait_count = 1 ∧
      s.data.items = 1 ∧ InBounds s.data ∧ s.data.counted = ∑ t, (s.pc t).point) ∧
    ∃ s, (Uthread.Cond.sys (pool 1 1)).Reach (some s) ∧ s.data.consumer_wait_count = 1 ∧
      (∀ t, s.pc t = .outside 1) ∧ s.data.items = 0 ∧ s.data.sum.toInt = 2 := by
  constructor
  · obtain ⟨s, hs, hq⟩ : ∃ s, (Uthread.Cond.sys (pool 1 1)).Reach (some s) ∧
        s.data.consumer_wait_count = 1 ∧ s.data.items = 1 :=
      Sys.Reach.of_follow rfl [0, 0, 0, 0, 0, 1, 1] (by decide +kernel)
    obtain ⟨_, ⟨⟩, hb, hc, -⟩ := assertions_hold 1 1 (by decide) hs
    exact ⟨s, hs, hq.1, hq.2, hb, hc⟩
  · obtain ⟨s, hs, hq, hstuck⟩ : ∃ s, (Uthread.Cond.sys (pool 1 1)).Reach (some s) ∧
        s.data.consumer_wait_count = 1 ∧ ∀ t, ¬Uthread.Cond.Ready (pool 1 1) s t :=
      Sys.Reach.of_follow rfl [0, 0, 0, 0, 0, 1, 1, 1, 1, 0, 0, 0, 0] (by decide +kernel)
    obtain ⟨_, ⟨⟩, -, -, -, hend⟩ := assertions_hold 1 1 (by decide) hs
    exact ⟨s, hs, hq, hend hstuck⟩

end IntroSystems.Buffers
