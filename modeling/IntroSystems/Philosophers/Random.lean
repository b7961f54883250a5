import IntroSystems.Philosophers.Forks

/-!
# Philosophers that toss a coin

`phil-random.c`. A philosopher takes the mutex of a random side first. It goes on to wait for the
other mutex only if it has seen the other fork free, in a read that no lock protects.

* `phil_thread`, `program`.
* `roles`, **`fit`**: what a philosopher holds where.
* `Ranked`: the philosophers that wait for a second fork can be numbered in the order in which they
  saw it free, and that order rises along every chain of waiting. **`random_not_stuck`**: no
  deadlock.
-/

set_option autoImplicit false

namespace IntroSystems.Philosophers.Random

open Locks

/-- A place in `phil_thread`; `d` is the side of the first fork. `seen` is before the mutex of the
second one. -/
inductive Place
  | loop
  | toss
  | lock (d : Side)
  | test (d : Side)
  | take (d : Side)
  | look (d : Side)
  | seen (d : Side)
  | takeOther (d : Side)
  | setFree (d : Side)
  | giveBack (d : Side)
  | eat
  | put (d : Side)
  | unlock (d : Side)
  | done
  deriving DecidableEq

variable {n : ℕ}

/-- `phil_thread`. The body of `while (!hasForks)` is the places `toss` to `giveBack`. -/
def phil_thread (num_meals : ℤ) (p : Fin n) (l : Local Place) : Instr (Fin n) (Local Place) :=
  match l.place with
  | .loop => .goto (l.loop num_meals .toss .done)
  | .toss => .toss fun b => { l with place := .lock (if b then .left else .right) }
  | .lock d => .lock (fork p d) { l with place := .test d }
  | .test d => .read (fork p d) fun free => { l with place := if free = 1 then .take d else .look d }
  | .take d => .write (fork p d) 0 { l with place := .look d }
  | .look d =>
    .read (fork p d.other) fun free => { l with place := if free = 1 then .seen d else .setFree d }
  | .seen d => .lock (fork p d.other) { l with place := .takeOther d }
  | .takeOther d => .write (fork p d.other) 0 { l with place := .eat }
  | .setFree d => .write (fork p d) 1 { l with place := .giveBack d }
  | .giveBack d => .unlock (fork p d) { l with place := .toss }
  | .eat => .goto { place := .put .right, meals := l.meals + 1 }
  | .put d => .write (fork p d) 1 { l with place := .unlock d }
  | .unlock .right => .unlock (fork p .right) { l with place := .put .left }
  | .unlock .left => .unlock (fork p .left) { l with place := .loop }
  | .done => .stop

/-- The threads that `main` creates, and the forks as `initfork` leaves them. -/
def program (n : ℕ) (num_meals : ℤ) : Program (Fin n) (Fin n) (Local Place) where
  start := ⟨.loop, 0⟩
  flag := fun _ => 1
  instr := phil_thread num_meals

/-- From the second `free = 0` to the first `putfork`. -/
def Place.eats : Place → Prop
  | .eat | .put .right => True
  | _ => False

/-! ## Roles -/

/-- The mutexes that philosopher `p` holds. -/
def holds (p : Fin n) : Place → Set (Fin n)
  | .loop | .toss | .lock _ | .done => ∅
  | .test d | .take d | .look d | .seen d | .setFree d | .giveBack d => {fork p d}
  | .takeOther _ | .eat | .put .right | .unlock .right => both p
  | .put .left | .unlock .left => {leftfork p}

/-- The forks whose `free` it has cleared. -/
def uses (p : Fin n) : Place → Set (Fin n)
  | .loop | .toss | .lock _ | .test _ | .take _ | .giveBack _ | .unlock .left | .done => ∅
  | .look d | .seen d | .takeOther d | .setFree d => {fork p d}
  | .eat | .put .right => both p
  | .unlock .right | .put .left => {leftfork p}

def visits (num_meals : ℤ) (l : Local Place) : Prop :=
  match l.place with
  | .loop | .put _ | .unlock _ => 0 ≤ l.meals ∧ l.meals ≤ max num_meals 0
  | .done => l.meals = max num_meals 0
  | _ => 0 ≤ l.meals ∧ l.meals < num_meals

def roles (n : ℕ) (num_meals : ℤ) : Roles (Fin n) (Fin n) (Local Place) where
  holds p l := holds p l.place
  uses p l := uses p l.place
  visits _ l := visits num_meals l

variable {num_meals : ℤ}

theorem uses_subset (p : Fin n) (pl : Place) : uses p pl ⊆ holds p pl := by
  have hleft : ({leftfork p} : Set (Fin n)) ⊆ both p := Set.singleton_subset_iff.mpr (.inl rfl)
  cases pl with
  | takeOther d =>
    rw [uses, holds, ← pair_fork p d]
    exact Set.subset_insert _ _
  | put d | unlock d => cases d <;> simp [uses, holds, hleft]
  | _ => simp [uses, holds]

/-- **The program keeps to the roles.** -/
theorem fit (hn : 2 ≤ n) (num_meals : ℤ) : (roles n num_meals).Fit (program n num_meals) := by
  refine ⟨fun p => ⟨le_refl _, le_max_right _ _⟩, fun p => rfl, fun f => rfl,
    fun p l _ => uses_subset p l.place, fun p l hv => ?_⟩
  obtain ⟨pl, m⟩ := l
  have hother : ∀ d : Side, fork p d.other ∈ both p := fun d => pair_fork p d ▸ Set.mem_insert _ _
  cases pl with
  | loop =>
    have hv : 0 ≤ m ∧ m ≤ max num_meals 0 := hv
    change (roles n num_meals).Same p ⟨.loop, m⟩
      ((Local.mk Place.loop m).loop num_meals .toss .done)
    rcases Local.loop_cases (Local.mk Place.loop m) num_meals .toss .done with
      ⟨hm, e⟩ | ⟨hm, e⟩ <;> rw [e]
    · exact ⟨⟨hv.1, hm⟩, rfl, rfl⟩
    · have hm : num_meals ≤ m := hm
      refine ⟨?_, rfl, rfl⟩
      change m = max num_meals 0
      omega
  | toss => exact fun b => ⟨hv, rfl, rfl⟩
  | lock d => exact ⟨hv, (insert_empty_eq _).symm, rfl⟩
  | test d =>
    intro v h
    -- the fork is held and not used
    obtain rfl : v = 1 := h rfl (Set.notMem_empty _)
    exact ⟨hv, rfl, rfl⟩
  | take d => exact ⟨hv, rfl, rfl, .inl ⟨rfl, (insert_empty_eq _).symm⟩⟩
  | look d =>
    -- the other fork may be anybody's
    intro v _
    by_cases h : v = 1
    · subst h
      exact ⟨hv, rfl, rfl⟩
    · simp only [if_neg h]
      exact ⟨hv, rfl, rfl⟩
  | seen d => exact ⟨hv, (pair_fork p d).symm, rfl⟩
  | takeOther d => exact ⟨hv, hother d, rfl, .inl ⟨rfl, (pair_fork p d).symm⟩⟩
  | setFree d => exact ⟨hv, rfl, rfl, .inr ⟨rfl, sdiff_self.symm⟩⟩
  | giveBack d => exact ⟨hv, rfl, sdiff_self.symm, rfl⟩
  | eat =>
    have hv : 0 ≤ m ∧ m < num_meals := hv
    refine ⟨?_, rfl, rfl⟩
    change 0 ≤ m + 1 ∧ m + 1 ≤ max num_meals 0
    omega
  | put d =>
    cases d with
    | left => exact ⟨hv, rfl, rfl, .inr ⟨rfl, sdiff_self.symm⟩⟩
    | right => exact ⟨hv, .inr rfl, rfl, .inr ⟨rfl, (both_diff_right hn p).symm⟩⟩
  | unlock d =>
    cases d with
    | left => exact ⟨hv, rfl, sdiff_self.symm, rfl⟩
    | right => exact ⟨hv, .inr rfl, (both_diff_right hn p).symm, rfl⟩
  | done => rfl

variable {s s' : State (Fin n) (Fin n) (Local Place)}

/-- **Manners.** -/
theorem mannered (hn : 2 ≤ n) (hr : (sys (program n num_meals)).Reach s) :
    Mannered (program n num_meals) Place.eats num_meals s := by
  refine mannered_of_roles (fit hn num_meals) ((fit hn num_meals).reach hr) ?_ ?_
  · rintro p ⟨pl, m⟩ he
    cases pl with
    | put d => cases d <;> first | exact he.elim | rfl
    | eat => rfl
    | _ => exact he.elim
  · rintro p ⟨pl, m⟩ hv hs
    cases pl with
    | unlock d => cases d <;> exact absurd hs (by simp [program, phil_thread])
    | done => exact hv
    | _ => exact absurd hs (by simp [program, phil_thread])

/-! ## Deadlock -/

/-- Philosopher `p` waits for its second fork, having seen it free. -/
def Waits (s : State (Fin n) (Fin n) (Local Place)) (p : Fin n) (d : Side) : Prop :=
  (s.pc p).place = .seen d

/-- Ranks that rise from a waiting philosopher to the one that holds the fork, if that one waits
too. -/
def RanksOf (s : State (Fin n) (Fin n) (Local Place)) (rank : Fin n → ℕ) : Prop :=
  ∀ p q d e, Waits s p d → Waits s q e → fork p d.other = fork q e → rank p < rank q

/-- The rank of a philosopher, the lowest with empty hands. -/
def Place.rank (k : ℕ) : Place → ℕ
  | .seen _ => k + 1
  | _ => 0

def Ranked (s : State (Fin n) (Fin n) (Local Place)) : Prop := ∃ rank, RanksOf s rank

theorem waits_of_next {p : Fin n} {l l' : Local Place} {flag : Fin n → ℤ} {coin : Bool} {d : Side}
    (h : (phil_thread num_meals p l).next flag coin = some l') (hd : l'.place = .seen d) :
    l.place = .look d ∧ flag (fork p d.other) = 1 := by
  obtain ⟨pl, m⟩ := l
  cases pl with
  | loop =>
    obtain rfl := Option.some.inj h
    rcases Local.loop_cases (Local.mk Place.loop m) num_meals .toss .done with ⟨-, e⟩ | ⟨-, e⟩ <;>
      rw [e] at hd <;> exact absurd hd (by simp)
  | test e =>
    obtain rfl := Option.some.inj h
    change (if flag _ = 1 then Place.take e else .look e) = .seen d at hd
    split_ifs at hd
  | look e =>
    obtain rfl := Option.some.inj h
    change (if flag _ = 1 then Place.seen e else .setFree e) = .seen d at hd
    split_ifs at hd with h1
    obtain rfl := Place.seen.inj hd
    exact ⟨rfl, h1⟩
  | unlock e =>
    cases e <;>
    · obtain rfl := Option.some.inj h
      exact absurd hd (by simp)
  | done => exact absurd h (by simp [phil_thread, Instr.next])
  | _ =>
    obtain rfl := Option.some.inj h
    exact absurd hd (by simp)

/-- **The ranks are kept**: who sees a fork free gets the highest rank, and nobody waits with that
fork in hand. -/
theorem Ranked.exec (hn : 2 ≤ n) (hk : Ranked s) (hi : (roles n num_meals).Inv s) {p : Fin n}
    {coin : Bool} (h : exec s p coin (phil_thread num_meals p (s.pc p)) = some s') : Ranked s' := by
  obtain ⟨rank, hk⟩ := hk
  obtain ⟨l, hl, hpc⟩ := exec_pc h
  have hother : ∀ q, q ≠ p → s'.pc q = s.pc q := fun q hq => by
    rw [hpc, Function.update_of_ne hq]
  have hself : s'.pc p = l := by rw [hpc, Function.update_self]
  let top := Finset.univ.sup rank + 1
  have htop : ∀ q, rank q < top := fun q => Nat.lt_succ_of_le (Finset.le_sup (Finset.mem_univ q))
  refine ⟨Function.update rank p top, fun q r d e hq hr hf => ?_⟩
  by_cases hqp : q = p
  · subst hqp
    rw [Waits, hself] at hq
    obtain ⟨-, hfree⟩ := waits_of_next hl hq
    by_cases hrq : r = q
    · subst hrq
      rw [Waits, hself, hq] at hr
      obtain rfl := Place.seen.inj hr
      exact absurd hf (fork_other_ne hn r d)
    · -- `r` uses the fork that `q` has seen free
      rw [Waits, hother r hrq] at hr
      have hused : fork q d.other ∈ (roles n num_meals).uses r (s.pc r) := by
        rw [hf]
        change fork r e ∈ uses r (s.pc r).place
        rw [hr]
        exact rfl
      have := hi.used r _ hused
      omega
  · rw [Waits, hother q hqp] at hq
    rw [Function.update_of_ne hqp]
    by_cases hrp : r = p
    · subst hrp
      rw [Function.update_self]
      exact htop q
    · rw [Waits, hother r hrp] at hr
      rw [Function.update_of_ne hrp]
      exact hk q r d e hq hr hf

theorem reach_ranked (hn : 2 ≤ n) (hr : (sys (program n num_meals)).Reach s) : Ranked s := by
  refine hr.invariant ?_ ?_
  · intro s hs
    rw [show s = _ from hs]
    exact ⟨fun _ => 0, fun p q d e hp => absurd hp (by simp [Waits, State.initial, program])⟩
  · intro s a s' hr hk hst
    cases hst with
    | run _ h => exact hk.exec hn ((fit hn num_meals).reach hr) h

theorem lock_cases {p f : Fin n} {l l' : Local Place}
    (h : phil_thread num_meals p l = .lock f l') :
    (∃ d, l.place = .lock d) ∨ ∃ d, l.place = .seen d ∧ f = fork p d.other := by
  obtain ⟨pl, m⟩ := l
  cases pl with
  | lock d => exact .inl ⟨d, rfl⟩
  | seen d => exact .inr ⟨d, rfl, (Instr.lock.inj h).1.symm⟩
  | unlock d => cases d <;> exact absurd h (by simp [phil_thread])
  | _ => exact absurd h (by simp [phil_thread])

/-- **No deadlock.** -/
theorem random_not_stuck (hn : 2 ≤ n) (hr : (sys (program n num_meals)).Reach s) :
    ¬Stuck (program n num_meals) s := by
  have hf := fit hn num_meals
  have hi := hf.reach hr
  obtain ⟨rank, hk⟩ := reach_ranked hn hr
  refine hf.not_stuck hi (fun p => (s.pc p).place.rank (rank p)) fun p q f l f' l' hp hq hq' => ?_
  have hholds : f ∈ holds q (s.pc q).place := hq
  obtain ⟨e, he⟩ | ⟨e, he, -⟩ := lock_cases hq'
  · rw [he] at hholds
    exact hholds.elim
  rw [he] at hholds
  obtain ⟨d, hd⟩ | ⟨d, hd, rfl⟩ := lock_cases hp
  · rw [hd, he]
    exact Nat.succ_pos _
  · rw [hd, he]
    exact Nat.succ_lt_succ (hk p q d e hd he hholds)

/-- Philosopher 0 has the left fork and waits for the right one, which philosopher 1 has taken after
philosopher 0 saw it free. -/
theorem random_not_stuck_two : ∃ s, (sys (program 2 1)).Reach s ∧
    (decide ((s.pc 0).place = .seen .left) && decide (s.holder 1 = some 1)) = true ∧
    ¬Stuck (program 2 1) s := by
  obtain ⟨s, hs, hp⟩ := reach_of_turns (P := program 2 1)
    (p := fun s => decide ((s.pc 0).place = .seen .left) && decide (s.holder 1 = some 1))
    (List.replicate 6 (0, true) ++ List.replicate 3 (1, true)) (by decide)
  exact ⟨s, hs, hp, random_not_stuck (by decide) hs⟩

end IntroSystems.Philosophers.Random
