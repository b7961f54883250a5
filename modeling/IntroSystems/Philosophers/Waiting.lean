import IntroSystems.Philosophers.Forks

/-!
# Philosophers that wait for their forks

`phil-ordered.c` and `phil-rightfork.c`. They share `getfork` and `putfork`, and differ in the fork
that is picked up first: the lower one of the two, or the right one.

* `getfork`, `putfork`, `phil_thread`, and the two programs `ordered` and `rightFirst`.
* `roles`, **`fit`**: what a philosopher holds where. A fork whose mutex has just been taken is
  free, so nobody ever waits on `forfree`.
* `fork_lowerFirst_lt`, **`ordered_not_stuck`**: with the lower fork first there is no deadlock.
-/

set_option autoImplicit false

namespace IntroSystems.Philosophers.Waiting

open Locks

/-- Where a philosopher is in `getfork`: before `uthread_mutex_lock`, before the test of
`while (!forks[i].free)`, before `uthread_cond_wait`, woken up in it, before `free = 0`. -/
inductive Get
  | lock
  | test
  | wait
  | woken
  | take
  deriving DecidableEq

/-- Where a philosopher is in `putfork`. -/
inductive Put
  | setFree
  | signal
  | unlock
  deriving DecidableEq

inductive Nth
  | first
  | second
  deriving DecidableEq

inductive Place
  | loop
  | get (k : Nth) (a : Get)
  | eat
  | put (d : Side) (a : Put)
  | done
  deriving DecidableEq

section Code

variable {R L : Type}

/-- `getfork(i)`, called in a thread whose places in it are `k`, with the return to `ret`. -/
def getfork (i : R) (k : Get → L) (ret : L) : Get → Instr R L
  | .lock => .lock i (k .test)
  | .test => .read i fun free => if free = 0 then k .wait else k .take
  | .wait => .wait i (k .woken)
  | .woken => .lock i (k .test)
  | .take => .write i 0 ret

def putfork (i : R) (k : Put → L) (ret : L) : Put → Instr R L
  | .setFree => .write i 1 (k .signal)
  | .signal => .signal i (k .unlock)
  | .unlock => .unlock i ret

end Code

variable {n : ℕ}

/-- The side of the `k`-th fork, for the side `d` of the first. -/
def Nth.side (d : Side) : Nth → Side
  | .first => d
  | .second => d.other

/-- `phil_thread`, where philosopher `p` picks up the fork on the side `order p` first. -/
def phil_thread (num_meals : ℤ) (order : Fin n → Side) (p : Fin n) (l : Local Place) :
    Instr (Fin n) (Local Place) :=
  match l.place with
  | .loop => .goto (l.loop num_meals (.get .first .lock) .done)
  | .get .first a =>
    getfork (fork p (Nth.first.side (order p))) (fun b => { l with place := .get .first b })
      { l with place := .get .second .lock } a
  | .get .second a =>
    getfork (fork p (Nth.second.side (order p))) (fun b => { l with place := .get .second b })
      { l with place := .eat } a
  | .eat => .goto { place := .put .right .setFree, meals := l.meals + 1 }
  | .put .right a =>
    putfork (fork p .right) (fun b => { l with place := .put .right b })
      { l with place := .put .left .setFree } a
  | .put .left a =>
    putfork (fork p .left) (fun b => { l with place := .put .left b }) { l with place := .loop } a
  | .done => .stop

/-- The threads that `main` creates, and the forks as `initfork` leaves them. -/
def program (num_meals : ℤ) (order : Fin n → Side) : Program (Fin n) (Fin n) (Local Place) where
  start := ⟨.loop, 0⟩
  flag := fun _ => 1
  instr := phil_thread num_meals order

/-- `id < ((id + 1) % num_phils)`. -/
def lowerFirst (id : Fin n) : Side := if (id : ℕ) < (id + 1) % n then .left else .right

/-- `phil-ordered.c`. -/
def ordered (n : ℕ) (num_meals : ℤ) : Program (Fin n) (Fin n) (Local Place) :=
  program num_meals lowerFirst

/-- `phil-rightfork.c`. -/
def rightFirst (n : ℕ) (num_meals : ℤ) : Program (Fin n) (Fin n) (Local Place) :=
  program num_meals fun _ => .right

/-- From the second `free = 0` to the first `putfork`. -/
def Place.eats : Place → Prop
  | .eat => True
  | .put .right .setFree => True
  | _ => False

/-! ## Roles -/

/-- The mutexes that philosopher `p` holds. -/
def holds (order : Fin n → Side) (p : Fin n) : Place → Set (Fin n)
  | .get .first .lock | .get .first .woken => ∅
  | .get .first _ => {fork p (order p)}
  | .get .second .lock | .get .second .woken => {fork p (order p)}
  | .get .second _ => both p
  | .eat => both p
  | .put .right _ => both p
  | .put .left _ => {leftfork p}
  | .loop | .done => ∅

/-- The forks whose `free` it has cleared. -/
def uses (order : Fin n → Side) (p : Fin n) : Place → Set (Fin n)
  | .get .first _ => ∅
  | .get .second _ => {fork p (order p)}
  | .eat => both p
  | .put .right .setFree => both p
  | .put .right _ => {leftfork p}
  | .put .left .setFree => {leftfork p}
  | .put .left _ => ∅
  | .loop | .done => ∅

/-- Where it comes, with how many meals: nobody waits for a fork to be free. -/
def visits (num_meals : ℤ) (l : Local Place) : Prop :=
  match l.place with
  | .get _ .wait | .get _ .woken => False
  | .get _ _ | .eat => 0 ≤ l.meals ∧ l.meals < num_meals
  | .put _ _ | .loop => 0 ≤ l.meals ∧ l.meals ≤ max num_meals 0
  | .done => l.meals = max num_meals 0

def roles (num_meals : ℤ) (order : Fin n → Side) : Roles (Fin n) (Fin n) (Local Place) where
  holds p l := holds order p l.place
  uses p l := uses order p l.place
  visits _ l := visits num_meals l

variable {num_meals : ℤ} {order : Fin n → Side}

theorem uses_subset (p : Fin n) (l : Local Place) (hv : visits num_meals l) :
    uses order p l.place ⊆ holds order p l.place := by
  obtain ⟨pl, m⟩ := l
  have hleft : ({leftfork p} : Set (Fin n)) ⊆ both p := Set.singleton_subset_iff.mpr (.inl rfl)
  have hfirst : ({fork p (order p)} : Set (Fin n)) ⊆ both p := by
    rw [← pair_fork p (order p)]
    exact Set.subset_insert _ _
  cases pl with
  | get k a => cases k <;> cases a <;> simp_all [uses, holds, visits]
  | put d a => cases d <;> cases a <;> simp_all [uses, holds]
  | _ => exact subset_refl _

theorem getfork_obeys (hn : 2 ≤ n) (p : Fin n) (k : Nth) (a : Get) (m : ℤ)
    (hv : visits num_meals ⟨.get k a, m⟩) : (roles num_meals order).Obeys p ⟨.get k a, m⟩
      (phil_thread num_meals order p ⟨.get k a, m⟩) := by
  have hne := fork_other_ne hn p (order p)
  have hpair := pair_fork p (order p)
  have hsecond : fork p (order p).other ∈ both p := hpair ▸ Set.mem_insert _ _
  cases k with
  | first =>
    cases a with
    | lock => exact ⟨hv, (insert_empty_eq _).symm, rfl⟩
    | test =>
      intro v h
      -- the fork is held and not used
      obtain rfl : v = 1 := h rfl (Set.notMem_empty _)
      exact ⟨hv, rfl, rfl⟩
    | wait => exact hv.elim
    | woken => exact hv.elim
    | take => exact ⟨hv, rfl, rfl, .inl ⟨rfl, (insert_empty_eq _).symm⟩⟩
  | second =>
    cases a with
    | lock => exact ⟨hv, hpair.symm, rfl⟩
    | test =>
      intro v h
      obtain rfl : v = 1 := h hsecond hne
      exact ⟨hv, rfl, rfl⟩
    | wait => exact hv.elim
    | woken => exact hv.elim
    | take => exact ⟨hv, hsecond, rfl, .inl ⟨rfl, hpair.symm⟩⟩

theorem putfork_obeys (hn : 2 ≤ n) (p : Fin n) (d : Side) (a : Put) (m : ℤ)
    (hv : visits num_meals ⟨.put d a, m⟩) : (roles num_meals order).Obeys p ⟨.put d a, m⟩
      (phil_thread num_meals order p ⟨.put d a, m⟩) := by
  have hdiff := both_diff_right hn p
  cases d with
  | left =>
    cases a with
    | setFree => exact ⟨hv, rfl, rfl, .inr ⟨rfl, (sdiff_self).symm⟩⟩
    | signal => exact ⟨rfl, hv, rfl, rfl⟩
    | unlock => exact ⟨hv, rfl, (sdiff_self).symm, rfl⟩
  | right =>
    cases a with
    | setFree => exact ⟨hv, .inr rfl, rfl, .inr ⟨rfl, hdiff.symm⟩⟩
    | signal => exact ⟨.inr rfl, hv, rfl, rfl⟩
    | unlock => exact ⟨hv, .inr rfl, hdiff.symm, rfl⟩

/-- **The program keeps to the roles.** -/
theorem fit (hn : 2 ≤ n) (num_meals : ℤ) (order : Fin n → Side) :
    (roles num_meals order).Fit (program num_meals order) := by
  refine ⟨fun p => ⟨le_refl _, le_max_right _ _⟩, fun p => rfl, fun f => rfl,
    uses_subset, fun p l hv => ?_⟩
  obtain ⟨pl, m⟩ := l
  cases pl with
  | loop =>
    have hv : 0 ≤ m ∧ m ≤ max num_meals 0 := hv
    change (roles num_meals order).Same p ⟨.loop, m⟩
      ((Local.mk Place.loop m).loop num_meals (.get .first .lock) .done)
    rcases Local.loop_cases (Local.mk Place.loop m) num_meals (.get .first .lock) .done with
      ⟨hm, e⟩ | ⟨hm, e⟩ <;> rw [e]
    · exact ⟨⟨hv.1, hm⟩, rfl, rfl⟩
    · have hm : num_meals ≤ m := hm
      refine ⟨?_, rfl, rfl⟩
      change m = max num_meals 0
      omega
  | get k a => exact getfork_obeys hn p k a m hv
  | eat =>
    have hv : 0 ≤ m ∧ m < num_meals := hv
    refine ⟨?_, rfl, rfl⟩
    change 0 ≤ m + 1 ∧ m + 1 ≤ max num_meals 0
    omega
  | put d a => exact putfork_obeys hn p d a m hv
  | done => rfl

variable {s : State (Fin n) (Fin n) (Local Place)}

/-- **Manners**, with any order of the two forks. -/
theorem mannered (hn : 2 ≤ n) (hr : (sys (program num_meals order)).Reach s) :
    Mannered (program num_meals order) Place.eats num_meals s := by
  refine mannered_of_roles (fit hn num_meals order) ((fit hn num_meals order).reach hr) ?_ ?_
  · rintro p ⟨pl, m⟩ he
    cases pl with
    | put d a => cases d <;> cases a <;> first | exact he.elim | rfl
    | eat => rfl
    | _ => exact he.elim
  · rintro p ⟨pl, m⟩ hv hs
    cases pl with
    | get k a => cases k <;> cases a <;> exact absurd hs (by simp [program, phil_thread, getfork])
    | put d a => cases d <;> cases a <;> exact absurd hs (by simp [program, phil_thread, putfork])
    | done => exact hv
    | _ => exact absurd hs (by simp [program, phil_thread])

/-! ## The lower fork first -/

theorem fork_lowerFirst_lt (hn : 2 ≤ n) (p : Fin n) :
    fork p (lowerFirst p) < fork p (lowerFirst p).other := by
  have hne := rightfork_ne_leftfork hn p
  unfold lowerFirst
  split_ifs with h
  · exact h
  · exact lt_of_le_of_ne (not_lt.mp h) hne

/-- The number of the fork in hand, plus one. -/
def rank (p : Fin n) (l : Local Place) : ℕ :=
  match l.place with
  | .get .second _ => fork p (lowerFirst p) + 1
  | _ => 0

/-- Who waits for a mutex waits for a higher fork than it has in hand. -/
theorem rank_le_of_lock {p : Fin n} {l l' : Local Place} {f : Fin n} (hn : 2 ≤ n)
    (h : phil_thread num_meals lowerFirst p l = .lock f l') : rank p l ≤ f := by
  obtain ⟨pl, m⟩ := l
  cases pl with
  | get k a =>
    cases k with
    | first => exact Nat.zero_le _
    | second =>
      have hlt := fork_lowerFirst_lt hn p
      cases a with
      | lock | woken =>
        obtain ⟨rfl, -⟩ := Instr.lock.inj h
        exact hlt
      | _ => exact absurd h (by simp [phil_thread, getfork])
  | put d a => cases d <;> cases a <;> exact absurd h (by simp [phil_thread, putfork])
  | _ => exact absurd h (by simp [phil_thread])

theorem eq_of_held_of_lock {p : Fin n} {l l' : Local Place} {f f' : Fin n}
    (hv : visits num_meals l) (h : phil_thread num_meals lowerFirst p l = .lock f l')
    (hh : f' ∈ holds lowerFirst p l.place) : rank p l = f' + 1 := by
  obtain ⟨pl, m⟩ := l
  cases pl with
  | get k a =>
    cases k with
    | first =>
      cases a with
      | lock | woken => exact hh.elim
      | _ => exact absurd h (by simp [phil_thread, getfork])
    | second =>
      cases a with
      | lock | woken =>
        obtain rfl : f' = fork p (lowerFirst p) := hh
        rfl
      | _ => exact absurd h (by simp [phil_thread, getfork])
  | put d a => cases d <;> cases a <;> exact absurd h (by simp [phil_thread, putfork])
  | _ => exact absurd h (by simp [phil_thread])

/-- **No deadlock.** -/
theorem ordered_not_stuck (hn : 2 ≤ n) (hr : (sys (ordered n num_meals)).Reach s) :
    ¬Stuck (ordered n num_meals) s := by
  have hf := fit hn num_meals (lowerFirst (n := n))
  have hi := hf.reach hr
  refine hf.not_stuck hi (fun p => rank p (s.pc p)) fun p q f l f' l' hp hq hq' => ?_
  have h1 := rank_le_of_lock hn hp
  have h2 := eq_of_held_of_lock (hi.visits q) hq' hq
  omega

/-- Philosophers 0 and 1 have their first forks, and philosopher 2 waits for that of philosopher
0. -/
theorem ordered_not_stuck_three : ∃ s, (sys (ordered 3 1)).Reach s ∧
    (decide (s.holder 0 = some 0) && decide (s.holder 1 = some 1) &&
      decide ((s.pc 2).place = .get .first .lock)) = true ∧ ¬Stuck (ordered 3 1) s := by
  obtain ⟨s, hs, hp⟩ := reach_of_turns (P := ordered 3 1)
    (p := fun s => decide (s.holder 0 = some 0) && decide (s.holder 1 = some 1) &&
      decide ((s.pc 2).place = .get .first .lock))
    (List.replicate 4 (0, true) ++ List.replicate 4 (1, true) ++ [(2, true)]) (by decide)
  exact ⟨s, hs, hp, ordered_not_stuck (by decide) hs⟩

end IntroSystems.Philosophers.Waiting
