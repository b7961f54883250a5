import IntroSystems.Promises.Model

/-!
# What becomes of a promise

* `Resolved`, `Linked`; `Inv`: a resolved promise has the value that its block gave, once.
* `resolve_spec`: `promise_resolve` goes down the links, and no further.
* `callThen_spec`: `promise_then` resolves the new promise, or links it.
-/

set_option autoImplicit false

namespace IntroSystems.Promises

variable {V : Type} {s s' : State V} {thens : List (Then V)} {p q t k : ℕ} {f : V → V}
  {c d : Promise V}

def Resolved (s : State V) (p : ℕ) : Prop := ∃ c, s.heap.get p = some c ∧ c.is_resolved = true

/-- A block waits at `p` that will resolve `t`. -/
def Linked (s : State V) (p t : ℕ) : Prop :=
  ∃ c f, s.heap.get p = some c ∧ c.on_fulfilled = some f ∧ c.fulfilled_promise = some t

/-- The state after these calls of `promise_then`. -/
structure Inv (thens : List (Then V)) (s : State V) : Prop where
  size : s.heap.size = thens.length + 1
  live : ∀ p < s.heap.size, ∃ c, s.heap.get p = some c
  link : ∀ p c f, s.heap.get p = some c → c.on_fulfilled = some f →
    ∃ k, thens[k]? = some (p, f.body) ∧ f.tag = k + 1 ∧ c.fulfilled_promise = some (k + 1)
  val : ∀ k p f d, thens[k]? = some (p, f) → s.heap.get (k + 1) = some d → d.is_resolved = true →
    ∃ c, s.heap.get p = some c ∧ c.is_resolved = true ∧ d.value = f c.value ∧
      s.ran.count (k + 1) = 1
  fresh : ∀ p c, s.heap.get p = some c → c.is_resolved = false → s.ran.count p = 0
  ran_lt : ∀ t ∈ s.ran, t < s.heap.size

theorem resolved_iff (hc : s.heap.get p = some c) : Resolved s p ↔ c.is_resolved = true := by
  unfold Resolved
  rw [hc]
  simp

theorem not_resolved_iff (hc : s.heap.get p = some c) : ¬Resolved s p ↔ c.is_resolved = false := by
  rw [resolved_iff hc]
  simp

theorem lt_of_getElem (h : thens[k]? = some (p, f)) : k < thens.length := by
  by_contra hk
  rw [List.getElem?_eq_none (by omega)] at h
  cases h

theorem Inv.parent_resolved (hi : Inv thens s) (hk : thens[k]? = some (p, f))
    (h : Resolved s (k + 1)) : Resolved s p := by
  obtain ⟨d, hd, hres⟩ := h
  obtain ⟨c, hc, hcr, -⟩ := hi.val k p f d hk hd hres
  exact ⟨c, hc, hcr⟩

theorem Linked.unique (h1 : Linked s p q) (h2 : Linked s p t) : q = t := by
  obtain ⟨c, -, hc, -, hq⟩ := h1
  obtain ⟨c', -, hc', -, ht⟩ := h2
  rw [hc] at hc'
  cases hc'
  exact Option.some.inj (hq.symm.trans ht)

/-! ## Resolving -/

/-- The promise with a value. -/
def Promise.fulfil (c : Promise V) (v : V) : Promise V := { c with is_resolved := true, value := v }

/-- From `s` to `s'`, `p` has been resolved, and what the links lead to from there. -/
structure Spread (s : State V) (p : ℕ) (s' : State V) : Prop where
  here : Resolved s' p
  same : ∀ q c, s.heap.get q = some c → ∃ c', s'.heap.get q = some c' ∧
    c'.on_fulfilled = c.on_fulfilled ∧ c'.fulfilled_promise = c.fulfilled_promise ∧
    (c.is_resolved = true → c'.is_resolved = true)
  along : ∀ q, Resolved s' q → ¬Resolved s q → q = p ∨ ∃ r, Linked s r q
  closed : ∀ q t, Resolved s' q → ¬Resolved s q → Linked s q t → Resolved s' t

section Fulfil

variable {v : V} {ran : List ℕ} (hc : s.heap.get p = some c)
include hc

theorem resolved_fulfil :
    Resolved ⟨s.heap.put p (some (c.fulfil v)), ran⟩ q ↔ q = p ∨ Resolved s q := by
  by_cases hq : q = p
  · subst hq
    exact iff_of_true ⟨_, Heap.get_put_self hc, rfl⟩ (.inl rfl)
  · unfold Resolved
    simp only [Heap.get_put_of_ne hq, hq, false_or]

theorem linked_fulfil :
    Linked ⟨s.heap.put p (some (c.fulfil v)), ran⟩ q t ↔ Linked s q t := by
  by_cases hq : q = p
  · subst hq
    unfold Linked
    simp only [Heap.get_put_self hc, hc, Option.some.injEq]
    constructor
    · rintro ⟨_, f, rfl, hf, ht⟩
      exact ⟨c, f, rfl, hf, ht⟩
    · rintro ⟨_, f, rfl, hf, ht⟩
      exact ⟨_, f, rfl, hf, ht⟩
  · unfold Linked
    simp only [Heap.get_put_of_ne hq]

theorem same_fulfil (v : V) (ran : List ℕ) (e : Promise V) (he : s.heap.get q = some e) :
    ∃ c', (⟨s.heap.put p (some (c.fulfil v)), ran⟩ : State V).heap.get q = some c' ∧
      c'.on_fulfilled = e.on_fulfilled ∧ c'.fulfilled_promise = e.fulfilled_promise ∧
      (e.is_resolved = true → c'.is_resolved = true) := by
  by_cases hq : q = p
  · subst hq
    rw [hc] at he
    cases he
    exact ⟨_, Heap.get_put_self hc, rfl, rfl, fun _ => rfl⟩
  · exact ⟨e, (Heap.get_put_of_ne hq).trans he, rfl, rfl, id⟩

end Fulfil

/-- **The block of a resolved promise is run**, and the next promise gets its value. -/
theorem Inv.fulfil_next {v : V} (hi : Inv thens s) (hl : Legal thens) (hc : s.heap.get p = some c)
    (hcr : c.is_resolved = true) (hk : thens[k]? = some (p, f)) (hd : s.heap.get (k + 1) = some d)
    (hdr : d.is_resolved = false) (hv : v = f c.value) :
    Inv thens ⟨s.heap.put (k + 1) (some (d.fulfil v)), s.ran ++ [k + 1]⟩ := by
  have hpk : p ≠ k + 1 := fun h => by
    have hle : p ≤ k := hl k _ hk
    omega
  refine ⟨?_, ?_, ?_, ?_, ?_, ?_⟩
  · exact Heap.size_put.trans hi.size
  · intro q hq
    obtain ⟨e, he⟩ := hi.live q (by simpa using hq)
    exact (Heap.live_put hd).mpr ⟨e, he⟩
  · intro q e g he hg
    by_cases hqk : q = k + 1
    · subst hqk
      have he' : some (d.fulfil v) = some e := (Heap.get_put_self hd).symm.trans he
      cases he'
      exact hi.link _ d g hd hg
    · rw [Heap.get_put_of_ne hqk] at he
      exact hi.link q e g he hg
  · intro j q g e hj he her
    by_cases hjk : j = k
    · subst hjk
      rw [hk] at hj
      cases hj
      have he' : some (d.fulfil v) = some e := (Heap.get_put_self hd).symm.trans he
      cases he'
      refine ⟨c, (Heap.get_put_of_ne hpk).trans hc, hcr, hv, ?_⟩
      rw [List.count_append, hi.fresh _ d hd hdr, List.count_singleton_self]
    · have hne : j + 1 ≠ k + 1 := by omega
      rw [Heap.get_put_of_ne hne] at he
      obtain ⟨a, ha, har, hval, hone⟩ := hi.val j q g e hj he her
      have hqk : q ≠ k + 1 := fun h => by
        rw [h, hd] at ha
        cases ha
        rw [hdr] at har
        exact absurd har (by decide)
      refine ⟨a, (Heap.get_put_of_ne hqk).trans ha, har, hval, ?_⟩
      rw [List.count_append, hone, List.count_eq_zero_of_not_mem (by simpa using hne)]
  · intro q e he her
    by_cases hqk : q = k + 1
    · subst hqk
      have he' : some (d.fulfil v) = some e := (Heap.get_put_self hd).symm.trans he
      cases he'
      cases her
    · rw [Heap.get_put_of_ne hqk] at he
      have hnot : q ∉ [k + 1] := by simpa using hqk
      rw [List.count_append, hi.fresh q e he her, List.count_eq_zero_of_not_mem hnot]
  · intro t ht
    change t < (s.heap.put _ _).size
    rw [Heap.size_put]
    rcases List.mem_append.mp ht with ht | ht
    · exact hi.ran_lt t ht
    · rw [List.mem_singleton.mp ht]
      exact Heap.lt_size hd

theorem promiseResolve_none {fuel : ℕ} {v : V} (hc : s.heap.get p = some c)
    (hf : c.on_fulfilled = none) : promiseResolve (fuel + 1) s (some p) v =
      some { s with heap := s.heap.put p (some (c.fulfil v)) } := by
  unfold promiseResolve
  simp only [Option.bind_eq_bind, Option.bind_some, hc, Heap.set_eq hc]
  cases c
  cases hf
  rfl

theorem promiseResolve_some {fuel : ℕ} {v : V} {g : Block V} (hc : s.heap.get p = some c)
    (hf : c.on_fulfilled = some g) : promiseResolve (fuel + 1) s (some p) v =
      promiseResolve fuel ⟨s.heap.put p (some (c.fulfil v)), s.ran ++ [g.tag]⟩
        c.fulfilled_promise (g.body v) := by
  rw [promiseResolve]
  simp only [Option.bind_eq_bind, Option.bind_some, hc, Heap.set_eq hc]
  cases c
  cases hf
  rfl

/-- **`promise_resolve` returns**, and resolves what the links lead to. -/
theorem resolve_spec (hl : Legal thens) {fuel : ℕ} {v : V} (hc : s.heap.get p = some c)
    (hcr : c.is_resolved = false) (hkids : ∀ k f, thens[k]? = some (p, f) → ¬Resolved s (k + 1))
    (hi : Inv thens ⟨s.heap.put p (some (c.fulfil v)), s.ran⟩) (hfuel : s.heap.size < fuel + p) :
    ∃ s', promiseResolve fuel s (some p) v = some s' ∧ Inv thens s' ∧ Spread s p s' := by
  induction fuel generalizing s p c v with
  | zero =>
    have := Heap.lt_size hc
    omega
  | succ fuel ih =>
    have hself := Heap.get_put_self (c := some (c.fulfil v)) hc
    cases hf : c.on_fulfilled with
    | none =>
      refine ⟨_, promiseResolve_none hc hf, hi, ⟨_, hself, rfl⟩,
        fun q e he => same_fulfil hc v _ e he, fun q hq hn => ?_, ?_⟩
      · exact .inl (((resolved_fulfil hc).mp hq).resolve_right hn)
      · rintro q t hq hn ⟨c', g, hc', hg, -⟩
        obtain rfl := ((resolved_fulfil hc).mp hq).resolve_right hn
        rw [hc] at hc'
        cases hc'
        rw [hf] at hg
        cases hg
    | some g =>
      obtain ⟨k, hk, htag, hlink⟩ := hi.link p _ g hself hf
      have hpk : p ≤ k := hl k _ hk
      have hlt := lt_of_getElem hk
      have hsize : s.heap.size = thens.length + 1 := Heap.size_put.symm.trans hi.size
      obtain ⟨d, hd⟩ := hi.live (k + 1) (by rw [hi.size]; omega)
      have hds : s.heap.get (k + 1) = some d := by
        rwa [Heap.get_put_of_ne (by omega)] at hd
      have hdr : d.is_resolved = false := (not_resolved_iff hds).mp (hkids k _ hk)
      let s₁ : State V := ⟨s.heap.put p (some (c.fulfil v)), s.ran ++ [k + 1]⟩
      have hnext := hi.fulfil_next hl hself rfl hk hd hdr rfl
      have hkids' : ∀ j f, thens[j]? = some (k + 1, f) → ¬Resolved s₁ (j + 1) := by
        intro j f hj hres
        have hpar := hi.parent_resolved hj hres
        rw [resolved_iff hd, hdr] at hpar
        exact absurd hpar (by decide)
      have hfuel' : s₁.heap.size < fuel + (k + 1) := by
        rw [show s₁.heap.size = s.heap.size from Heap.size_put]
        omega
      obtain ⟨s', hrun, hi', hsp⟩ := ih (s := s₁) (v := g.body v) hd hdr hkids' hnext hfuel'
      have hpl : Linked s p (k + 1) := ⟨c, g, hc, hf, hlink⟩
      refine ⟨s', ?_, hi', ?_, ?_, ?_, ?_⟩
      · have hto : c.fulfilled_promise = some (k + 1) := hlink
        rw [promiseResolve_some hc hf, htag, hto]
        exact hrun
      · obtain ⟨c', hc', -, -, hmono⟩ := hsp.same p _ hself
        exact ⟨c', hc', hmono rfl⟩
      · intro q e he
        obtain ⟨e₁, he₁, hf₁, ht₁, hr₁⟩ := same_fulfil hc v (s.ran ++ [k + 1]) e he
        obtain ⟨e₂, he₂, hf₂, ht₂, hr₂⟩ := hsp.same q e₁ he₁
        exact ⟨e₂, he₂, hf₂.trans hf₁, ht₂.trans ht₁, fun h => hr₂ (hr₁ h)⟩
      · intro q hq hn
        by_cases hqp : q = p
        · exact .inl hqp
        have hn₁ : ¬Resolved s₁ q := fun h =>
          ((resolved_fulfil hc).mp h).elim hqp hn
        rcases hsp.along q hq hn₁ with rfl | ⟨r, hr⟩
        · exact .inr ⟨p, hpl⟩
        · exact .inr ⟨r, (linked_fulfil hc).mp hr⟩
      · intro q t hq hn hqt
        by_cases hqp : q = p
        · subst hqp
          rw [hqt.unique hpl]
          exact hsp.here
        have hn₁ : ¬Resolved s₁ q := fun h =>
          ((resolved_fulfil hc).mp h).elim hqp hn
        exact hsp.closed q t hq hn₁ ((linked_fulfil hc).mpr hqt)

/-! ## Registering -/

/-- From `s` to `s'`, `promise_then` has been called on `p`. -/
structure Joined (s : State V) (p : ℕ) (s' : State V) : Prop where
  old : ∀ q < s.heap.size, Resolved s' q ↔ Resolved s q
  new : Resolved s' s.heap.size ↔ Resolved s p
  linked : ∀ q t, Linked s' q t ↔
    (q = p ∧ ¬Resolved s p ∧ t = s.heap.size) ∨ (Linked s q t ∧ (q = p → Resolved s p))

theorem getElem_snoc {ls : List (Then V)} {x y : Then V} (h : (ls ++ [x])[k]? = some y) :
    ls[k]? = some y ∨ k = ls.length ∧ y = x := by
  rcases Nat.lt_trichotomy k ls.length with hlt | rfl | hgt
  · rw [List.getElem?_append_left hlt] at h
    exact .inl h
  · rw [List.getElem?_concat_length] at h
    exact .inr ⟨rfl, (Option.some.inj h).symm⟩
  · rw [List.getElem?_eq_none (by simp; omega)] at h
    cases h

theorem getElem_snoc_of {ls : List (Then V)} {x y : Then V} (h : ls[k]? = some y) :
    (ls ++ [x])[k]? = some y := by
  rw [List.getElem?_append_left (lt_of_getElem (f := y.2) (p := y.1) h)]
  exact h

section Call

variable [Zero V]

/-- A new promise. -/
def newPromise (p : ℕ) : Promise V := ⟨false, 0, none, none, some p⟩

theorem callThen_resolved (hc : s.heap.get p = some c) (hcr : c.is_resolved = true) (f : V → V) :
    callThen s (p, f) = some ⟨s.heap.alloc ((newPromise p).fulfil (f c.value)),
      s.ran ++ [s.heap.size]⟩ := by
  have hc' := Heap.get_alloc_of_get (a := (newPromise p : Promise V)) hc
  have hnew : (s.heap.alloc (newPromise p : Promise V)).get s.heap.size = some (newPromise p) :=
    Heap.get_alloc_self
  have hres : promiseResolve (s.heap.size + 1) ⟨s.heap.alloc (newPromise p : Promise V),
      s.ran ++ [s.heap.size]⟩ (some s.heap.size) (f c.value) = _ := promiseResolve_none hnew rfl
  rw [Heap.put_alloc] at hres
  unfold callThen promiseThen promiseNew
  change Option.map Prod.fst (((s.heap.alloc (newPromise p)).get p).bind _) = _
  rw [hc', Option.bind_some, if_pos hcr]
  change Option.map Prod.fst ((promiseResolve (s.heap.size + 1) _ _ _).bind _) = _
  erw [hres]
  rfl

theorem callThen_waiting (hc : s.heap.get p = some c) (hcr : c.is_resolved = false) (f : V → V) :
    callThen s (p, f) = some ⟨(s.heap.alloc (newPromise p)).put p
      (some { c with
        on_fulfilled := some ⟨s.heap.size, f⟩, fulfilled_promise := some s.heap.size }), s.ran⟩ := by
  have hc' := Heap.get_alloc_of_get (a := (newPromise p : Promise V)) hc
  unfold callThen promiseThen promiseNew
  change Option.map Prod.fst (((s.heap.alloc (newPromise p)).get p).bind _) = _
  rw [hc', Option.bind_some, if_neg (by simp [hcr])]
  change Option.map Prod.fst (((s.heap.alloc (newPromise p)).set p _).bind _) = _
  rw [Heap.set_eq hc']
  rfl

theorem count_of_notMem_singleton {ran : List ℕ} {n m : ℕ} (h : n ≠ m) :
    (ran ++ [m]).count n = ran.count n := by
  have hm : [m].count n = 0 := List.count_eq_zero_of_not_mem (by simpa using h)
  rw [List.count_append, hm, Nat.add_zero]

theorem Inv.resolvedThen (hi : Inv thens s) (hc : s.heap.get p = some c)
    (hcr : c.is_resolved = true) (f : V → V) :
    Inv (thens ++ [(p, f)]) ⟨s.heap.alloc ((newPromise p).fulfil (f c.value)),
      s.ran ++ [s.heap.size]⟩ := by
  have hself : (s.heap.alloc ((newPromise p).fulfil (f c.value))).get s.heap.size = _ :=
    Heap.get_alloc_self
  have hsize := hi.size
  refine ⟨?_, ?_, ?_, ?_, ?_, ?_⟩
  · rw [Heap.size_alloc, hsize, List.length_append, List.length_singleton]
  · intro q hq
    rw [Heap.size_alloc] at hq
    by_cases hqs : q = s.heap.size
    · exact ⟨_, hqs ▸ hself⟩
    · obtain ⟨e, he⟩ := hi.live q (by omega)
      exact ⟨e, Heap.get_alloc_of_get he⟩
  · intro q e g he hg
    by_cases hqs : q = s.heap.size
    · subst hqs
      rw [hself] at he
      cases he
      cases hg
    · rw [Heap.get_alloc_of_ne hqs] at he
      obtain ⟨k, hk, htag, hl⟩ := hi.link q e g he hg
      exact ⟨k, getElem_snoc_of hk, htag, hl⟩
  · intro k q g e hk he her
    rcases getElem_snoc hk with hk | ⟨rfl, heq⟩
    · have hks : k + 1 ≠ s.heap.size := by
        have := lt_of_getElem hk
        omega
      rw [Heap.get_alloc_of_ne hks] at he
      obtain ⟨a, ha, har, hv, hone⟩ := hi.val k q g e hk he her
      exact ⟨a, Heap.get_alloc_of_get ha, har, hv, by rw [count_of_notMem_singleton hks, hone]⟩
    · cases heq
      rw [← hsize] at he ⊢
      rw [hself] at he
      cases he
      have hnone : s.heap.size ∉ s.ran := fun h => absurd (hi.ran_lt _ h) (Nat.lt_irrefl _)
      refine ⟨c, Heap.get_alloc_of_get hc, hcr, rfl, ?_⟩
      rw [List.count_append, List.count_eq_zero_of_not_mem hnone, List.count_singleton_self]
  · intro q e he her
    by_cases hqs : q = s.heap.size
    · subst hqs
      rw [hself] at he
      cases he
      cases her
    · rw [Heap.get_alloc_of_ne hqs] at he
      rw [count_of_notMem_singleton hqs, hi.fresh q e he her]
  · intro t ht
    rw [Heap.size_alloc]
    rcases List.mem_append.mp ht with ht | ht
    · exact Nat.lt_succ_of_lt (hi.ran_lt t ht)
    · rw [List.mem_singleton.mp ht]
      exact Nat.lt_succ_self _

theorem Inv.waitingThen (hi : Inv thens s) (hc : s.heap.get p = some c)
    (hcr : c.is_resolved = false) (f : V → V) :
    Inv (thens ++ [(p, f)]) ⟨(s.heap.alloc (newPromise p)).put p (some { c with
        on_fulfilled := some ⟨s.heap.size, f⟩, fulfilled_promise := some s.heap.size }), s.ran⟩ := by
  have hc' := Heap.get_alloc_of_get (a := (newPromise p : Promise V)) hc
  have hps : s.heap.size ≠ p := (Nat.ne_of_lt (Heap.lt_size hc)).symm
  have hsize := hi.size
  have hself := Heap.get_put_self (c := some { c with
    on_fulfilled := some (⟨s.heap.size, f⟩ : Block V), fulfilled_promise := some s.heap.size }) hc'
  have hold : ∀ q, q ≠ p → q ≠ s.heap.size → ((s.heap.alloc (newPromise p)).put p (some { c with
      on_fulfilled := some (⟨s.heap.size, f⟩ : Block V),
      fulfilled_promise := some s.heap.size })).get q = s.heap.get q := fun q hq hqs => by
    rw [Heap.get_put_of_ne hq, Heap.get_alloc_of_ne hqs]
  have hnew : ((s.heap.alloc (newPromise p)).put p (some { c with
      on_fulfilled := some (⟨s.heap.size, f⟩ : Block V),
      fulfilled_promise := some s.heap.size })).get s.heap.size = some (newPromise p) := by
    rw [Heap.get_put_of_ne hps, Heap.get_alloc_self]
  refine ⟨?_, ?_, ?_, ?_, ?_, ?_⟩
  · rw [Heap.size_put, Heap.size_alloc, hsize, List.length_append, List.length_singleton]
  · intro q hq
    rw [Heap.size_put, Heap.size_alloc] at hq
    by_cases hqs : q = s.heap.size
    · rw [hqs]
      exact ⟨_, hnew⟩
    · obtain ⟨e, he⟩ := hi.live q (by omega)
      exact (Heap.live_put hc').mpr ⟨e, Heap.get_alloc_of_get he⟩
  · intro q e g he hg
    by_cases hqp : q = p
    · subst hqp
      rw [hself] at he
      cases he
      cases hg
      refine ⟨thens.length, List.getElem?_concat_length, hsize, ?_⟩
      rw [← hsize]
    · by_cases hqs : q = s.heap.size
      · subst hqs
        rw [hnew] at he
        cases he
        cases hg
      · rw [hold q hqp hqs] at he
        obtain ⟨k, hk, htag, hl⟩ := hi.link q e g he hg
        exact ⟨k, getElem_snoc_of hk, htag, hl⟩
  · intro k q g e hk he her
    by_cases hkp : k + 1 = p
    · rw [hkp, hself] at he
      cases he
      rw [hcr] at her
      cases her
    rcases getElem_snoc hk with hk | ⟨rfl, -⟩
    · have hks : k + 1 ≠ s.heap.size := by
        have := lt_of_getElem hk
        omega
      rw [hold _ hkp hks] at he
      obtain ⟨a, ha, har, hv, hone⟩ := hi.val k q g e hk he her
      have hqp : q ≠ p := fun h => by
        rw [h, hc] at ha
        cases ha
        rw [hcr] at har
        cases har
      refine ⟨a, ?_, har, hv, hone⟩
      rw [Heap.get_put_of_ne hqp, Heap.get_alloc_of_get ha]
    · rw [← hsize, hnew] at he
      cases he
      cases her
  · intro q e he her
    by_cases hqp : q = p
    · subst hqp
      exact hi.fresh q c hc hcr
    · by_cases hqs : q = s.heap.size
      · subst hqs
        exact List.count_eq_zero_of_not_mem fun h => absurd (hi.ran_lt _ h) (Nat.lt_irrefl _)
      · rw [hold q hqp hqs] at he
        exact hi.fresh q e he her
  · intro t ht
    rw [Heap.size_put, Heap.size_alloc]
    exact Nat.lt_succ_of_lt (hi.ran_lt t ht)

/-- **`promise_then` returns**: the new promise is resolved, or it is linked from `p`. -/
theorem callThen_spec (hi : Inv thens s) (hp : p ≤ thens.length) (f : V → V) :
    ∃ s', callThen s (p, f) = some s' ∧ Inv (thens ++ [(p, f)]) s' ∧ Joined s p s' := by
  obtain ⟨c, hc⟩ := hi.live p (by rw [hi.size]; omega)
  have hps : p ≠ s.heap.size := Nat.ne_of_lt (Heap.lt_size hc)
  cases hcr : c.is_resolved with
  | true =>
    have hres : Resolved s p := ⟨c, hc, hcr⟩
    refine ⟨_, callThen_resolved hc hcr f, hi.resolvedThen hc hcr f, ?_, ?_, ?_⟩
    · intro q hq
      unfold Resolved
      simp only [Heap.get_alloc_of_ne (Nat.ne_of_lt hq)]
    · exact iff_of_true ⟨_, Heap.get_alloc_self, rfl⟩ hres
    · intro q t
      simp only [hres, not_true_eq_false, false_and, and_false, implies_true, and_true, false_or]
      unfold Linked
      by_cases hqs : q = s.heap.size
      · subst hqs
        simp only [Heap.get_alloc_self, Heap.get_size]
        refine iff_of_false ?_ ?_
        · rintro ⟨e, g, he, hg, -⟩
          cases he
          cases hg
        · rintro ⟨e, g, he, -⟩
          cases he
      · simp only [Heap.get_alloc_of_ne hqs]
  | false =>
    have hres : ¬Resolved s p := (not_resolved_iff hc).mpr hcr
    have hc' := Heap.get_alloc_of_get (a := (newPromise p : Promise V)) hc
    refine ⟨_, callThen_waiting hc hcr f, hi.waitingThen hc hcr f, ?_, ?_, ?_⟩
    · intro q hq
      by_cases hqp : q = p
      · subst hqp
        refine iff_of_false ?_ hres
        rintro ⟨e, he, her⟩
        rw [Heap.get_put_self hc'] at he
        cases he
        rw [hcr] at her
        cases her
      · unfold Resolved
        simp only [Heap.get_put_of_ne hqp, Heap.get_alloc_of_ne (Nat.ne_of_lt hq)]
    · refine iff_of_false ?_ hres
      rintro ⟨e, he, her⟩
      rw [Heap.get_put_of_ne hps.symm, Heap.get_alloc_self] at he
      cases he
      cases her
    · intro q t
      simp only [hres, not_false_eq_true, true_and, imp_false]
      unfold Linked
      by_cases hqp : q = p
      · subst hqp
        simp only [Heap.get_put_self hc', true_and, not_true_eq_false, and_false, or_false]
        constructor
        · rintro ⟨e, g, he, -, ht⟩
          cases he
          exact (Option.some.inj ht).symm
        · rintro rfl
          exact ⟨_, _, rfl, rfl, rfl⟩
      · simp only [Heap.get_put_of_ne hqp, hqp, false_and, not_false_eq_true, and_true, false_or]
        by_cases hqs : q = s.heap.size
        · subst hqs
          simp only [Heap.get_alloc_self, Heap.get_size]
          refine iff_of_false ?_ ?_
          · rintro ⟨e, g, he, hg, -⟩
            cases he
            cases hg
          · rintro ⟨e, g, he, -⟩
            cases he
        · simp only [Heap.get_alloc_of_ne hqs]

/-- **Calls of `promise_then`, one after another.** -/
theorem fold_spec {Q : List (Then V) → State V → Prop}
    (hstep : ∀ done p f s s', Inv done s → Q done s → p ≤ done.length → Joined s p s' →
      Inv (done ++ [(p, f)]) s' → Q (done ++ [(p, f)]) s')
    (ts done : List (Then V)) (s : State V) (hl : Legal (done ++ ts)) (hi : Inv done s)
    (hq : Q done s) : ∃ s', ts.foldlM callThen s = some s' ∧ Inv (done ++ ts) s' ∧
      Q (done ++ ts) s' := by
  induction ts generalizing done s with
  | nil =>
    rw [List.append_nil]
    exact ⟨s, rfl, hi, hq⟩
  | cons t ts ih =>
    obtain ⟨p, f⟩ := t
    have hp : p ≤ done.length := hl done.length (p, f) (by simp)
    obtain ⟨s₁, hcall, hi₁, hj⟩ := callThen_spec hi hp f
    have happ : done ++ (p, f) :: ts = done ++ [(p, f)] ++ ts := by simp
    rw [happ] at hl ⊢
    obtain ⟨s', hfold, hi', hq'⟩ := ih _ s₁ hl hi₁ (hstep done p f s s₁ hi hq hp hj hi₁)
    refine ⟨s', ?_, hi', hq'⟩
    rw [List.foldlM_cons, hcall]
    exact hfold

end Call

end IntroSystems.Promises
