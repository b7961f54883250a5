import IntroSystems.Promises.Outcome
import Mathlib.Algebra.Ring.Nat
import Mathlib.Data.List.Nodup

/-!
# Which promises are kept

A promise has room for one block. A second `promise_then` on it, before it is resolved, takes the
place of the first.

* `Waiting`, `Settled`: what holds before and after the resolution; `resolve_root`: from one to the
  other.
* **`promises_kept_iff`**: all blocks are run exactly if no promise got two of them in time.
-/

set_option autoImplicit false

namespace IntroSystems.Promises

variable {V : Type} {s s' : State V} {thens : List (Then V)} {p q t k : ℕ} {f : V → V}
  {c d : Promise V}

/-! ## Before, at and after the resolution -/

/-- While nothing is resolved: every block waits, or one has lost its place for good. -/
structure Waiting (done : List (Then V)) (s : State V) : Prop where
  none : ∀ q, ¬Resolved s q
  linked : (done.map Prod.fst).Nodup → ∀ k p f, done[k]? = some (p, f) → Linked s p (k + 1)
  lost : ¬(done.map Prod.fst).Nodup → ∃ t, t ≠ 0 ∧ t ≤ done.length ∧ ∀ r, ¬Linked s r t

theorem nodup_snoc {done : List (Then V)} : ((done ++ [(p, f)]).map Prod.fst).Nodup ↔
    (done.map Prod.fst).Nodup ∧ p ∉ done.map Prod.fst := by
  rw [List.map_append, List.map_singleton, List.nodup_append_comm, List.singleton_append,
    List.nodup_cons]
  exact and_comm

theorem Waiting.step {done : List (Then V)} (hi : Inv done s) (hw : Waiting done s)
    (hj : Joined s p s') (hi' : Inv (done ++ [(p, f)]) s') : Waiting (done ++ [(p, f)]) s' := by
  have hsize := hi.size
  refine ⟨fun q hq => ?_, fun hnd k q g hk => ?_, fun hnd => ?_⟩
  · have hlt : q < done.length + 2 := by
      obtain ⟨c, hc, -⟩ := hq
      have := Heap.lt_size hc
      rw [hi'.size, List.length_append, List.length_singleton] at this
      exact this
    by_cases hqs : q = s.heap.size
    · subst hqs
      exact hw.none p (hj.new.mp hq)
    · exact hw.none q ((hj.old q (by omega)).mp hq)
  · obtain ⟨hnd, hp⟩ := nodup_snoc.mp hnd
    rw [hj.linked]
    rcases getElem_snoc hk with hold | ⟨rfl, heq⟩
    · refine .inr ⟨hw.linked hnd k q g hold, ?_⟩
      rintro rfl
      exact absurd (List.mem_map.mpr ⟨_, List.mem_of_getElem? hold, rfl⟩) hp
    · cases heq
      exact .inl ⟨rfl, hw.none p, hsize.symm⟩
  · rw [List.length_append, List.length_singleton]
    by_cases hold : (done.map Prod.fst).Nodup
    · -- the block that `p` has is dropped
      have hp : p ∈ done.map Prod.fst := by
        by_contra hp
        exact hnd (nodup_snoc.mpr ⟨hold, hp⟩)
      obtain ⟨⟨q, g⟩, hq, rfl⟩ := List.mem_map.mp hp
      obtain ⟨k, hk⟩ := List.getElem?_of_mem hq
      have hlt := lt_of_getElem hk
      refine ⟨k + 1, Nat.succ_ne_zero k, by omega, fun r hr => ?_⟩
      rcases (hj.linked r (k + 1)).mp hr with ⟨-, -, h⟩ | ⟨⟨c, b, hc, hb, ht⟩, h⟩
      · omega
      · obtain ⟨j, hj', -, hto⟩ := hi.link r c b hc hb
        have hkj : k = j := by
          have := Option.some.inj (ht.symm.trans hto)
          omega
        rw [← hkj, hk] at hj'
        cases hj'
        exact hw.none _ (h rfl)
    · obtain ⟨t, ht0, htl, ht⟩ := hw.lost hold
      refine ⟨t, ht0, by omega, fun r hr => ?_⟩
      rcases (hj.linked r t).mp hr with ⟨-, -, h⟩ | ⟨h, -⟩
      · omega
      · exact ht r h

theorem Inv.fulfil_root {v : V} (hi : Inv thens s) (hnone : ∀ q, ¬Resolved s q)
    (hc : s.heap.get 0 = some c) : Inv thens ⟨s.heap.put 0 (some (c.fulfil v)), s.ran⟩ := by
  refine ⟨?_, ?_, ?_, ?_, ?_, ?_⟩
  · exact Heap.size_put.trans hi.size
  · intro q hq
    exact (Heap.live_put hc).mpr (hi.live q (by simpa using hq))
  · intro q e g he hg
    by_cases hq : q = 0
    · subst hq
      have he' : some (c.fulfil v) = some e := (Heap.get_put_self hc).symm.trans he
      cases he'
      exact hi.link 0 c g hc hg
    · rw [Heap.get_put_of_ne hq] at he
      exact hi.link q e g he hg
  · intro k p f d hk hd hdr
    rw [Heap.get_put_of_ne (Nat.succ_ne_zero k)] at hd
    exact absurd ⟨d, hd, hdr⟩ (hnone _)
  · intro q e he her
    by_cases hq : q = 0
    · subst hq
      have he' : some (c.fulfil v) = some e := (Heap.get_put_self hc).symm.trans he
      cases he'
      cases her
    · rw [Heap.get_put_of_ne hq] at he
      exact hi.fresh q e he her
  · intro t ht
    change t < (s.heap.put _ _).size
    rw [Heap.size_put]
    exact hi.ran_lt t ht

/-- From the resolution on: all are resolved, or the lost one is not. -/
structure Settled (before : List (Then V)) (s : State V) : Prop where
  root : Resolved s 0
  all : (before.map Prod.fst).Nodup → ∀ q < s.heap.size, Resolved s q
  lost : ¬(before.map Prod.fst).Nodup → ∃ q < s.heap.size, ¬Resolved s q

theorem Settled.step {before done : List (Then V)} (h : Settled before s) (hi : Inv done s)
    (hp : p ≤ done.length) (hj : Joined s p s') (hi' : Inv (done ++ [(p, f)]) s') :
    Settled before s' := by
  have hsize : s'.heap.size = s.heap.size + 1 := by
    rw [hi'.size, hi.size, List.length_append, List.length_singleton]
  have hpos : 0 < s.heap.size := by
    rw [hi.size]
    exact Nat.succ_pos _
  refine ⟨(hj.old 0 hpos).mpr h.root, fun hnd q hq => ?_, fun hnd => ?_⟩
  · by_cases hqs : q = s.heap.size
    · subst hqs
      exact hj.new.mpr (h.all hnd p (by rw [hi.size]; omega))
    · have hlt : q < s.heap.size := by omega
      exact (hj.old q hlt).mpr (h.all hnd q hlt)
  · obtain ⟨q, hlt, hq⟩ := h.lost hnd
    exact ⟨q, by omega, fun hres => hq ((hj.old q hlt).mp hres)⟩

/-- **`promise_resolve` on the first promise.** -/
theorem resolve_root {done : List (Then V)} (hl : Legal done) (hi : Inv done s)
    (hw : Waiting done s) (v : V) : ∃ s', promiseResolve (depth s) s (some 0) v = some s' ∧
      Inv done s' ∧ Settled done s' := by
  obtain ⟨c, hc⟩ := hi.live 0 (by rw [hi.size]; exact Nat.succ_pos _)
  have hcr := (not_resolved_iff hc).mp (hw.none 0)
  obtain ⟨s', hrun, hi', hsp⟩ := resolve_spec hl hc hcr (fun k _ _ => hw.none (k + 1))
    (hi.fulfil_root (v := v) hw.none hc) (Nat.lt_succ_self _)
  refine ⟨s', hrun, hi', hsp.here, fun hnd q => ?_, fun hnd => ?_⟩
  · induction q using Nat.strongRecOn with
    | _ q ih =>
      intro hq
      cases q with
      | zero => exact hsp.here
      | succ k =>
        have hk : k < done.length := by
          rw [hi'.size] at hq
          omega
        have hget := List.getElem?_eq_getElem hk
        have hpk : done[k].1 ≤ k := hl k _ hget
        have hpar := ih done[k].1 (by omega) (by omega)
        exact hsp.closed _ _ hpar (hw.none _) (hw.linked hnd k done[k].1 done[k].2 hget)
  · obtain ⟨t, ht0, htl, ht⟩ := hw.lost hnd
    refine ⟨t, by rw [hi'.size]; omega, fun hres => ?_⟩
    rcases hsp.along t hres (hw.none t) with h | ⟨r, hr⟩
    · exact ht0 h
    · exact ht r hr

theorem kept_of_resolved (hi : Inv thens s) (h : ∀ q < s.heap.size, Resolved s q) :
    Kept thens s := by
  intro k p f c hk hc _
  have hlt := lt_of_getElem hk
  obtain ⟨d, hd, hdr⟩ := h (k + 1) (by rw [hi.size]; omega)
  obtain ⟨c', hc', -, hv, hone⟩ := hi.val k p f d hk hd hdr
  rw [hc] at hc'
  cases hc'
  exact ⟨d, hd, hdr, hv, hone⟩

theorem resolved_of_kept (hl : Legal thens) (hi : Inv thens s) (h0 : Resolved s 0)
    (hk : Kept thens s) (q : ℕ) (hq : q < s.heap.size) : Resolved s q := by
  induction q using Nat.strongRecOn with
  | _ q ih =>
    cases q with
    | zero => exact h0
    | succ k =>
      have hlt : k < thens.length := by
        rw [hi.size] at hq
        omega
      have hget := List.getElem?_eq_getElem hlt
      have hpk : thens[k].1 ≤ k := hl k _ hget
      obtain ⟨c, hc, hcr⟩ := ih thens[k].1 (by omega) (by omega)
      obtain ⟨d, hd, hdr, -⟩ := hk k thens[k].1 thens[k].2 c hget hc hcr
      exact ⟨d, hd, hdr⟩

section Call

variable [Zero V]

theorem inv_start : Inv ([] : List (Then V)) start where
  size := rfl
  live p hp := by
    obtain rfl : p = 0 := Nat.lt_one_iff.mp hp
    exact ⟨_, rfl⟩
  link p c f hc hf := by
    obtain rfl : p = 0 := Nat.lt_one_iff.mp (Heap.lt_size hc)
    cases hc
    cases hf
  val k p f d hk := by cases hk
  fresh p c hc hcr := rfl
  ran_lt t ht := by cases ht

theorem waiting_start : Waiting ([] : List (Then V)) start where
  none := by
    rintro q ⟨c, hc, hcr⟩
    obtain rfl : q = 0 := Nat.lt_one_iff.mp (Heap.lt_size hc)
    cases hc
    cases hcr
  linked _ k p f hk := by cases hk
  lost h := absurd List.nodup_nil h

/-- **Which runs keep all promises**: those with one `promise_then` at most on each promise before
the resolution. -/
theorem promises_kept_iff (before after : List (Then V)) (v : V)
    (hl : Legal (before ++ after)) : ∃ s, run before after v = some s ∧
      (Kept (before ++ after) s ↔ (before.map Prod.fst).Nodup) := by
  have hlb : Legal before := fun k t hk =>
    hl k t ((List.getElem?_append_left (lt_of_getElem (p := t.1) (f := t.2) hk)).trans hk)
  obtain ⟨s₁, hrun₁, hi₁, hw⟩ := fold_spec (Q := Waiting)
    (fun _ _ _ _ _ hi hw _ hj hi' => hw.step hi hj hi') before [] start hlb inv_start waiting_start
  obtain ⟨s₂, hrun₂, hi₂, hset₂⟩ := resolve_root hlb hi₁ hw v
  obtain ⟨s, hrun, hi, hset⟩ := fold_spec (Q := fun _ => Settled before)
    (fun _ _ _ _ _ hi hset hp hj hi' => hset.step hi hp hj hi') after before s₂ hl hi₂ hset₂
  refine ⟨s, ?_, fun hk => ?_, fun hnd => kept_of_resolved hi (hset.all hnd)⟩
  · unfold run
    rw [hrun₁]
    change (promiseResolve (depth s₁) s₁ (some 0) v).bind _ = _
    rw [hrun₂]
    exact hrun
  · by_contra hnd
    obtain ⟨q, hlt, hq⟩ := hset.lost hnd
    exact hq (resolved_of_kept hl hi hset.root hk q hlt)

/-- One block before, and two after. -/
theorem promises_kept_iff_three :
    Legal [((0 : ℕ), fun n : ℕ => n + 1), (0, fun n => n + 2), (0, fun n => n + 3)] ∧
      ∃ s, run [((0 : ℕ), fun n : ℕ => n + 1)] [(0, fun n => n + 2), (0, fun n => n + 3)] 5 =
        some s ∧ (Kept [((0 : ℕ), fun n : ℕ => n + 1), (0, fun n => n + 2), (0, fun n => n + 3)] s ↔
          ([0] : List ℕ).Nodup) := by
  have hl : Legal [((0 : ℕ), fun n : ℕ => n + 1), (0, fun n => n + 2), (0, fun n => n + 3)] := by
    intro k t hk
    have ht := List.mem_of_getElem? hk
    simp only [List.mem_cons, List.not_mem_nil, or_false] at ht
    rcases ht with rfl | rfl | rfl <;> exact Nat.zero_le k
  exact ⟨hl,
    promises_kept_iff [(0, fun n => n + 1)] [(0, fun n => n + 2), (0, fun n => n + 3)] 5 hl⟩

/-- Two blocks before: the first one is dropped. -/
theorem promise_dropped : ∃ s : State ℕ,
    run [((0 : ℕ), fun n : ℕ => n + 1), (0, fun n => n + 2)] [] 5 = some s ∧
      ¬Kept [((0 : ℕ), fun n : ℕ => n + 1), (0, fun n => n + 2)] s := by
  refine ⟨_, rfl, fun hk => ?_⟩
  obtain ⟨d, hd, hdr, -⟩ := hk 0 0 _ _ rfl rfl rfl
  cases hd
  cases hdr

end Call

end IntroSystems.Promises
