import IntroSystems.Malloc.Walk

/-!
# The heap in every run

* **`heap_tiling`**: the walk ends at the end of the heap, its blocks are well formed, and those in
  use are the live payloads'.
* **`live_untouched`**: live payloads lie in the heap, apart from each other and from every header
  word, and the calls on others leave their bytes alone; `Step.outside`: nothing outside the heap
  is ever written.
* **`heap_canonical`**: no two neighbours are free, the free blocks are the maximal gaps between the
  live ones, and the live blocks determine the whole list.
-/

set_option autoImplicit false

namespace IntroSystems.Malloc

open ByteMem Tiling

variable {h : Heap} {s s' : State} {bs : List (Block ℤ)} {x y : Block ℤ} {c : Call}

theorem exists_small_run : ∃ s, (heapRun ⟨48, 16⟩).Reach s ∧ s.live 20 = some 5 := by
  have h0 : (heapRun ⟨48, 16⟩).Reach ⟨setBlockHeader (fun _ => 0) 16 48 0, fun _ => none⟩ :=
    .init ⟨⟨0, fun _ => 0, 64, by decide, by decide, by decide, by decide, rfl⟩, rfl⟩
  exact ⟨_, h0.step (l := .malloc 5 (some 20)) (.malloc 2 (by decide) rfl), rfl⟩

/-! ## Tiling -/

/-- **The heap is tiled by well-formed blocks.** -/
theorem heap_tiling (hr : (heapRun h).Reach s) :
    ∃ es, Walks h s.mem es ∧
      (∀ e ∈ es, 8 ≤ e.size.toInt ∧ e.size.toInt % 4 = 0 ∧
        load32 s.mem e.addr = load32 s.mem (e.addr + e.size.toInt - ofSize HEADER_SIZE) ∧
        (e.inUse = 1 ↔ s.live (getPayload e.addr) ≠ none)) ∧
      ∀ p, s.live p ≠ none → ∃ e ∈ es, getPayload e.addr = p := by
  obtain ⟨bs, hi⟩ := reach_inv hr
  refine ⟨_, hi.rep.walks, ?_, ?_⟩
  · intro e he
    obtain ⟨x, hx, rfl⟩ := List.mem_map.mp he
    obtain ⟨⟨h8, -, h4⟩, hhead, htrail⟩ := hi.rep.stored x hx
    have hend : (entryOf x).addr + (x.hi - x.lo) - ofSize HEADER_SIZE = x.hi - 4 := by
      change x.lo + (x.hi - x.lo) - 4 = x.hi - 4
      omega
    rw [hi.rep.entryOf_size hx]
    refine ⟨h8, h4, ?_, ?_⟩
    · rw [hend, htrail]
      exact hhead
    · exact inUseFlag_eq_one.trans (hi.used_iff hx)
  · intro p hp
    obtain ⟨u, hu⟩ := Option.ne_none_iff_exists'.mp hp
    obtain ⟨x, hx, -, rfl, -⟩ := hi.block_of_live p u hu
    exact ⟨_, List.mem_map_of_mem hx, rfl⟩

theorem heap_tiling_small : ∃ s, (heapRun ⟨48, 16⟩).Reach s ∧ s.live 20 = some 5 ∧
    ∃ es, Walks ⟨48, 16⟩ s.mem es ∧
      (∀ e ∈ es, 8 ≤ e.size.toInt ∧ e.size.toInt % 4 = 0 ∧
        load32 s.mem e.addr = load32 s.mem (e.addr + e.size.toInt - ofSize HEADER_SIZE) ∧
        (e.inUse = 1 ↔ s.live (getPayload e.addr) ≠ none)) ∧
      ∀ p, s.live p ≠ none → ∃ e ∈ es, getPayload e.addr = p := by
  obtain ⟨s, hs, hl⟩ := exists_small_run
  exact ⟨s, hs, hl, heap_tiling hs⟩

/-! ## Live payloads -/

/-- `[a, a + n)` and `[b, b + k)` do not overlap. -/
def Apart (a n b k : ℤ) : Prop := a + n ≤ b ∨ b + k ≤ a

/-- Where the `u` bytes at `p` may lie: in the heap, apart from every other live payload and from
the two words of every block. -/
structure Placed (h : Heap) (s : State) (p : ℤ) (u : BitVec 32) : Prop where
  aligned : p % 4 = 0
  start_le : h.start ≤ p
  le_end : p + u.toNat ≤ h.start + h.size.toInt
  apart_live : ∀ q w, s.live q = some w → q ≠ p → Apart p u.toNat q w.toNat
  apart_words : ∃ es, Walks h s.mem es ∧ ∀ e ∈ es, Apart p u.toNat e.addr (ofSize HEADER_SIZE) ∧
    Apart p u.toNat (e.addr + e.size.toInt - ofSize HEADER_SIZE) (ofSize HEADER_SIZE)

theorem Inv.block_aligned (hi : Inv h s bs) (hx : x ∈ bs) : x.lo % 4 = 0 := by
  obtain ⟨pre, post, rfl⟩ := List.append_of_mem hx
  obtain ⟨l, h1, rfl, -⟩ := tiles_append.mp hi.rep.tiles
  have hsz : ∀ z ∈ pre, (z.hi - z.lo) % 4 = 0 := fun z hz => (hi.rep.isSize (by simp [hz])).2.2
  have hal := hi.aligned
  clear hi hx
  generalize h.start = a at h1 hal
  induction pre generalizing a with
  | nil =>
    rw [← tiles_nil.mp h1]
    exact hal
  | cons z pre ih =>
    have h2 := hsz z (by simp)
    have h3 := h1.1
    exact ih (fun w hw => hsz w (by simp [hw])) z.hi h1.2 (by omega)

theorem Inv.placed (hi : Inv h s bs) {p : ℤ} {u : BitVec 32} (hp : s.live p = some u) :
    Placed h s p u := by
  obtain ⟨x, hx, hxu, rfl, hfit⟩ := hi.block_of_live p u hp
  have hb := hi.rep.tiles.bounds hx
  have hal := hi.block_aligned hx
  refine ⟨by omega, by omega, by omega, ?_, _, hi.rep.walks, ?_⟩
  · intro q w hq hne
    obtain ⟨y, hy, hyu, rfl, hfit'⟩ := hi.block_of_live q w hq
    have hxy : x ≠ y := fun e => hne (by rw [e])
    have := hi.rep.tiles.disjoint hx hy hxy
    unfold Apart
    omega
  · intro e he
    obtain ⟨y, hy, rfl⟩ := List.mem_map.mp he
    have h8 := (hi.rep.isSize hy).1
    have haddr : (entryOf y).addr = y.lo := rfl
    rw [hi.rep.entryOf_size hy, ofSize_HEADER_SIZE, haddr]
    unfold Apart
    by_cases hxy : x = y
    · subst hxy
      omega
    · have := hi.rep.tiles.disjoint hx hy hxy
      omega

/-- Calls of the allocator that do not free `p`. -/
def Call.Spares (p : ℤ) : Call → Prop
  | .malloc _ _ => True
  | .free q => q ≠ p
  | .write _ _ _ => False

theorem Inv.frame (hi : Inv h s bs) {p : ℤ} {u : BitVec 32} (hp : s.live p = some u)
    (hc : c.Spares p) (hst : Step h s c s') :
    s'.live p = some u ∧ ∀ a, p ≤ a → a < p + u.toNat → s'.mem a = s.mem a := by
  obtain ⟨x, hx, hxu, rfl, hfit⟩ := hi.block_of_live p u hp
  cases hst with
  | malloc fuel hu hm =>
    rcases malloc_cases hi hu hm with ⟨rfl, rfl⟩ | ⟨ys, f, -, -, -, rfl, -, hnone, -, hfr, -⟩
    · exact ⟨hp, fun a _ _ => rfl⟩
    · have hne : x.lo + 4 ≠ f.lo + 4 := fun e => by rw [e, hnone] at hp; exact absurd hp (by simp)
      refine ⟨?_, fun a h1 h2 => hfr x hx hxu a (by omega) (by omega)⟩
      exact (Function.update_of_ne hne _ _).trans hp
  | free hq =>
    obtain ⟨y, ys, hy, -, rfl, -, -, -, hfr, -⟩ := free_cases hi hq
    have hne : x.lo + 4 ≠ y.lo + 4 := fun e => hc e.symm
    refine ⟨(Function.update_of_ne hne _ _).trans hp, fun a h1 h2 => ?_⟩
    exact hfr x hx hxu (fun e => hne (by rw [e])) a (by omega) (by omega)
  | write v hq h1 h2 => exact hc.elim

/-- **Nothing outside the heap is written.** -/
theorem Step.outside (hi : Inv h s bs) (hst : Step h s c s') {a : ℤ}
    (ha : a < h.start ∨ h.start + h.size.toInt ≤ a) : s'.mem a = s.mem a := by
  cases hst with
  | malloc fuel hu hm =>
    rcases malloc_cases hi hu hm with ⟨rfl, rfl⟩ | ⟨ys, f, -, -, -, -, -, -, -, -, hout⟩
    · rfl
    · exact hout a ha
  | free hq =>
    obtain ⟨y, ys, -, -, -, -, -, -, -, hout⟩ := free_cases hi hq
    exact hout a ha
  | write v hq h1 h2 =>
    have := hi.placed hq
    have h3 := this.start_le
    have h4 := this.le_end
    exact Function.update_of_ne (by omega) _ _

/-- **Live payloads are disjoint and untouched.** -/
theorem live_untouched (hr : (heapRun h).Reach s) :
    (∀ p u, s.live p = some u → Placed h s p u) ∧
      (∀ p u s', Step h s (.malloc u (some p)) s' →
        s.live p = none ∧ s'.live p = some u ∧ Placed h s' p u) ∧
      ∀ p u c s', s.live p = some u → c.Spares p → Step h s c s' →
        s'.live p = some u ∧ ∀ a, p ≤ a → a < p + u.toNat → s'.mem a = s.mem a := by
  obtain ⟨bs, hi⟩ := reach_inv hr
  refine ⟨fun p u hp => hi.placed hp, ?_, fun p u c s' hp hc hst => hi.frame hp hc hst⟩
  intro p u s' hst
  obtain ⟨bs', hi'⟩ := reach_inv (hr.step hst)
  cases hst with
  | malloc fuel hu hm =>
    rcases malloc_cases hi hu hm with ⟨hnone, -⟩ | ⟨ys, f, -, -, -, he, -, hnone, -, -, -⟩
    · exact absurd hnone (by simp)
    · obtain rfl := Option.some.inj he
      have hlive := Function.update_self (f.lo + 4) (some u) s.live
      exact ⟨hnone, hlive, hi'.placed hlive⟩

theorem live_untouched_small : ∃ s, (heapRun ⟨48, 16⟩).Reach s ∧ s.live 20 = some 5 ∧
    (∀ p u, s.live p = some u → Placed ⟨48, 16⟩ s p u) ∧
      (∀ p u s', Step ⟨48, 16⟩ s (.malloc u (some p)) s' →
        s.live p = none ∧ s'.live p = some u ∧ Placed ⟨48, 16⟩ s' p u) ∧
      ∀ p u c s', s.live p = some u → c.Spares p → Step ⟨48, 16⟩ s c s' →
        s'.live p = some u ∧ ∀ a, p ≤ a → a < p + u.toNat → s'.mem a = s.mem a := by
  obtain ⟨s, hs, hl⟩ := exists_small_run
  exact ⟨s, hs, hl, live_untouched hs⟩

/-! ## The canonical form -/

theorem entryOf_single {l : ℤ} (hx : Tiles l (l + h.size.toInt) [x]) (hf : x.used = false) :
    entryOf x = ⟨l, h.size, 0⟩ := by
  obtain ⟨rfl, hhi⟩ := hx
  have hhi : x.hi = x.lo + h.size.toInt := hhi
  rw [entryOf, hhi, add_sub_cancel_left, BitVec.ofInt_toInt, hf]
  rfl

theorem Inv.of_nothing_live (hi : Inv h s bs) (hl : ∀ p, s.live p = none)
    (hne : h.size.toInt ≠ 0) : bs.map entryOf = [⟨h.start, h.size, 0⟩] := by
  have hfree : ∀ z ∈ bs, z.used = false := fun z hz => by
    by_contra hu
    exact (hi.used_iff hz).mp (by simpa using hu) (hl _)
  cases bs with
  | nil =>
    have := tiles_nil.mp hi.rep.tiles
    omega
  | cons z bs =>
    cases bs with
    | nil => rw [List.map_singleton, entryOf_single hi.rep.tiles (hfree z (by simp))]
    | cons w bs =>
      have := (List.isChain_cons.mp hi.coalesced).1 w rfl
      rw [hfree z (by simp), hfree w (by simp)] at this
      simp at this

theorem size_bounds (hr : (heapRun h).Reach s) : 12 ≤ h.size.toInt ∧ h.size.toInt < 2 ^ 31 - 16 := by
  refine Sys.Reach.invariant (I := fun _ => _) ?_ (fun _ _ _ _ hsize _ => hsize) hr
  intro s hs
  obtain ⟨⟨_, m₀, size, -, -, h28, hlt, hc⟩, -⟩ := hs
  obtain ⟨rfl, -⟩ := Prod.mk.inj (Option.some.inj hc)
  change 12 ≤ ((size.setWidth 64 - sizeofHeap).setWidth 32).toInt ∧
    ((size.setWidth 64 - sizeofHeap).setWidth 32).toInt < 2 ^ 31 - 16
  rw [size_of_created h28 hlt]
  omega

/-- **The block list is canonical.** -/
theorem heap_canonical (hr : (heapRun h).Reach s) :
    ∃ es, Walks h s.mem es ∧ es.IsChain (fun e e' => ¬(e.inUse = 0 ∧ e'.inUse = 0)) ∧
      (∀ lo hi, (∃ e ∈ es, e.inUse = 0 ∧ e.addr = lo ∧ e.addr + e.size.toInt = hi) ↔
        MaximalGap h.start (h.start + h.size.toInt) (LiveBlock s) lo hi) ∧
      (∀ s', (heapRun h).Reach s' → (∀ lo hi, LiveBlock s lo hi ↔ LiveBlock s' lo hi) →
        Walks h s'.mem es) ∧
      ((∀ p, s.live p = none) → es = [⟨h.start, h.size, 0⟩]) := by
  obtain ⟨bs, hi⟩ := reach_inv hr
  have hlive : LiveBlock s = UsedSpan bs := by
    funext l r
    exact propext (hi.liveBlock_iff l r)
  refine ⟨_, hi.rep.walks, ?_, ?_, ?_, ?_⟩
  · refine (List.isChain_map _).mpr (hi.coalesced.imp fun x y hxy hff => ?_)
    have hx := inUseFlag_eq_zero.mp hff.1
    have hy := inUseFlag_eq_zero.mp hff.2
    rw [hx, hy] at hxy
    simp at hxy
  · intro lo hi'
    rw [hi.free_entry_iff, hlive]
    exact hi.rep.tiles.free_iff_maximalGap hi.coalesced lo hi'
  · intro s' hr' hsame
    obtain ⟨bs', hi'⟩ := reach_inv hr'
    have hspan : ∀ l r, UsedSpan bs l r ↔ UsedSpan bs' l r := fun l r => by
      rw [← hi.liveBlock_iff, ← hi'.liveBlock_iff, hsame]
    rw [eq_of_usedSpan hi.rep.tiles hi'.rep.tiles hi.coalesced hi'.coalesced hspan]
    exact hi'.rep.walks
  · intro hl
    exact hi.of_nothing_live hl (by have := size_bounds hr; omega)

theorem heap_canonical_small : ∃ s, (heapRun ⟨48, 16⟩).Reach s ∧ s.live 20 = some 5 ∧
    ∃ es, Walks ⟨48, 16⟩ s.mem es ∧ es.IsChain (fun e e' => ¬(e.inUse = 0 ∧ e'.inUse = 0)) ∧
      (∀ lo hi, (∃ e ∈ es, e.inUse = 0 ∧ e.addr = lo ∧ e.addr + e.size.toInt = hi) ↔
        MaximalGap 16 64 (LiveBlock s) lo hi) ∧
      (∀ s', (heapRun ⟨48, 16⟩).Reach s' → (∀ lo hi, LiveBlock s lo hi ↔ LiveBlock s' lo hi) →
        Walks ⟨48, 16⟩ s'.mem es) ∧
      ((∀ p, s.live p = none) → es = [⟨16, 48, 0⟩]) := by
  obtain ⟨s, hs, hl⟩ := exists_small_run
  exact ⟨s, hs, hl, heap_canonical hs⟩

end IntroSystems.Malloc
