import IntroSystems.Lib.Transition
import IntroSystems.Malloc.Ops

/-!
# Runs of the allocator

* `State`, `Call`, `Step`: calls of `mymalloc` and `myfree` and writes of the client into the bytes
  it asked for. `heapRun h` is the system of all such runs on a heap that `heapCreate` returned.
* `Inv`: the blocks tile the heap, no two neighbours are free, and the used blocks are the live
  payloads'.
* `Inv.malloc`, `Inv.free`, `Inv.write`: each call keeps it; **`reach_inv`**: it holds in every run.
-/

set_option autoImplicit false

namespace IntroSystems.Malloc

open ByteMem Tiling

/-- Memory, and the number of bytes requested for each payload that is live. -/
structure State where
  mem : Mem
  live : ℤ → Option (BitVec 32)

/-- What a client does; `malloc` carries the pointer that is returned. -/
inductive Call
  | malloc (user_size : BitVec 32) (payload : Option ℤ)
  | free (payload : ℤ)
  | write (payload a : ℤ) (v : BitVec 8)

/-- The live payloads after `mymalloc` returned `payload`. -/
def liveAfter (live : ℤ → Option (BitVec 32)) (user_size : BitVec 32) :
    Option ℤ → ℤ → Option (BitVec 32)
  | none => live
  | some p => Function.update live p (some user_size)

/-- A request of at most `2 ^ 31 - 12` bytes, a free of a live payload, or a write into its bytes. -/
inductive Step (h : Heap) : State → Call → State → Prop
  | malloc {s : State} {u : BitVec 32} {m' : Mem} {r : Option ℤ} (fuel : ℕ) :
      u.toNat ≤ 2 ^ 31 - 12 → mymalloc fuel h s.mem u = some (m', r) →
      Step h s (.malloc u r) ⟨m', liveAfter s.live u r⟩
  | free {s : State} {p : ℤ} {u : BitVec 32} : s.live p = some u →
      Step h s (.free p) ⟨myfree h s.mem p, Function.update s.live p none⟩
  | write {s : State} {p a : ℤ} {u : BitVec 32} (v : BitVec 8) : s.live p = some u → p ≤ a →
      a < p + u.toNat → Step h s (.write p a v) ⟨Function.update s.mem a v, s.live⟩

/-- `h` and `m` are what `heapCreate` returns for a legal size and an aligned region. -/
def Created (h : Heap) (m : Mem) : Prop :=
  ∃ (heap_start : ℤ) (m₀ : Mem) (size : BitVec 32), 4 ∣ heap_start ∧ 4 ∣ size.toNat ∧
    28 ≤ size.toNat ∧ size.toNat < 2 ^ 31 ∧ heapCreate (some heap_start) m₀ size = some (h, m)

/-- The runs on the heap `h`. -/
def heapRun (h : Heap) : Sys State Call where
  init s := Created h s.mem ∧ s.live = fun _ => none
  step := Step h

/-! ## The invariant -/

/-- The heap is tiled by the coalesced blocks `bs`, whose used ones are the live payloads'. -/
structure Inv (h : Heap) (s : State) (bs : List (Block ℤ)) : Prop where
  aligned : h.start % 4 = 0
  rep : Rep h s.mem bs
  coalesced : Coalesced bs
  live_of_used : ∀ x ∈ bs, x.used = true → s.live (x.lo + 4) ≠ none
  block_of_live : ∀ p u, s.live p = some u →
    ∃ x ∈ bs, x.used = true ∧ p = x.lo + 4 ∧ p + u.toNat ≤ x.hi - 4

variable {h : Heap} {s s' : State} {bs : List (Block ℤ)} {x y : Block ℤ} {c : Call}

theorem Inv.used_iff (hi : Inv h s bs) (hx : x ∈ bs) :
    x.used = true ↔ s.live (x.lo + 4) ≠ none := by
  refine ⟨hi.live_of_used x hx, fun hl => ?_⟩
  obtain ⟨u, hu⟩ := Option.ne_none_iff_exists'.mp hl
  obtain ⟨y, hy, hyu, he, -⟩ := hi.block_of_live _ u hu
  rwa [hi.rep.tiles.eq_of_lo hx hy (by omega)]

theorem size_of_created {size : BitVec 32} (h28 : 28 ≤ size.toNat) (hlt : size.toNat < 2 ^ 31) :
    ((size.setWidth 64 - sizeofHeap).setWidth 32).toInt = size.toNat - 16 := by
  rw [BitVec.toInt_eq_toNat_cond, BitVec.toNat_setWidth, BitVec.toNat_sub, BitVec.toNat_setWidth]
  change (if 2 * ((2 ^ 64 - 16 + size.toNat % 2 ^ 64) % 2 ^ 64 % 2 ^ 32) < 2 ^ 32 then _ else _) = _
  simp only [sizeofHeap, BitVec.reduceToNat]
  omega

/-- **A new heap** is one free block. -/
theorem inv_init (hs : (heapRun h).init s) : ∃ x, Inv h s [x] := by
  obtain ⟨⟨heap_start, m₀, size, hal, h4, h28, hlt, hc⟩, hl⟩ := hs
  obtain ⟨rfl, hm⟩ := Prod.mk.inj (Option.some.inj hc)
  have hsz := size_of_created h28 hlt
  have hst : ofSize sizeofHeap = 16 := rfl
  let x : Block ℤ := ⟨heap_start + ofSize sizeofHeap,
    heap_start + ofSize sizeofHeap + ((size.setWidth 64 - sizeofHeap).setWidth 32).toInt,
    by rw [hsz]; omega, false⟩
  have hx : IsSize (x.hi - x.lo) := by
    simp only [x, hsz, add_sub_cancel_left]
    exact ⟨by omega, by omega, by omega⟩
  refine ⟨x, ?_, ⟨⟨rfl, rfl⟩, ?_⟩, List.IsChain.singleton x, ?_, ?_⟩
  · change (heap_start + ofSize sizeofHeap) % 4 = 0
    rw [hst]
    omega
  · intro z hz
    rw [List.mem_singleton.mp hz, ← hm]
    have := stored_setBlockHeader m₀ hx
    simp only [x, add_sub_cancel_left, BitVec.ofInt_toInt] at this
    exact this
  · intro z hz hu
    rw [List.mem_singleton.mp hz] at hu
    exact absurd hu Bool.false_ne_true
  · intro p u hp
    rw [hl] at hp
    exact absurd hp (by simp)

/-! ## A request -/

theorem exists_front {n : ℤ} (hn : IsSize n) (hle : n ≤ x.hi - x.lo) :
    ∃ f rest, splitParts x n = f :: rest ∧ f.used = true ∧ f.lo = x.lo ∧ x.lo + n ≤ f.hi ∧
      ∀ z ∈ rest, z.used = false := by
  by_cases hsplit : n + 12 ≤ x.hi - x.lo
  · rw [splitParts_of_le hn hsplit]
    refine ⟨_, _, rfl, rfl, rfl, le_refl _, fun z hz => ?_⟩
    rw [List.mem_singleton.mp hz]
    rfl
  · rw [splitParts_of_lt (by omega)]
    refine ⟨_, [], rfl, rfl, rfl, ?_, by simp⟩
    change x.lo + n ≤ x.hi
    omega

/-- Cutting a free block keeps a tiling coalesced: what follows the block is in use. -/
theorem coalesced_splitParts {pre post : List (Block ℤ)} {n : ℤ} (hn : IsSize n)
    (hf : x.used = false) (hc : Coalesced (pre ++ x :: post)) :
    Coalesced (pre ++ (splitParts x n ++ post)) := by
  obtain ⟨⟨hpre, hpost⟩, -, hhead⟩ := coalesced_middle.mp hc
  have hused : ∀ y ∈ post.head?, y.used = true := fun y hy =>
    (hhead y hy).resolve_left (by simp [hf])
  by_cases hsplit : n + 12 ≤ x.hi - x.lo
  · rw [splitParts_of_le hn hsplit]
    refine coalesced_middle.mpr ⟨⟨hpre, ?_⟩, fun _ _ => .inr rfl, fun _ _ => .inl rfl⟩
    exact List.isChain_cons.mpr ⟨fun y hy => .inr (hused y hy), hpost⟩
  · rw [splitParts_of_lt (by omega)]
    exact coalesced_middle.mpr ⟨⟨hpre, hpost⟩, fun _ _ => .inr rfl, fun _ _ => .inl rfl⟩

/-- **What a request does**: nothing, or the block of its payload becomes one more used block,
and no byte of the others or outside the heap changes. -/
theorem malloc_cases (hi : Inv h s bs) {u : BitVec 32} (hu : u.toNat ≤ 2 ^ 31 - 12) {fuel : ℕ}
    {m' : Mem} {r : Option ℤ} (hm : mymalloc fuel h s.mem u = some (m', r)) :
    (r = none ∧ m' = s.mem) ∨
      ∃ ys f, Rep h m' ys ∧ Coalesced ys ∧ f.used = true ∧ r = some (f.lo + 4) ∧
        f.lo + 4 + (u.toNat : ℤ) ≤ f.hi - 4 ∧ s.live (f.lo + 4) = none ∧
        (∀ z : Block ℤ, z.used = true → (z ∈ ys ↔ z = f ∨ z ∈ bs)) ∧
        (∀ z ∈ bs, z.used = true → ∀ a, z.lo ≤ a → a < z.hi → m' a = s.mem a) ∧
        ∀ a, a < h.start ∨ h.start + h.size.toInt ≤ a → m' a = s.mem a := by
  rcases mymalloc_spec hi.rep hu hm with ⟨rfl, rfl, -⟩ | ⟨pre, x, post, rfl, hfit, -, rfl, hr, hfr⟩
  · exact .inl ⟨rfl, rfl⟩
  have hx : x ∈ pre ++ x :: post := by simp
  rw [fits, Bool.and_eq_true, Bool.not_eq_true', decide_eq_true_eq] at hfit
  obtain ⟨hfree, hle⟩ := hfit
  have hn := isSize_needed hu
  have hcoal := coalesced_splitParts hn hfree hi.coalesced
  obtain ⟨f, rest, he, hfu, hlo, hhi, hrest⟩ := exists_front hn hle
  rw [he] at hr hcoal
  refine .inr ⟨_, f, hr, hcoal, hfu, by rw [hlo], ?_, ?_, ?_, ?_, ?_⟩
  · rw [toInt_getSizeToAllocate hu] at hhi
    omega
  · by_contra hl
    rw [hlo] at hl
    exact absurd ((hi.used_iff hx).mpr hl) (by simp [hfree])
  · intro z hz
    have h1 : z ≠ x := fun e => by rw [e, hfree] at hz; exact absurd hz (by decide)
    have h2 : z ∉ rest := fun hm => by rw [hrest z hm] at hz; exact absurd hz (by decide)
    simp only [List.mem_append, List.mem_cons, h1, h2, or_false, false_or]
    tauto
  · intro z hz hzu a ha1 ha2
    have := hi.rep.frame_used hx hfree hz hzu rfl ha1 ha2
    exact hfr a this
  · intro a ha
    exact hfr a (hi.rep.frame_outside hx ha)

theorem Inv.malloc (hi : Inv h s bs) {u : BitVec 32} (hu : u.toNat ≤ 2 ^ 31 - 12) {fuel : ℕ}
    {m' : Mem} {r : Option ℤ} (hm : mymalloc fuel h s.mem u = some (m', r)) :
    ∃ bs', Inv h ⟨m', liveAfter s.live u r⟩ bs' := by
  rcases malloc_cases hi hu hm with ⟨rfl, rfl⟩ | ⟨ys, f, hr, hc, hfu, rfl, hfit, -, hmem, -, -⟩
  · exact ⟨bs, hi⟩
  refine ⟨ys, hi.aligned, hr, hc, ?_, ?_⟩
  · intro z hz hzu
    change Function.update s.live (f.lo + 4) (some u) (z.lo + 4) ≠ none
    by_cases he : z.lo + 4 = f.lo + 4
    · rw [he, Function.update_self]
      exact Option.some_ne_none u
    · rw [Function.update_of_ne he]
      rcases (hmem z hzu).mp hz with rfl | hzb
      · exact absurd rfl he
      · exact hi.live_of_used z hzb hzu
  · intro p w hp
    change Function.update s.live (f.lo + 4) (some u) p = some w at hp
    by_cases he : p = f.lo + 4
    · rw [he, Function.update_self] at hp
      obtain rfl := Option.some.inj hp
      exact ⟨f, (hmem f hfu).mpr (.inl rfl), hfu, he, by omega⟩
    · rw [Function.update_of_ne he] at hp
      obtain ⟨x, hx, hxu, hpx, hfitx⟩ := hi.block_of_live p w hp
      exact ⟨x, (hmem x hxu).mpr (.inr hx), hxu, hpx, hfitx⟩

/-! ## A free -/

/-- **What a free does**: its block is no longer used, and no byte of the other used blocks or
outside the heap changes. -/
theorem free_cases (hi : Inv h s bs) {p : ℤ} {u : BitVec 32} (hp : s.live p = some u) :
    ∃ x ys, x ∈ bs ∧ x.used = true ∧ p = x.lo + 4 ∧ Rep h (myfree h s.mem p) ys ∧ Coalesced ys ∧
      (∀ z : Block ℤ, z.used = true → (z ∈ ys ↔ z ∈ bs ∧ z ≠ x)) ∧
      (∀ z ∈ bs, z.used = true → z ≠ x → ∀ a, z.lo ≤ a → a < z.hi →
        myfree h s.mem p a = s.mem a) ∧
      ∀ a, a < h.start ∨ h.start + h.size.toInt ≤ a → myfree h s.mem p a = s.mem a := by
  obtain ⟨x, hx, hxu, rfl, -⟩ := hi.block_of_live p u hp
  obtain ⟨ys, hr, hc, hmem, hfr, hout⟩ := myfree_spec hi.rep hi.coalesced hx
  exact ⟨x, ys, hx, hxu, rfl, hr, hc, hmem, hfr, hout⟩

theorem Inv.free (hi : Inv h s bs) {p : ℤ} {u : BitVec 32} (hp : s.live p = some u) :
    ∃ bs', Inv h ⟨myfree h s.mem p, Function.update s.live p none⟩ bs' := by
  obtain ⟨x, ys, hx, -, rfl, hr, hc, hmem, -, -⟩ := free_cases hi hp
  refine ⟨ys, hi.aligned, hr, hc, ?_, ?_⟩
  · intro z hz hzu
    obtain ⟨hzb, hne⟩ := (hmem z hzu).mp hz
    have hlo : z.lo + 4 ≠ x.lo + 4 := fun e => hne (hi.rep.tiles.eq_of_lo hzb hx (by omega))
    change Function.update s.live (x.lo + 4) none (z.lo + 4) ≠ none
    rw [Function.update_of_ne hlo]
    exact hi.live_of_used z hzb hzu
  · intro q w hq
    change Function.update s.live (x.lo + 4) none q = some w at hq
    have hne : q ≠ x.lo + 4 := fun e => by rw [e, Function.update_self] at hq; exact absurd hq (by simp)
    rw [Function.update_of_ne hne] at hq
    obtain ⟨y, hy, hyu, hqy, hfit⟩ := hi.block_of_live q w hq
    exact ⟨y, (hmem y hyu).mpr ⟨hy, fun e => hne (e ▸ hqy)⟩, hyu, hqy, hfit⟩

/-! ## A write of the client -/

theorem Inv.write (hi : Inv h s bs) {p a : ℤ} {u : BitVec 32} (hp : s.live p = some u)
    (h1 : p ≤ a) (h2 : a < p + u.toNat) (v : BitVec 8) :
    Inv h ⟨Function.update s.mem a v, s.live⟩ bs := by
  obtain ⟨x, hx, -, rfl, hfit⟩ := hi.block_of_live p u hp
  have hrep : Rep h (Function.update s.mem a v) bs := by
    refine ⟨hi.rep.tiles, fun z hz => ?_⟩
    by_cases hzx : z = x
    · have hs := hi.rep.stored z hz
      subst hzx
      refine ⟨hs.isSize, ?_, ?_⟩
      · rw [← hs.header]
        exact load32_congr fun b _ h4 => Function.update_of_ne (by omega) _ _
      · rw [← hs.trailer]
        exact load32_congr fun b h3 _ => Function.update_of_ne (by omega) _ _
    · have := hi.rep.tiles.disjoint hz hx hzx
      exact (hi.rep.stored z hz).congr fun b _ _ => Function.update_of_ne (by omega) _ _
  exact ⟨hi.aligned, hrep, hi.coalesced, hi.live_of_used, hi.block_of_live⟩

/-! ## Runs -/

/-- **The invariant holds in every run.** -/
theorem reach_inv (hr : (heapRun h).Reach s) : ∃ bs, Inv h s bs := by
  refine Sys.Reach.invariant (I := fun s => ∃ bs, Inv h s bs) ?_ ?_ hr
  · intro s hs
    obtain ⟨x, hx⟩ := inv_init hs
    exact ⟨[x], hx⟩
  · intro s c s' _ hs hst
    obtain ⟨bs, hi⟩ := hs
    cases hst with
    | malloc fuel hu hm => exact hi.malloc hu hm
    | free hp => exact hi.free hp
    | write v hp h1 h2 => exact ⟨bs, hi.write hp h1 h2 v⟩

end IntroSystems.Malloc
