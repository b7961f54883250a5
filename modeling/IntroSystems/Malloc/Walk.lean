import IntroSystems.Malloc.Run

/-!
# The walk over the heap

* `walk`: the loop of `is_within_heap_range`, with what it reads of each block. `Walks h m es`: it
  ends at the end of the heap after the blocks `es`; `Walks.unique`.
* `Rep.walks`: the walk visits the blocks of the tiling, in order.
* `LiveBlock`, `Inv.liveBlock_iff`, `Inv.free_entry_iff`: what the entries say in a reachable state.
* `eq_of_usedSpan`: the used blocks determine a coalesced tiling.
-/

set_option autoImplicit false

namespace IntroSystems.Malloc

open ByteMem Tiling

/-- What the walk reads of a block. -/
structure Entry where
  addr : ℤ
  size : BitVec 32
  inUse : BitVec 32
  deriving DecidableEq

def readEntry (m : Mem) (b : ℤ) : Entry := ⟨b, getBlockSize m b, blockIsInUse m b⟩

/-- `for (blk = b; is_within_heap_range(h, blk); blk = get_next_block(blk))`: the blocks visited
and the address it stops at. -/
def walk (h : Heap) (m : Mem) : ℕ → ℤ → Option (List Entry × ℤ)
  | 0, _ => none
  | fuel + 1, b =>
    if isWithinHeapRange h b then
      (walk h m fuel (getNextBlock m b)).map fun r => (readEntry m b :: r.1, r.2)
    else some ([], b)

/-- The walk from the start visits `es` and ends exactly at the end of the heap. -/
def Walks (h : Heap) (m : Mem) (es : List Entry) : Prop :=
  ∃ fuel, walk h m fuel h.start = some (es, h.start + h.size.toInt)

variable {h : Heap} {m : Mem} {s s' : State} {es es' : List Entry} {x : Block ℤ}
  {bs xs pre post : List (Block ℤ)}

theorem walk_mono {fuel : ℕ} {b : ℤ} {r : List Entry × ℤ} (hw : walk h m fuel b = some r) (k : ℕ) :
    walk h m (fuel + k) b = some r := by
  induction fuel generalizing b r with
  | zero => exact absurd hw (by simp [walk])
  | succ fuel ih =>
    rw [show fuel + 1 + k = fuel + k + 1 by omega, walk]
    rw [walk] at hw
    split_ifs at hw ⊢ with hin
    · obtain ⟨q, hq, rfl⟩ := Option.map_eq_some_iff.mp hw
      rw [ih hq]
      rfl
    · exact hw

theorem Walks.unique (h1 : Walks h m es) (h2 : Walks h m es') : es = es' := by
  obtain ⟨f, hf⟩ := h1
  obtain ⟨f', hf'⟩ := h2
  have e1 := walk_mono hf f'
  have e2 := walk_mono hf' f
  rw [Nat.add_comm] at e2
  exact congrArg Prod.fst (Option.some.inj (e1.symm.trans e2))

/-! ## The walk over a tiling -/

/-- What the walk reads of a stored block. -/
def entryOf (x : Block ℤ) : Entry := ⟨x.lo, BitVec.ofInt 32 (x.hi - x.lo), inUseFlag x.used⟩

theorem Stored.readEntry (hs : Stored m x) : readEntry m x.lo = entryOf x := by
  rw [Malloc.readEntry, hs.getBlockSize, hs.blockIsInUse]
  rfl

theorem walk_eq (pre : List (Block ℤ)) {b : ℤ} (hr : Rep h m (pre ++ post)) (hb : Tiles h.start b pre) :
    walk h m (post.length + 1) b = some (post.map entryOf, h.start + h.size.toInt) := by
  induction post generalizing pre b with
  | nil =>
    have he : b = h.start + h.size.toInt := hb.end_eq (by simpa using hr.tiles)
    rw [walk, he, not_within_end]
    rfl
  | cons x post ih =>
    obtain ⟨l, hl, hx⟩ := tiles_append.mp hr.tiles
    obtain rfl : b = x.lo := (hb.end_eq hl).trans hx.1.symm
    have hs := hr.stored x (by simp)
    have hrest := ih (pre ++ [x]) (b := x.hi) (by simpa using hr)
      (tiles_append.mpr ⟨_, hb, rfl, rfl⟩)
    rw [walk, if_pos (hr.within (by simp)), hs.getNextBlock, List.length_cons, hrest, hs.readEntry]
    rfl

/-- **The walk visits the blocks of the tiling.** -/
theorem Rep.walks (hr : Rep h m xs) : Walks h m (xs.map entryOf) :=
  ⟨_, walk_eq [] hr rfl⟩

theorem inUseFlag_eq_one {used : Bool} : inUseFlag used = 1 ↔ used = true := by
  cases used <;> decide

theorem inUseFlag_eq_zero {used : Bool} : inUseFlag used = 0 ↔ used = false := by
  cases used <;> decide

theorem Rep.entryOf_size (hr : Rep h m xs) (hx : x ∈ xs) :
    (entryOf x).size.toInt = x.hi - x.lo := toInt_ofInt_size (hr.isSize hx)

/-! ## Live blocks -/

/-- `[lo, hi)` is the block of a live payload. -/
def LiveBlock (s : State) (lo hi : ℤ) : Prop :=
  s.live (getPayload lo) ≠ none ∧ getNextBlock s.mem lo = hi

theorem Inv.liveBlock_iff (hi : Inv h s bs) (l r : ℤ) : LiveBlock s l r ↔ UsedSpan bs l r := by
  constructor
  · rintro ⟨hl, hn⟩
    obtain ⟨u, hu⟩ := Option.ne_none_iff_exists'.mp hl
    obtain ⟨x, hx, hxu, he, -⟩ := hi.block_of_live _ u hu
    have hlo : x.lo = l := by
      rw [getPayload, ofSize_HEADER_SIZE] at he
      omega
    subst hlo
    rw [(hi.rep.stored x hx).getNextBlock] at hn
    exact ⟨x, hx, hxu, rfl, hn⟩
  · rintro ⟨x, hx, hxu, rfl, rfl⟩
    exact ⟨hi.live_of_used x hx hxu, (hi.rep.stored x hx).getNextBlock⟩

theorem Inv.free_entry_iff (hi : Inv h s bs) (lo hi' : ℤ) :
    (∃ e ∈ bs.map entryOf, e.inUse = 0 ∧ e.addr = lo ∧ e.addr + e.size.toInt = hi') ↔
      ∃ x ∈ bs, x.used = false ∧ x.lo = lo ∧ x.hi = hi' := by
  constructor
  · rintro ⟨e, he, hu, rfl, rfl⟩
    obtain ⟨x, hx, rfl⟩ := List.mem_map.mp he
    refine ⟨x, hx, inUseFlag_eq_zero.mp hu, rfl, ?_⟩
    rw [hi.rep.entryOf_size hx]
    simp [entryOf]
  · rintro ⟨x, hx, hu, rfl, rfl⟩
    refine ⟨_, List.mem_map_of_mem hx, inUseFlag_eq_zero.mpr hu, rfl, ?_⟩
    rw [hi.rep.entryOf_size hx]
    simp [entryOf]

theorem eq_of_usedSpan {bs' : List (Block ℤ)} {a b : ℤ} (h1 : Tiles a b bs) (h2 : Tiles a b bs')
    (c1 : Coalesced bs) (c2 : Coalesced bs') (hu : ∀ l r, UsedSpan bs l r ↔ UsedSpan bs' l r) :
    bs = bs' := by
  have hmem : ∀ z : Block ℤ, z.used = true → ∀ xs, (z ∈ xs ↔ UsedSpan xs z.lo z.hi) := by
    intro z hz xs
    refine ⟨fun hm => ⟨z, hm, hz, rfl, rfl⟩, fun ⟨y, hy, hyu, hlo, hhi⟩ => ?_⟩
    rwa [Block.ext hlo.symm hhi.symm (hz.trans hyu.symm)]
  exact h1.unique h2 c1 c2 fun z hz => by rw [hmem z hz bs, hmem z hz bs', hu]

end IntroSystems.Malloc
