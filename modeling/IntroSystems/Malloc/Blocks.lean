import IntroSystems.Malloc.Words
import Mathlib.Data.Int.ConditionallyCompleteOrder

/-!
# The heap as a tiling

`Rep h m xs`: the blocks `xs` tile the heap region and both words of each are in memory.

* `Rep.replace`: writing inside a run of blocks replaces that run.
* `Rep.setUsed`, `Rep.join`, `Rep.split`: the three ways the operations rewrite headers.
* **`Rep.absorbNext`**, **`Rep.absorbPrev`**: the two merges of `myfree`.
-/

set_option autoImplicit false

namespace IntroSystems.Malloc

open ByteMem Tiling

/-- The blocks `xs` tile the heap `h`, and memory holds their headers and trailers. -/
structure Rep (h : Heap) (m : Mem) (xs : List (Block ℤ)) : Prop where
  tiles : Tiles h.start (h.start + h.size.toInt) xs
  stored : ∀ x ∈ xs, Stored m x

variable {h : Heap} {m m' : Mem} {x y : Block ℤ} {xs ys pre post : List (Block ℤ)}

theorem size_lt (h : Heap) : h.size.toInt < 2 ^ 31 := by
  have := BitVec.toInt_lt (x := h.size)
  omega

/-- **Writing inside a run of blocks replaces that run.** -/
theorem Rep.replace (mid mid' : List (Block ℤ)) (hr : Rep h m (pre ++ (x :: mid ++ post))) {r : ℤ}
    (ht : Tiles x.lo r (x :: mid)) (ht' : Tiles x.lo r mid') (hst : ∀ z ∈ mid', Stored m' z)
    (hm : ∀ a, a < x.lo ∨ r ≤ a → m' a = m a) : Rep h m' (pre ++ (mid' ++ post)) := by
  refine ⟨hr.tiles.replace ht ht', fun z hz => ?_⟩
  obtain ⟨l, hpre, hrest⟩ := tiles_append.mp hr.tiles
  obtain ⟨r', hmid, hpost⟩ := tiles_append.mp hrest
  obtain rfl : x.lo = l := hmid.1
  obtain rfl : r' = r := hmid.end_eq ht
  simp only [List.mem_append] at hz
  rcases hz with hz | hz | hz
  · have := (hpre.bounds hz).2
    exact (hr.stored z (by simp [hz])).congr fun a _ h2 => hm a (by omega)
  · exact hst z hz
  · have := (hpost.bounds hz).1
    exact (hr.stored z (by simp [hz])).congr fun a h1 _ => hm a (by omega)

theorem Rep.isSize (hr : Rep h m xs) (hx : x ∈ xs) : IsSize (x.hi - x.lo) := (hr.stored x hx).isSize

theorem Rep.next_lo (hr : Rep h m (pre ++ x :: y :: post)) : y.lo = x.hi := by
  obtain ⟨l, -, h2⟩ := tiles_append.mp hr.tiles
  exact h2.2.1

theorem Rep.within (hr : Rep h m xs) (hx : x ∈ xs) : isWithinHeapRange h x.lo = true := by
  have h1 := hr.tiles.bounds hx
  have h2 := x.lt
  simp only [isWithinHeapRange, ge_iff_le, Bool.and_eq_true, decide_eq_true_eq]
  omega

theorem not_within_end : isWithinHeapRange h (h.start + h.size.toInt) = false := by
  simp [isWithinHeapRange]

theorem Rep.isLastBlock (hr : Rep h m (pre ++ x :: post)) :
    isLastBlock h m x.lo = post.isEmpty := by
  obtain ⟨l, -, h2⟩ := tiles_append.mp hr.tiles
  rw [Malloc.isLastBlock, (hr.stored x (by simp)).getNextBlock]
  cases post with
  | nil => simpa using h2.2
  | cons y post =>
    have hlt := y.lt
    have hle := h2.2.2.le
    have hlo := h2.2.1
    simp only [List.isEmpty_cons, beq_eq_false_iff_ne, ne_eq]
    omega

theorem Rep.isFirstBlock (hr : Rep h m (pre ++ x :: post)) :
    isFirstBlock h x.lo = pre.isEmpty := by
  obtain ⟨l, h1, h2⟩ := tiles_append.mp hr.tiles
  rw [Malloc.isFirstBlock, h2.1]
  cases pre with
  | nil => simpa using h1.symm
  | cons y pre =>
    have hlt := y.lt
    have hle := h1.2.le
    have hlo := h1.1
    simp only [List.isEmpty_cons, beq_eq_false_iff_ne, ne_eq]
    omega

/-! ## Header rewrites -/

/-- The block with another in-use flag. -/
def withUsed (x : Block ℤ) (u : Bool) : Block ℤ := { x with used := u }

theorem Rep.setUsed (hr : Rep h m (pre ++ x :: post)) (u : Bool) :
    Rep h (setBlockHeader m x.lo (getBlockSize m x.lo) (inUseFlag u))
      (pre ++ withUsed x u :: post) := by
  have hs := hr.isSize (x := x) (by simp)
  rw [(hr.stored x (by simp)).getBlockSize]
  refine Rep.replace [] [withUsed x u] hr ⟨rfl, rfl⟩ ⟨rfl, rfl⟩ ?_ ?_
  · intro z hz
    rw [List.mem_singleton.mp hz]
    exact stored_setBlockHeader m (x := withUsed x u) hs
  · intro a ha
    exact setBlockHeader_outside hs (by omega) _

/-- Two neighbours as one free block. -/
def joined (x y : Block ℤ) (hxy : x.lo < y.hi) : Block ℤ := ⟨x.lo, y.hi, hxy, false⟩

theorem Rep.join_lt (hr : Rep h m (pre ++ x :: y :: post)) : x.lo < y.hi := by
  have h1 := hr.next_lo
  have h2 := x.lt
  have h3 := y.lt
  omega

theorem Rep.join_isSize (hr : Rep h m (pre ++ x :: y :: post)) : IsSize (y.hi - x.lo) := by
  have h1 := hr.next_lo
  obtain ⟨x1, -, x3⟩ := hr.isSize (x := x) (by simp)
  obtain ⟨y1, -, y3⟩ := hr.isSize (x := y) (by simp)
  have h2 := hr.tiles.bounds (x := x) (by simp)
  have h3 := hr.tiles.bounds (x := y) (by simp)
  have h4 := size_lt h
  exact ⟨by omega, by omega, by omega⟩

/-- Writing one free header over two neighbours. -/
theorem Rep.join (hr : Rep h m (pre ++ x :: y :: post)) :
    Rep h (setBlockHeader m x.lo (BitVec.ofInt 32 (y.hi - x.lo)) 0)
      (pre ++ joined x y hr.join_lt :: post) := by
  have hs := hr.join_isSize
  refine Rep.replace [y] [joined x y hr.join_lt] (r := y.hi) hr
    ⟨rfl, hr.next_lo, rfl⟩ ⟨rfl, rfl⟩ ?_ ?_
  · intro z hz
    rw [List.mem_singleton.mp hz]
    exact stored_setBlockHeader m (x := joined x y hr.join_lt) hs
  · intro a ha
    exact setBlockHeader_outside hs (by omega) _

/-- The front part of `n` bytes, in use. -/
def frontPart (x : Block ℤ) (n : ℤ) (hn : 0 < n) : Block ℤ := ⟨x.lo, x.lo + n, by omega, true⟩

/-- What is left behind the front part. -/
def restPart (x : Block ℤ) (n : ℤ) (hn : n < x.hi - x.lo) : Block ℤ :=
  ⟨x.lo + n, x.hi, by omega, false⟩

/-- Writing the remainder's header and then the front's. -/
theorem Rep.split (hr : Rep h m (pre ++ x :: post)) {n : ℤ} (hn : IsSize n)
    (hle : n + 12 ≤ x.hi - x.lo) :
    Rep h (setBlockHeader (setBlockHeader m (x.lo + n) (BitVec.ofInt 32 (x.hi - x.lo - n)) 0)
        x.lo (BitVec.ofInt 32 n) 1)
      (pre ++ frontPart x n hn.pos :: restPart x n (by omega) :: post) := by
  obtain ⟨n1, n2, n3⟩ := hn
  obtain ⟨-, s2, s3⟩ := hr.isSize (x := x) (by simp)
  have hrest : IsSize (x.hi - x.lo - n) := ⟨by omega, by omega, by omega⟩
  have hlen : x.hi - (x.lo + n) = x.hi - x.lo - n := by omega
  have hfront : x.lo + n - x.lo = n := by omega
  refine Rep.replace [] [frontPart x n (by omega), restPart x n (by omega)]
    (r := x.hi) hr ⟨rfl, rfl⟩ ⟨rfl, rfl, rfl⟩ ?_ ?_
  · intro z hz
    simp only [List.mem_cons, List.not_mem_nil, or_false] at hz
    rcases hz with rfl | rfl
    · have := stored_setBlockHeader (setBlockHeader m (x.lo + n)
        (BitVec.ofInt 32 (x.hi - x.lo - n)) 0) (x := frontPart x n (by omega))
        (by rw [frontPart, hfront]; exact ⟨n1, n2, n3⟩)
      rwa [frontPart, hfront] at this
    · -- the front's words lie below the remainder
      have := stored_setBlockHeader m (x := restPart x n (by omega))
        (by rw [restPart, hlen]; exact hrest)
      rw [restPart, hlen] at this
      refine this.congr fun a h1 _ => setBlockHeader_outside ⟨n1, n2, n3⟩ ?_ _
      exact .inr h1
  · intro a ha
    rw [setBlockHeader_outside ⟨n1, n2, n3⟩ (by omega), setBlockHeader_outside hrest (by omega)]

/-! ## The two merges of `myfree` -/

theorem coalesce_join (hr : Rep h m (pre ++ x :: y :: post)) (hx : x.used = false)
    (hy : y.used = false) :
    coalesce h m x.lo = (setBlockHeader m x.lo (BitVec.ofInt 32 (y.hi - x.lo)) 0, x.lo) := by
  have hsx := hr.stored x (by simp)
  have hsy := hr.stored y (by simp)
  have hlo := hr.next_lo
  rw [coalesce, hr.isLastBlock, hsx.free_iff, hsx.getNextBlock, ← hlo, hsy.free_iff, hx, hy]
  rw [if_pos (by rfl), hsx.getBlockSize, hsy.getBlockSize, ← BitVec.ofInt_add,
    show x.hi - x.lo + (y.hi - y.lo) = y.hi - x.lo by omega]

/-- The condition and the call of the first merge of `myfree`. -/
def absorbNext (h : Heap) (m : Mem) (block_start : ℤ) : Mem × ℤ :=
  if !isLastBlock h m block_start && isWithinHeapRange h (getNextBlock m block_start) &&
      blockIsInUse m (getNextBlock m block_start) == 0 then
    coalesce h m block_start
  else (m, block_start)

/-- The condition and the call of the second merge of `myfree`. -/
def absorbPrev (h : Heap) (m : Mem) (block_start : ℤ) : Mem :=
  if !isFirstBlock h block_start && isWithinHeapRange h (getPreviousBlock m block_start) &&
      blockIsInUse m (getPreviousBlock m block_start) == 0 then
    (coalesce h m (getPreviousBlock m block_start)).1
  else m

theorem myfree_eq (h : Heap) (m : Mem) (payload : ℤ) :
    myfree h m payload =
      let b := getBlockStart payload
      let r := absorbNext h (setBlockHeader m b (getBlockSize m b) 0) b
      absorbPrev h r.1 r.2 := rfl

/-- **The merge with the next block.** -/
theorem Rep.absorbNext (hr : Rep h m (pre ++ x :: post)) (hx : x.used = false)
    (hc : Coalesced post) :
    ∃ z post', (absorbNext h m x.lo).2 = z.lo ∧ z.lo = x.lo ∧ z.used = false ∧
      Rep h (absorbNext h m x.lo).1 (pre ++ z :: post') ∧ Coalesced post' ∧
      (∀ y ∈ post'.head?, y.used = true) ∧
      (∀ y : Block ℤ, y.used = true → (y ∈ post' ↔ y ∈ post)) ∧
      ∀ a, a < x.lo ∨ z.hi ≤ a → (absorbNext h m x.lo).1 a = m a := by
  have hsx := hr.stored x (by simp)
  cases post with
  | nil =>
    have hlast : Malloc.isLastBlock h m x.lo = true := hr.isLastBlock
    have he : Malloc.absorbNext h m x.lo = (m, x.lo) := by
      rw [Malloc.absorbNext, hlast]
      rfl
    rw [he]
    exact ⟨x, [], rfl, rfl, hx, hr, hc, by simp, by simp, fun a _ => rfl⟩
  | cons y post =>
    have hsy := hr.stored y (by simp)
    have hlast : Malloc.isLastBlock h m x.lo = false := hr.isLastBlock
    have hin : isWithinHeapRange h y.lo = true := hr.within (by simp)
    cases hy : y.used with
    | true =>
      have he : Malloc.absorbNext h m x.lo = (m, x.lo) := by
        rw [Malloc.absorbNext, hlast, hsx.getNextBlock, ← hr.next_lo, hin, hsy.free_iff, hy]
        rfl
      rw [he]
      exact ⟨x, y :: post, rfl, rfl, hx, hr, hc, by simpa using hy, by simp, fun a _ => rfl⟩
    | false =>
      have he : Malloc.absorbNext h m x.lo =
          (setBlockHeader m x.lo (BitVec.ofInt 32 (y.hi - x.lo)) 0, x.lo) := by
        rw [Malloc.absorbNext, hlast, hsx.getNextBlock, ← hr.next_lo, hin, hsy.free_iff, hy]
        exact coalesce_join hr hx hy
      rw [he]
      refine ⟨joined x y hr.join_lt, post, rfl, rfl, rfl, hr.join, hc.tail, ?_, ?_, ?_⟩
      · intro w hw
        exact ((List.isChain_cons.mp hc).1 w hw).resolve_left (by simp [hy])
      · intro w hw
        have hne : w ≠ y := fun e => by rw [e, hy] at hw; exact absurd hw (by decide)
        simp [hne]
      · intro a ha
        exact setBlockHeader_outside hr.join_isSize (by simp only [joined] at ha; omega) _

/-- **The merge with the previous block.** -/
theorem Rep.absorbPrev (hr : Rep h m (pre ++ x :: post)) (hx : x.used = false)
    (hc : Coalesced pre) :
    ∃ pre' z, z.hi = x.hi ∧ z.used = false ∧ Rep h (absorbPrev h m x.lo) (pre' ++ z :: post) ∧
      Coalesced pre' ∧ (∀ w ∈ pre'.getLast?, w.used = true) ∧
      (∀ w : Block ℤ, w.used = true → (w ∈ pre' ↔ w ∈ pre)) ∧
      ∀ a, a < z.lo ∨ x.hi ≤ a → absorbPrev h m x.lo a = m a := by
  rcases List.eq_nil_or_concat pre with rfl | ⟨pre, w, rfl⟩
  · have hfirst : Malloc.isFirstBlock h x.lo = true := hr.isFirstBlock
    have he : Malloc.absorbPrev h m x.lo = m := by
      rw [Malloc.absorbPrev, hfirst]
      rfl
    rw [he]
    exact ⟨[], x, rfl, hx, hr, hc, by simp, by simp, fun a _ => rfl⟩
  · have hfirst : Malloc.isFirstBlock h x.lo = false := by
      rw [hr.isFirstBlock]
      simp
    rw [List.concat_eq_append] at hr hc ⊢
    have hr' : Rep h m (pre ++ w :: x :: post) := by simpa using hr
    have hsw := hr'.stored w (by simp)
    have hin : isWithinHeapRange h w.lo = true := hr'.within (by simp)
    have hprev : getPreviousBlock m x.lo = w.lo := by rw [hr'.next_lo, hsw.getPreviousBlock]
    cases hw : w.used with
    | true =>
      have he : Malloc.absorbPrev h m x.lo = m := by
        rw [Malloc.absorbPrev, hfirst, hprev, hin, hsw.free_iff, hw]
        rfl
      rw [he]
      exact ⟨pre ++ [w], x, rfl, hx, hr, hc, by simpa using hw, by simp, fun a _ => rfl⟩
    | false =>
      have he : Malloc.absorbPrev h m x.lo =
          setBlockHeader m w.lo (BitVec.ofInt 32 (x.hi - w.lo)) 0 := by
        rw [Malloc.absorbPrev, hfirst, hprev, hin, hsw.free_iff, hw, coalesce_join hr' hw hx]
        rfl
      rw [he]
      refine ⟨pre, joined w x hr'.join_lt, rfl, rfl, hr'.join, ?_, ?_, ?_, ?_⟩
      · exact (coalesced_middle.mp hc).1.1
      · intro v hv
        exact ((coalesced_middle.mp hc).2.1 v hv).resolve_right (by simp [hw])
      · intro v hv
        have hne : v ≠ w := fun e => by rw [e, hw] at hv; exact absurd hv (by decide)
        simp [hne]
      · intro a ha
        exact setBlockHeader_outside hr'.join_isSize (by simp only [joined] at ha; omega) _

end IntroSystems.Malloc
