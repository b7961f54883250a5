import IntroSystems.Malloc.Blocks
import Mathlib.Data.List.Nodup

/-!
# What `myfree` and `mymalloc` do to the blocks

* **`myfree_spec`**: freeing a used block leaves a coalesced heap without it.
* `splitParts`, `splitAndMarkUsed_spec`: the block that is cut, and its parts.
* `mymalloc_eq`: the scan finds the first free block that is large enough, with any fuel above
  the number of blocks; `mymalloc_fuel`: a result does not depend on the fuel.
* **`mymalloc_spec`**: the two outcomes of a request of at most `2 ^ 31 - 12` bytes.
-/

set_option autoImplicit false

namespace IntroSystems.Malloc

open ByteMem Tiling

variable {h : Heap} {m m' : Mem} {x y : Block ℤ} {xs ys pre post : List (Block ℤ)}

/-! ## Freeing -/

theorem Rep.frame_used {z w : Block ℤ} {r : ℤ} (hr : Rep h m xs) (hw : w ∈ xs) (hwf : w.used = false)
    (hz : z ∈ xs) (hzu : z.used = true) (hwr : r = w.hi) {a : ℤ} (h1 : z.lo ≤ a) (h2 : a < z.hi) :
    a < w.lo ∨ r ≤ a := by
  have hne : z ≠ w := fun e => by rw [e, hwf] at hzu; exact absurd hzu (by decide)
  have := hr.tiles.disjoint hz hw hne
  omega

theorem Rep.frame_outside {w : Block ℤ} (hr : Rep h m xs) (hw : w ∈ xs) {a : ℤ}
    (ha : a < h.start ∨ h.start + h.size.toInt ≤ a) : a < w.lo ∨ w.hi ≤ a := by
  have := hr.tiles.bounds hw
  omega

theorem used_around {pre' post' : List (Block ℤ)} {w v : Block ℤ} (hnd : (pre ++ x :: post).Nodup)
    (hwf : w.used = false) (hpre : v ∈ pre' ↔ v ∈ pre) (hpost : v ∈ post' ↔ v ∈ post)
    (hv : v.used = true) : v ∈ pre' ++ w :: post' ↔ v ∈ pre ++ x :: post ∧ v ≠ x := by
  have hvw : v ≠ w := by
    rintro rfl
    exact Bool.false_ne_true (hwf.symm.trans hv)
  simp only [List.mem_append, List.mem_cons, hvw, false_or, hpre, hpost]
  constructor
  · intro hm
    refine ⟨by tauto, ?_⟩
    rintro rfl
    have := List.nodup_middle.mp hnd
    rw [List.nodup_cons, List.mem_append] at this
    exact this.1 hm
  · rintro ⟨hm, hne⟩
    tauto

/-- **Freeing a block** removes it from the used blocks, keeps the heap coalesced and
changes no byte of another used block or outside the heap. -/
theorem myfree_spec (hr : Rep h m xs) (hc : Coalesced xs) (hx : x ∈ xs) :
    ∃ ys, Rep h (myfree h m (x.lo + 4)) ys ∧ Coalesced ys ∧
      (∀ z : Block ℤ, z.used = true → (z ∈ ys ↔ z ∈ xs ∧ z ≠ x)) ∧
      (∀ z ∈ xs, z.used = true → z ≠ x → ∀ a, z.lo ≤ a → a < z.hi →
        myfree h m (x.lo + 4) a = m a) ∧
      ∀ a, a < h.start ∨ h.start + h.size.toInt ≤ a → myfree h m (x.lo + 4) a = m a := by
  obtain ⟨pre, post, rfl⟩ := List.append_of_mem hx
  obtain ⟨⟨hcpre, hcpost⟩, -, -⟩ := coalesced_middle.mp hc
  -- the block is marked free, then joined with the next and with the previous one
  have h1 := hr.setUsed false
  have hfr1 : ∀ a, a < x.lo ∨ x.hi ≤ a →
      setBlockHeader m x.lo (getBlockSize m x.lo) (inUseFlag false) a = m a := by
    intro a ha
    rw [(hr.stored x hx).getBlockSize]
    exact setBlockHeader_outside (hr.isSize hx) (by omega) _
  set m₁ := setBlockHeader m x.lo (getBlockSize m x.lo) (inUseFlag false)
  obtain ⟨z, post', he, hlo, hzf, h2, hcp, hhead, hupost, hfr2⟩ := h1.absorbNext rfl hcpost
  obtain ⟨pre', w, hhi, hwf, h3, hcw, hlast, hupre, hfr3⟩ := h2.absorbPrev hzf hcpre
  have hfree : myfree h m (x.lo + 4) = absorbPrev h (absorbNext h m₁ x.lo).1 z.lo := by
    have hb : getBlockStart (x.lo + 4) = x.lo := by
      rw [getBlockStart, ofSize_HEADER_SIZE]
      omega
    rw [myfree_eq, hb]
    exact congrArg (absorbPrev h _) he
  change z.lo = x.lo at hlo
  change ∀ a, a < x.lo ∨ z.hi ≤ a → (absorbNext h m₁ x.lo).1 a = m₁ a at hfr2
  change Rep h (absorbPrev h (absorbNext h m₁ x.lo).1 z.lo) _ at h3
  change ∀ a, a < w.lo ∨ z.hi ≤ a →
    absorbPrev h (absorbNext h m₁ x.lo).1 z.lo a = (absorbNext h m₁ x.lo).1 a at hfr3
  rw [hfree]
  -- the used blocks are those around `x`
  have hnd := hr.tiles.nodup
  have hused : ∀ v : Block ℤ, v.used = true →
      (v ∈ pre' ++ w :: post' ↔ v ∈ pre ++ x :: post ∧ v ≠ x) := fun v hv =>
    used_around hnd hwf (hupre v hv) (hupost v hv) hv
  have hmem2 : ∀ v : Block ℤ, v.used = true → v ∈ pre ++ x :: post → v ≠ x →
      v ∈ pre ++ z :: post' := fun v hv hm hne =>
    (used_around hnd hzf Iff.rfl (hupost v hv) hv).mpr ⟨hm, hne⟩
  refine ⟨pre' ++ w :: post', h3, ?_, hused, ?_, ?_⟩
  · exact coalesced_middle.mpr ⟨⟨hcw, hcp⟩, fun v hv => .inl (hlast v hv),
      fun v hv => .inr (hhead v hv)⟩
  · intro v hvm hv hne a ha1 ha2
    have hd1 := hr.tiles.disjoint hvm hx hne
    have hd2 := h2.frame_used (w := z) (by simp) hzf (hmem2 v hv hvm hne) hv rfl ha1 ha2
    have hd3 := h3.frame_used (w := w) (by simp) hwf ((hused v hv).mpr ⟨hvm, hne⟩) hv rfl ha1 ha2
    rw [hfr3 a (by omega), hfr2 a (by omega), hfr1 a (by omega)]
  · intro a ha
    have hd1 := hr.frame_outside hx ha
    have hd2 := h2.frame_outside (w := z) (by simp) ha
    have hd3 := h3.frame_outside (w := w) (by simp) ha
    rw [hfr3 a (by omega), hfr2 a (by omega), hfr1 a (by omega)]

/-! ## Splitting -/

/-- The parts of a block cut for `n` bytes: all of it, unless at least `12` bytes are left. -/
def splitParts (x : Block ℤ) (n : ℤ) : List (Block ℤ) :=
  if hn : 0 < n ∧ n + 12 ≤ x.hi - x.lo then
    [frontPart x n hn.1, restPart x n (by omega)]
  else [withUsed x true]

theorem lt_of_add_le {n d : ℤ} (h : n + 12 ≤ d) : n < d := by omega

theorem splitParts_of_le {n : ℤ} (hn : IsSize n) (hle : n + 12 ≤ x.hi - x.lo) :
    splitParts x n = [frontPart x n hn.pos, restPart x n (lt_of_add_le hle)] := by
  rw [splitParts, dif_pos ⟨hn.pos, hle⟩]

theorem splitParts_of_lt {n : ℤ} (hlt : x.hi - x.lo < n + 12) :
    splitParts x n = [withUsed x true] := by
  rw [splitParts, dif_neg (by omega)]

theorem ofInt_sub_ofInt (s n : ℤ) :
    BitVec.ofInt 32 s - BitVec.ofInt 32 n = BitVec.ofInt 32 (s - n) := by
  rw [BitVec.sub_eq_add_neg, ← BitVec.ofInt_neg, ← BitVec.ofInt_add, Int.sub_eq_add_neg]

/-- The comparison in `split_and_mark_used`, for sizes that fit. -/
theorem split_test {s n : ℤ} (hn : IsSize n) (hle : n ≤ s) (hs : IsSize s) :
    (BitVec.ofInt 32 s - BitVec.ofInt 32 n).signExtend 64 ≥ 3 * HEADER_SIZE ↔ n + 12 ≤ s := by
  obtain ⟨n1, n2, -⟩ := hn
  obtain ⟨s1, s2, -⟩ := hs
  have hnat : (BitVec.ofInt 32 (s - n)).toNat = (s - n).toNat := by
    rw [BitVec.toNat_ofInt]
    omega
  have hmsb : (BitVec.ofInt 32 (s - n)).msb = false := by
    rw [BitVec.msb_eq_decide, hnat]
    simp only [decide_eq_false_iff_not, not_le]
    omega
  have hext : ((BitVec.ofInt 32 (s - n)).signExtend 64).toNat = (s - n).toNat := by
    rw [BitVec.signExtend_eq_setWidth_of_msb_false hmsb, BitVec.toNat_setWidth, hnat]
    omega
  rw [ofInt_sub_ofInt, ge_iff_le, BitVec.le_def, hext]
  change 12 ≤ (s - n).toNat ↔ _
  omega

/-- **`split_and_mark_used` replaces the block by its parts.** -/
theorem splitAndMarkUsed_spec (hr : Rep h m (pre ++ x :: post)) {needed : BitVec 32} {n : ℤ}
    (hneeded : needed.toInt = n) (hn : IsSize n) (hle : n ≤ x.hi - x.lo) :
    (splitAndMarkUsed h m x.lo needed).2 = x.lo + 4 ∧
      Rep h (splitAndMarkUsed h m x.lo needed).1 (pre ++ (splitParts x n ++ post)) ∧
      ∀ a, a < x.lo ∨ x.hi ≤ a → (splitAndMarkUsed h m x.lo needed).1 a = m a := by
  have hs := hr.stored x (by simp)
  have hb := hs.getBlockSize
  obtain rfl : needed = BitVec.ofInt 32 n := eq_ofInt_of_toInt hneeded
  unfold splitAndMarkUsed
  by_cases hsplit : n + 12 ≤ x.hi - x.lo
  · rw [hb, if_pos ((split_test hn hle hs.isSize).mpr hsplit), splitParts_of_le hn hsplit, hneeded,
      ofInt_sub_ofInt]
    refine ⟨rfl, hr.split hn hsplit, fun a ha => ?_⟩
    have hrest : IsSize (x.hi - x.lo - n) := by
      obtain ⟨n1, n2, n3⟩ := hn
      obtain ⟨s1, s2, s3⟩ := hs.isSize
      exact ⟨by omega, by omega, by omega⟩
    have := hn.1
    change setBlockHeader (setBlockHeader m (x.lo + n) (BitVec.ofInt 32 (x.hi - x.lo - n)) 0)
      x.lo (BitVec.ofInt 32 n) 1 a = m a
    rw [setBlockHeader_outside hn (by omega), setBlockHeader_outside hrest (by omega)]
  · rw [hb, if_neg (mt (split_test hn hle hs.isSize).mp hsplit), splitParts_of_lt (by omega)]
    refine ⟨rfl, ?_, fun a ha => setBlockHeader_outside hs.isSize (by omega) _⟩
    have := hr.setUsed true
    rwa [hb] at this

/-! ## The first-fit scan -/

/-- The test of the scan in `mymalloc`. -/
def fits (needed : BitVec 32) (x : Block ℤ) : Bool :=
  !x.used && decide (needed.toInt ≤ x.hi - x.lo)

theorem mymallocScan_eq (pre : List (Block ℤ)) (hr : Rep h m (pre ++ post)) {blk : ℤ}
    (hb : Tiles h.start blk pre) (u : BitVec 32) {fuel : ℕ} (hf : post.length < fuel) :
    mymallocScan h m u fuel blk = some (match post.find? (fits (getSizeToAllocate u)) with
      | none => (m, none)
      | some x => ((splitAndMarkUsed h m x.lo (getSizeToAllocate u)).1,
          some (splitAndMarkUsed h m x.lo (getSizeToAllocate u)).2)) := by
  induction post generalizing pre blk fuel with
  | nil =>
    obtain ⟨fuel, rfl⟩ : ∃ k, fuel = k + 1 := ⟨fuel - 1, by simp at hf; omega⟩
    have he : blk = h.start + h.size.toInt := hb.end_eq (by simpa using hr.tiles)
    rw [mymallocScan, he, not_within_end]
    rfl
  | cons x post ih =>
    obtain ⟨fuel, rfl⟩ : ∃ k, fuel = k + 1 := ⟨fuel - 1, by simp at hf; omega⟩
    obtain ⟨l, hl, hx⟩ := tiles_append.mp hr.tiles
    obtain rfl : blk = x.lo := (hb.end_eq hl).trans hx.1.symm
    have hs := hr.stored x (by simp)
    rw [mymallocScan, if_pos (hr.within (by simp)), hs.free_iff, hs.toInt_getBlockSize]
    rw [List.find?_cons]
    cases hfit : fits (getSizeToAllocate u) x with
    | true =>
      rw [fits] at hfit
      rw [if_pos (by simpa using hfit)]
    | false =>
      rw [fits] at hfit
      rw [if_neg (by simpa using hfit), hs.getNextBlock]
      refine ih (pre ++ [x]) (by simpa using hr) ?_ (by simpa using hf)
      exact tiles_append.mpr ⟨_, hb, rfl, rfl⟩

/-- **The scan of `mymalloc` terminates**, with the first block that fits. -/
theorem mymalloc_eq (hr : Rep h m xs) (u : BitVec 32) {fuel : ℕ} (hf : xs.length < fuel) :
    mymalloc fuel h m u = some (match xs.find? (fits (getSizeToAllocate u)) with
      | none => (m, none)
      | some x => ((splitAndMarkUsed h m x.lo (getSizeToAllocate u)).1,
          some (splitAndMarkUsed h m x.lo (getSizeToAllocate u)).2)) :=
  mymallocScan_eq [] hr rfl u hf

theorem mymallocScan_mono (u : BitVec 32) {fuel : ℕ} {blk : ℤ} {r : Mem × Option ℤ}
    (hs : mymallocScan h m u fuel blk = some r) (k : ℕ) :
    mymallocScan h m u (fuel + k) blk = some r := by
  induction fuel generalizing blk with
  | zero => exact absurd hs (by simp [mymallocScan])
  | succ fuel ih =>
    rw [show fuel + 1 + k = fuel + k + 1 by omega, mymallocScan]
    rw [mymallocScan] at hs
    split_ifs at hs ⊢ with h1 h2
    · exact hs
    · exact ih hs
    · exact hs

/-- A result of `mymalloc` does not depend on the fuel. -/
theorem mymalloc_fuel {u : BitVec 32} {f f' : ℕ} {r r' : Mem × Option ℤ}
    (h1 : mymalloc f h m u = some r) (h2 : mymalloc f' h m u = some r') : r = r' := by
  have e1 := mymallocScan_mono u h1 f'
  have e2 := mymallocScan_mono u h2 f
  rw [Nat.add_comm] at e2
  exact Option.some.inj (e1.symm.trans e2)

/-! ## Allocating -/

theorem isSize_needed {u : BitVec 32} (hu : u.toNat ≤ 2 ^ 31 - 12) :
    IsSize (getSizeToAllocate u).toInt := by
  rw [toInt_getSizeToAllocate hu]
  exact ⟨by omega, by omega, by omega⟩

/-- **The two outcomes of `mymalloc`** on a legal request: no block fits and nothing changes, or
the first block that fits is replaced by its parts. -/
theorem mymalloc_spec (hr : Rep h m xs) {u : BitVec 32} (hu : u.toNat ≤ 2 ^ 31 - 12) {fuel : ℕ}
    {r : Option ℤ} (hm : mymalloc fuel h m u = some (m', r)) :
    (r = none ∧ m' = m ∧ ∀ x ∈ xs, fits (getSizeToAllocate u) x = false) ∨
      ∃ pre x post, xs = pre ++ x :: post ∧ fits (getSizeToAllocate u) x = true ∧
        (∀ w ∈ pre, fits (getSizeToAllocate u) w = false) ∧ r = some (x.lo + 4) ∧
        Rep h m' (pre ++ (splitParts x (getSizeToAllocate u).toInt ++ post)) ∧
        ∀ a, a < x.lo ∨ x.hi ≤ a → m' a = m a := by
  have he := mymalloc_fuel hm (mymalloc_eq hr u (Nat.lt_succ_self _))
  cases hfind : xs.find? (fits (getSizeToAllocate u)) with
  | none =>
    rw [hfind] at he
    obtain ⟨rfl, rfl⟩ := Prod.mk.inj he
    exact .inl ⟨rfl, rfl, fun x hx => by simpa using List.find?_eq_none.mp hfind x hx⟩
  | some x =>
    rw [hfind] at he
    obtain ⟨rfl, rfl⟩ := Prod.mk.inj he
    obtain ⟨hfit, pre, post, rfl, hpre⟩ := List.find?_eq_some_iff_append.mp hfind
    have hle : (getSizeToAllocate u).toInt ≤ x.hi - x.lo := by
      rw [fits] at hfit
      simpa using (Bool.and_eq_true_iff.mp hfit).2
    obtain ⟨e, hrep, hfr⟩ := splitAndMarkUsed_spec hr rfl (isSize_needed hu) hle
    rw [e]
    exact .inr ⟨pre, x, post, rfl, hfit, fun w hw => by simpa using hpre w hw, rfl, hrep, hfr⟩

end IntroSystems.Malloc
