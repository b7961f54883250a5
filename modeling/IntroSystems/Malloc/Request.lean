import IntroSystems.Malloc.Heap

/-!
# Requests that do not fit

The header comment of `mymalloc` promises `NULL` when no block is large enough. The size goes
through an `int`, so a request above `2 ^ 31 - 12` bytes asks for a block of at most `8` bytes.

* `NoneFits`: no free block of the walk has a payload of that many bytes.
* `mymalloc_null_iff`: when the scan returns `NULL`.
* **`mymalloc_unfit_iff`**: the promise is kept exactly up to `2 ^ 31 - 12` bytes, and on a heap
  without free blocks. `mymalloc_unfit_wraps`: a request of `2 ^ 32 - 1` bytes is given `4`.
-/

set_option autoImplicit false

namespace IntroSystems.Malloc

open ByteMem Tiling

variable {h : Heap} {s : State} {bs : List (Block ℤ)} {x : Block ℤ} {u : BitVec 32}

/-- No free block of the walk has a payload of at least `u` bytes. -/
def NoneFits (h : Heap) (m : Mem) (u : BitVec 32) : Prop :=
  ∃ es, Walks h m es ∧ ∀ e ∈ es, e.inUse = 0 → (getPayloadSize m e.addr).toInt < u.toNat

/-- `mymalloc` returns `NULL` and memory is as it was. -/
def FailsCleanly (h : Heap) (m : Mem) (u : BitVec 32) : Prop :=
  ∃ fuel, mymalloc fuel h m u = some (m, none)

/-- No block of the walk is free. -/
def NoFreeBlock (h : Heap) (m : Mem) : Prop := ∃ es, Walks h m es ∧ ∀ e ∈ es, e.inUse ≠ 0

theorem toInt_getPayloadSize (hi : Inv h s bs) (hx : x ∈ bs) :
    (getPayloadSize s.mem x.lo).toInt = x.hi - x.lo - 8 := by
  have hs := hi.rep.isSize hx
  have h8 := hs.1
  have hlt := hs.2.1
  rw [getPayloadSize, (hi.rep.stored x hx).getBlockSize]
  have he : ((BitVec.ofInt 32 (x.hi - x.lo)).signExtend 64 - HEADER_SIZE * 2).setWidth 32 =
      BitVec.ofInt 32 (x.hi - x.lo) - 8 := by
    have h8 : (-(HEADER_SIZE * 2)).setWidth 32 = -(8 : BitVec 32) := by decide
    rw [BitVec.sub_eq_add_neg, BitVec.setWidth_add _ _ (by omega), setWidth_signExtend, h8,
      ← BitVec.sub_eq_add_neg]
  rw [he, BitVec.toInt_eq_toNat_cond, BitVec.toNat_sub, toNat_ofInt_size hs]
  simp only [BitVec.reduceToNat]
  omega

theorem Inv.forall_free (hi : Inv h s bs) (P : ℤ → Prop) :
    (∃ es, Walks h s.mem es ∧ ∀ e ∈ es, e.inUse = 0 → P e.addr) ↔
      ∀ x ∈ bs, x.used = false → P x.lo := by
  constructor
  · intro hw x hx hf
    obtain ⟨es, hes, hP⟩ := hw
    rw [hes.unique hi.rep.walks] at hP
    exact hP _ (List.mem_map_of_mem hx) (inUseFlag_eq_zero.mpr hf)
  · intro hP
    refine ⟨_, hi.rep.walks, fun e he h0 => ?_⟩
    obtain ⟨x, hx, rfl⟩ := List.mem_map.mp he
    exact hP x hx (inUseFlag_eq_zero.mp h0)

theorem Inv.noneFits_iff (hi : Inv h s bs) :
    NoneFits h s.mem u ↔ ∀ x ∈ bs, x.used = false → x.hi - x.lo - 8 < u.toNat := by
  unfold NoneFits
  rw [hi.forall_free fun a => (getPayloadSize s.mem a).toInt < u.toNat]
  refine forall₃_congr fun x hx _ => ?_
  rw [toInt_getPayloadSize hi hx]

theorem Inv.noFreeBlock_iff (hi : Inv h s bs) :
    NoFreeBlock h s.mem ↔ ∀ x ∈ bs, x.used = true := by
  have := hi.forall_free fun _ => False
  simp only [imp_false] at this
  refine this.trans (forall₂_congr fun x _ => ?_)
  rw [Bool.not_eq_false]

theorem mymalloc_null_iff (hi : Inv h s bs) (u : BitVec 32) :
    FailsCleanly h s.mem u ↔
      ∀ x ∈ bs, x.used = false → x.hi - x.lo < (getSizeToAllocate u).toInt := by
  have he := mymalloc_eq hi.rep u (Nat.lt_succ_self _)
  have hfit : (∀ x ∈ bs, x.used = false → x.hi - x.lo < (getSizeToAllocate u).toInt) ↔
      bs.find? (fits (getSizeToAllocate u)) = none := by
    simp [fits, List.find?_eq_none]
  rw [hfit]
  constructor
  · intro hc
    obtain ⟨fuel, hfuel⟩ := hc
    have hr := mymalloc_fuel hfuel he
    cases hfind : bs.find? (fits (getSizeToAllocate u)) with
    | none => rfl
    | some x =>
      rw [hfind] at hr
      exact absurd (congrArg Prod.snd hr) (by simp)
  · intro hfind
    rw [hfind] at he
    exact ⟨_, he⟩

/-- **When a request that does not fit fails cleanly.** -/
theorem mymalloc_unfit_iff (hr : (heapRun h).Reach s) (u : BitVec 32) :
    (NoneFits h s.mem u → FailsCleanly h s.mem u) ↔
      u.toNat ≤ 2 ^ 31 - 12 ∨ NoFreeBlock h s.mem := by
  obtain ⟨bs, hi⟩ := reach_inv hr
  rw [hi.noneFits_iff, mymalloc_null_iff hi, hi.noFreeBlock_iff]
  by_cases hu : u.toNat ≤ 2 ^ 31 - 12
  · -- the size asked for is rounded up, and so is no smaller than the block
    refine iff_of_true (fun hnone x hx hf => ?_) (.inl hu)
    have h1 := hnone x hx hf
    have h4 := (hi.rep.isSize hx).2.2
    rw [toInt_getSizeToAllocate hu]
    omega
  · -- no payload is as large, and the size asked for is at most `8`
    have hlarge : ∀ x ∈ bs, x.used = false → x.hi - x.lo - 8 < u.toNat := fun x hx _ => by
      have hb := hi.rep.tiles.bounds hx
      have hsz := (size_bounds hr).2
      omega
    have hsmall := toInt_getSizeToAllocate_le (u := u) (by omega)
    constructor
    · intro hc
      refine .inr fun x hx => ?_
      by_contra hf
      have h1 := hc hlarge x hx (by simpa using hf)
      have h8 := (hi.rep.isSize hx).1
      omega
    · intro hc _ x hx hf
      have := (hc.resolve_left hu) x hx
      rw [hf] at this
      exact absurd this (by decide)

theorem mymalloc_unfit_iff_small : ∃ s, (heapRun ⟨48, 16⟩).Reach s ∧ s.live 20 = some 5 ∧
    ((NoneFits ⟨48, 16⟩ s.mem 100 → FailsCleanly ⟨48, 16⟩ s.mem 100) ↔
      (100 : BitVec 32).toNat ≤ 2 ^ 31 - 12 ∨ NoFreeBlock ⟨48, 16⟩ s.mem) := by
  obtain ⟨s, hs, hl⟩ := exists_small_run
  exact ⟨s, hs, hl, mymalloc_unfit_iff hs 100⟩

/-- **The size wraps around.** On a new heap of `28` bytes no payload is larger than `4` bytes, and
a request of `2 ^ 32 - 1` bytes is granted. -/
theorem mymalloc_unfit_wraps : ∃ s, (heapRun ⟨12, 16⟩).Reach s ∧
    NoneFits ⟨12, 16⟩ s.mem 4294967295 ∧
    (mymalloc 2 ⟨12, 16⟩ s.mem 4294967295).map Prod.snd = some (some 20) ∧
    ¬FailsCleanly ⟨12, 16⟩ s.mem 4294967295 := by
  refine ⟨⟨setBlockHeader (fun _ => 0) 16 12 0, fun _ => none⟩, ?_, ?_, ?_, ?_⟩
  · exact .init ⟨⟨0, fun _ => 0, 28, by decide, by decide, by decide, by decide, rfl⟩, rfl⟩
  · exact ⟨[⟨16, 12, 0⟩], ⟨2, by decide⟩, by decide⟩
  · decide
  · intro hc
    obtain ⟨fuel, hfuel⟩ := hc
    have hgrant : mymalloc 2 ⟨12, 16⟩ (setBlockHeader (fun _ => 0) 16 12 0) 4294967295 =
      some (_, some 20) := rfl
    exact absurd (congrArg Prod.snd (mymalloc_fuel hfuel hgrant)) (by simp)

end IntroSystems.Malloc
