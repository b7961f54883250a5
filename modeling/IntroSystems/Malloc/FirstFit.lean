import IntroSystems.Malloc.Heap

/-!
# First fit

What a request of at most `2 ^ 31 - 12` bytes does to the blocks of the walk.

* `needed`: the block size for a request. `Fits`: a free entry that is large enough.
* `granted`: what becomes of the entry that is chosen.
* `map_entryOf_splitParts`: it is what `split_and_mark_used` does to the block.
* **`mymalloc_firstFit`**: the scan ends; it takes the lowest entry that fits, if there is one.
-/

set_option autoImplicit false

namespace IntroSystems.Malloc

open ByteMem Tiling

/-- The payload in whole words, a header and a footer. -/
def needed (u : BitVec 32) : ℤ := 4 * ((u.toNat + 3 : ℤ) / 4) + 8

/-- A free block of at least the size that is needed. -/
def Fits (u : BitVec 32) (e : Entry) : Prop := e.inUse = 0 ∧ needed u ≤ e.size.toInt

/-- The entries in the place of the one that is chosen for a block of `n` bytes. -/
def granted (n : ℤ) (e : Entry) : List Entry :=
  if 12 ≤ e.size.toInt - n then
    [⟨e.addr, BitVec.ofInt 32 n, 1⟩, ⟨e.addr + n, BitVec.ofInt 32 (e.size.toInt - n), 0⟩]
  else [⟨e.addr, e.size, 1⟩]

/-- The scan ends, with the memory `m'` and the pointer `r`. -/
def Returns (h : Heap) (m : Mem) (u : BitVec 32) (m' : Mem) (r : Option ℤ) : Prop :=
  ∃ turns, ∀ fuel ≥ turns, mymalloc fuel h m u = some (m', r)

variable {h : Heap} {m m' : Mem} {s : State} {bs : List (Block ℤ)} {x : Block ℤ} {u : BitVec 32}

theorem toInt_getSizeToAllocate_eq_needed (hu : u.toNat ≤ 2 ^ 31 - 12) :
    (getSizeToAllocate u).toInt = needed u := toInt_getSizeToAllocate hu

theorem Rep.returns (hr : Rep h m bs) {fuel : ℕ} {r : Option ℤ}
    (hm : mymalloc fuel h m u = some (m', r)) : Returns h m u m' r := by
  refine ⟨bs.length + 1, fun k hk => ?_⟩
  have he := mymalloc_eq hr u hk
  rw [he]
  exact congrArg some (mymalloc_fuel he hm)

theorem Rep.fits_iff (hr : Rep h m bs) (hx : x ∈ bs) (hu : u.toNat ≤ 2 ^ 31 - 12) :
    Fits u (entryOf x) ↔ fits (getSizeToAllocate u) x = true := by
  unfold Fits fits
  rw [hr.entryOf_size hx, toInt_getSizeToAllocate_eq_needed hu]
  simp only [Bool.and_eq_true, Bool.not_eq_true', decide_eq_true_eq]
  exact and_congr_left fun _ => inUseFlag_eq_zero

/-- **The parts of a cut block**, as the walk reads them. -/
theorem map_entryOf_splitParts {n : ℤ} (hn : IsSize n) (hs : IsSize (x.hi - x.lo)) :
    (splitParts x n).map entryOf = granted n (entryOf x) := by
  have hsize : (entryOf x).size.toInt = x.hi - x.lo := toInt_ofInt_size hs
  unfold granted
  rw [hsize]
  by_cases hsplit : n + 12 ≤ x.hi - x.lo
  · have hfront : x.lo + n - x.lo = n := by omega
    have hrest : x.hi - (x.lo + n) = x.hi - x.lo - n := by omega
    rw [splitParts_of_le hn hsplit, if_pos (by omega)]
    simp only [List.map_cons, List.map_nil, entryOf, frontPart, restPart, hfront, hrest]
    rfl
  · rw [splitParts_of_lt (by omega), if_neg (by omega)]
    rfl

/-- **First fit.** The scan ends; if some block fits, it returns the payload of the lowest one,
which is cut if at least `12` bytes are left. No byte of another block changes. -/
theorem mymalloc_firstFit (hr : (heapRun h).Reach s) (hu : u.toNat ≤ 2 ^ 31 - 12) :
    ∃ es m' r, Walks h s.mem es ∧ Returns h s.mem u m' r ∧
      ((∃ e ∈ es, Fits u e) → ∃ pre B post, es = pre ++ B :: post ∧ Fits u B ∧
        (∀ e ∈ es, Fits u e → B.addr ≤ e.addr) ∧ r = some (getPayload B.addr) ∧
        Walks h m' (pre ++ granted (needed u) B ++ post) ∧
        ∀ a, a < B.addr ∨ B.addr + B.size.toInt ≤ a → m' a = s.mem a) := by
  obtain ⟨bs, hi⟩ := reach_inv hr
  obtain ⟨m', r, hm⟩ : ∃ m' r, mymalloc (bs.length + 1) h s.mem u = some (m', r) :=
    ⟨_, _, mymalloc_eq hi.rep u (Nat.lt_succ_self _)⟩
  refine ⟨bs.map entryOf, m', r, hi.rep.walks, hi.rep.returns hm, fun hfit => ?_⟩
  obtain ⟨e, he, hfe⟩ := hfit
  obtain ⟨y, hy, rfl⟩ := List.mem_map.mp he
  have hyfit := (hi.rep.fits_iff hy hu).mp hfe
  rcases mymalloc_spec hi.rep hu hm with ⟨-, -, hnone⟩ |
    ⟨pre, x, post, rfl, hxfit, hpre, rfl, hrep, hframe⟩
  · rw [hnone y hy] at hyfit
    exact absurd hyfit Bool.false_ne_true
  have hx : x ∈ pre ++ x :: post := by simp
  have hsize := hi.rep.entryOf_size hx
  have hn := isSize_needed hu
  have hwalk := hrep.walks
  rw [toInt_getSizeToAllocate_eq_needed hu] at hn
  rw [toInt_getSizeToAllocate_eq_needed hu, List.map_append, List.map_append,
    map_entryOf_splitParts hn (hi.rep.isSize hx)] at hwalk
  refine ⟨pre.map entryOf, entryOf x, post.map entryOf, ?_, (hi.rep.fits_iff hx hu).mpr hxfit, ?_,
    rfl, ?_, ?_⟩
  · rw [List.map_append, List.map_cons]
  · -- a block that fits is not in front of `x`, so it lies at `x` or above it
    intro e he hfe
    obtain ⟨z, hz, rfl⟩ := List.mem_map.mp he
    have hzfit := (hi.rep.fits_iff hz hu).mp hfe
    have hzpre : z ∉ pre := fun hmem => by
      rw [hpre z hmem] at hzfit
      exact Bool.false_ne_true hzfit
    obtain ⟨l, -, hrest⟩ := tiles_append.mp hi.rep.tiles
    have hlo := (hrest.bounds ((List.mem_append.mp hz).resolve_left hzpre)).1
    rw [← hrest.1] at hlo
    exact hlo
  · rw [List.append_assoc]
    exact hwalk
  · intro a ha
    rw [hsize] at ha
    exact hframe a (by change a < x.lo ∨ x.lo + (x.hi - x.lo) ≤ a at ha; omega)

theorem mymalloc_firstFit_small : ∃ s, (heapRun ⟨48, 16⟩).Reach s ∧ s.live 20 = some 5 ∧
    ∃ es m' r, Walks ⟨48, 16⟩ s.mem es ∧ Returns ⟨48, 16⟩ s.mem 5 m' r ∧
      ((∃ e ∈ es, Fits 5 e) → ∃ pre B post, es = pre ++ B :: post ∧ Fits 5 B ∧
        (∀ e ∈ es, Fits 5 e → B.addr ≤ e.addr) ∧ r = some (getPayload B.addr) ∧
        Walks ⟨48, 16⟩ m' (pre ++ granted (needed 5) B ++ post) ∧
        ∀ a, a < B.addr ∨ B.addr + B.size.toInt ≤ a → m' a = s.mem a) := by
  obtain ⟨s, hs, hl⟩ := exists_small_run
  exact ⟨s, hs, hl, mymalloc_firstFit hs (by decide)⟩

end IntroSystems.Malloc
