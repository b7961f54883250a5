import IntroSystems.Lists.Model
import IntroSystems.Lib.Transition

/-!
# A growable array is a sequence

* `Op`, `Op.run`: the functions of `list.c`, called on any number of lists, in any order.
* `Op.act`: what they are for.
* **`refines_sequences`**: they do that, as long as no list has more than `488281250` values.
-/

set_option autoImplicit false

namespace IntroSystems.Lists

/-- The last capacity that can be reached. -/
def CAPACITY : ℕ := 488281250

/-- A call. `i` and `j` are lists. -/
inductive Op (ι α : Type)
  | append (i : ι) (element : α)
  | appendArray (i : ι) (elements : List α) (n : ℤ)
  | insert (i : ι) (pos : ℤ) (element : α)
  | remove (i : ι) (pos : ℤ)
  | get (i : ι) (pos : ℤ)
  | index (i : ι) (element : α) (equal : α → α → Bool)
  | filter (f : α → Bool) (out : ι) (i : ι)
  | foldl (f : α → α → α → α) (out : α) (i : ι)

/-- What a call returns. -/
inductive Result (α : Type)
  | void
  | element (x : α)
  | position (i : ℤ)

variable {ι α : Type} [DecidableEq ι]

/-- One list changes. -/
def change {L : Type} (s : ι → L) (i : ι) (l : Option L) : Option ((ι → L) × Result α) :=
  l.map fun l => (Function.update s i l, .void)

/-- The function `f (out, in0, in1)` of `list_foldl` computes the new `*out`. -/
def Op.run (junk : ι → ℕ → α) (s : ι → ListStruct α) :
    Op ι α → Option ((ι → ListStruct α) × Result α)
  | append i element => change s i (list_append (junk i) element (s i))
  | appendArray i elements n => change s i (list_append_array (junk i) elements n (s i))
  | insert i pos element => change s i (list_insert (junk i) pos element (s i))
  | remove i pos => change s i (list_remove pos (s i))
  | get i pos => (list_get (s i) pos).map fun x => (s, .element x)
  | index i element equal =>
    (list_index (fun x e => some (equal x e)) element (s i)).map fun q => (s, .position q)
  | filter f out i => change s out (list_filter (fun x => some (f x)) (junk out) (s i) (s out))
  | foldl f out i => (list_foldl (fun in0 in1 out => some (f out in0 in1)) some (s i) out).map
      fun x => (s, .element x)

/-- The same on sequences. -/
def Op.act (s : ι → List α) : Op ι α → (ι → List α) × Option (Result α)
  | append i element => (Function.update s i (s i ++ [element]), some .void)
  | appendArray i elements n => (Function.update s i (s i ++ elements.take n.toNat), some .void)
  | insert i pos element => (Function.update s i ((s i).insertIdx pos.toNat element), some .void)
  | remove i pos => (Function.update s i ((s i).eraseIdx pos.toNat), some .void)
  | get i pos => (s, (s i)[pos.toNat]?.map .element)
  | index i element equal => (s, some (.position (firstIndex (equal · element) (s i))))
  | filter f out i => (Function.update s out (s out ++ (s i).filter f), some .void)
  | foldl f out i => (s, some (.element ((s i).foldl (fun out x => f out out x) out)))

/-- What the callers of `list.c` promise, and that no list gets too long. -/
def Op.Allowed (s : ι → List α) (op : Op ι α) : Prop :=
  (match op with
    | append .. | index .. | foldl .. => True
    | appendArray _ elements n => n ≤ elements.length
    | insert i pos _ => 0 ≤ pos ∧ pos ≤ (s i).length
    | remove i pos | get i pos => 0 ≤ pos ∧ pos < (s i).length
    | filter _ out i => out ≠ i) ∧
  ∀ i, ((op.act s).1 i).length ≤ CAPACITY

/-- The lists and the sequences that they are for. -/
def sys (junk : ι → ℕ → α) : Sys ((ι → ListStruct α) × (ι → List α)) (Op ι α) where
  init s := s = (fun i => list_create (junk i), fun _ => [])
  step s op s' := op.Allowed s.2 ∧ (∃ r, op.run junk s.1 = some (s'.1, r)) ∧ s'.2 = (op.act s.2).1

/-- **A list is the array of a sequence**, of a size that expansions reach. -/
structure Refines (l : ListStruct α) (xs : List α) : Prop where
  contains : Contains l xs
  grown : ∃ k : ℕ, l.size = INITIAL_SIZE * GROWTH_FACTOR ^ k

variable {l l' : ListStruct α} {xs ys : List α} {n : ℕ}

theorem refines_create (junk : ℕ → α) : Refines (list_create junk) [] :=
  ⟨contains_create junk, 0, rfl⟩

namespace Refines

theorem of_grown (h : Refines l xs) (hcontains : Contains l' ys) (hgrown : Grown l l') :
    Refines l' ys := by
  obtain ⟨k, hk⟩ := h.grown
  obtain ⟨k', hk'⟩ := hgrown
  exact ⟨hcontains, k + k', by rw [hk', hk, mul_assoc, pow_add]⟩

theorem size_eq (h : Refines l xs) : ∃ k ≤ 11, l.size = INITIAL_SIZE * GROWTH_FACTOR ^ k := by
  obtain ⟨k, hk⟩ := h.grown
  refine ⟨k, ?_, hk⟩
  by_contra hlt
  have hpow : GROWTH_FACTOR ^ 12 ≤ GROWTH_FACTOR ^ k := pow_le_pow_right₀ (by decide) (by omega)
  have hsize := h.contains.size_lt
  have hbig : (2 : ℤ) ^ 31 ≤ INITIAL_SIZE * GROWTH_FACTOR ^ 12 := by decide
  have hmul := mul_le_mul_of_nonneg_left hpow (show 0 ≤ INITIAL_SIZE by decide)
  omega

theorem size_mul (h : Refines l xs) : ∃ k : ℕ, l.size * GROWTH_FACTOR ^ k = CAPACITY := by
  obtain ⟨k, hk, hsize⟩ := h.size_eq
  refine ⟨11 - k, ?_⟩
  rw [hsize, mul_assoc, ← pow_add, Nat.add_sub_cancel' hk]
  rfl

theorem size_le (h : Refines l xs) : l.size ≤ CAPACITY := by
  obtain ⟨k, hk⟩ := h.size_mul
  have hpos : 0 ≤ l.size := Int.le_trans h.contains.len_le.1 h.contains.len_le.2
  calc l.size
      _ = l.size * 1 := (mul_one _).symm
      _ ≤ l.size * GROWTH_FACTOR ^ k :=
        mul_le_mul_of_nonneg_left (one_le_pow₀ (by decide)) hpos
      _ = CAPACITY := hk

theorem fits (h : Refines l xs) (hle : xs.length + n ≤ CAPACITY) : Fits l n := by
  obtain ⟨k, hk⟩ := h.size_mul
  refine ⟨k, ?_, ?_⟩
  · rw [hk, h.contains.len]
    omega
  · rw [hk]
    decide

theorem of_appended (h : Refines l xs) (happ : Appended l xs ys l') : Refines l' (xs ++ ys) :=
  h.of_grown happ.contains happ.grown

end Refines

/-! ### Each call -/

variable {s : ι → ListStruct α} {seq : ι → List α} {i : ι}

theorem change_spec (h : ∀ i, Refines (s i) (seq i)) {o : Option (ListStruct α)} (ho : o = some l')
    (hl : Refines l' ys) : ∃ (s' : ι → ListStruct α) (r : Result α),
      change s i o = some (s', r) ∧ some Result.void = some r ∧
        ∀ j, Refines (s' j) (Function.update seq i ys j) := by
  refine ⟨Function.update s i l', .void, by rw [change, ho, Option.map_some], rfl, fun j => ?_⟩
  by_cases hj : j = i
  · rw [hj, Function.update_self, Function.update_self]
    exact hl
  · rw [Function.update_of_ne hj, Function.update_of_ne hj]
    exact h j

theorem change_length {bound : ℕ} (h : ∀ j, (Function.update seq i ys j).length ≤ bound) :
    ys.length ≤ bound := by
  have hi := h i
  rwa [Function.update_self] at hi

/-- **Every call** does to the array what it does to the sequence. -/
theorem Op.run_spec (junk : ι → ℕ → α) (h : ∀ i, Refines (s i) (seq i)) {op : Op ι α}
    (hop : op.Allowed seq) : ∃ s' r, op.run junk s = some (s', r) ∧ (op.act seq).2 = some r ∧
      ∀ i, Refines (s' i) ((op.act seq).1 i) := by
  obtain ⟨hvalid, hlen⟩ := hop
  cases op with
  | append i element =>
    have hle := change_length hlen
    rw [List.length_append, List.length_singleton] at hle
    obtain ⟨l', hrun, hcontains, hgrown, -⟩ :=
      list_append_spec (junk i) (h i).contains ((h i).fits hle) element
    exact change_spec h hrun ((h i).of_grown hcontains hgrown)
  | appendArray i elements n =>
    have hle := change_length hlen
    rw [List.length_append] at hle
    obtain ⟨l', hrun, happ⟩ :=
      list_append_array_spec (junk i) (h i).contains hvalid ((h i).fits hle)
    exact change_spec h hrun ((h i).of_appended happ)
  | insert i pos element =>
    obtain ⟨hpos, hle⟩ := hvalid
    obtain ⟨pos, rfl⟩ := Int.eq_ofNat_of_zero_le hpos
    have hle' := change_length hlen
    rw [Int.toNat_natCast, List.length_insertIdx_of_le_length (by omega)] at hle'
    obtain ⟨l', hrun, hcontains, hgrown⟩ :=
      list_insert_spec (junk i) (h i).contains ((h i).fits hle') (Int.ofNat_le.mp hle) element
    exact change_spec h hrun ((h i).of_grown hcontains hgrown)
  | remove i pos =>
    obtain ⟨hpos, hlt⟩ := hvalid
    obtain ⟨pos, rfl⟩ := Int.eq_ofNat_of_zero_le hpos
    obtain ⟨l', hrun, hcontains, hsize⟩ :=
      list_remove_spec (h i).contains (Int.ofNat_lt.mp hlt)
    exact change_spec h hrun ((h i).of_grown hcontains (grown_of_size hsize))
  | get i pos =>
    obtain ⟨hpos, hlt⟩ := hvalid
    obtain ⟨pos, rfl⟩ := Int.eq_ofNat_of_zero_le hpos
    have hlt' : pos < (seq i).length := Int.ofNat_lt.mp hlt
    refine ⟨s, .element (seq i)[pos], ?_, ?_, h⟩
    · rw [run, (h i).contains.get hlt', Option.map_some]
    · rw [act, Int.toNat_natCast, List.getElem?_eq_getElem hlt', Option.map_some]
  | index i element equal =>
    refine ⟨s, _, ?_, rfl, h⟩
    rw [run, list_index_spec equal element (h i).contains, Option.map_some]
  | filter f out i =>
    have hle := change_length hlen
    rw [List.length_append] at hle
    obtain ⟨l', hrun, happ⟩ := list_filter_spec (junk out) (h out).contains (h i).contains
      (fun y _ => rfl) ((h out).fits hle)
    exact change_spec h hrun ((h out).of_appended happ)
  | foldl f out i =>
    obtain ⟨acc, hrun, hacc⟩ := list_foldl_spec (fun in0 in1 out => some (f out in0 in1)) some
      (fun acc ys => acc = ys.foldl (fun out x => f out out x) out) (h i).contains
      (m := out) (fun m ys y _ hm => ⟨m, _, rfl, rfl, by rw [List.foldl_append, ← hm]; rfl⟩) rfl
    exact ⟨s, _, by rw [run, hrun, Option.map_some], by rw [act, hacc], h⟩

/-! ### Every run -/

variable {p : (ι → ListStruct α) × (ι → List α)}

theorem refines_of_reach {junk : ι → ℕ → α} (hr : (sys junk).Reach p) (i : ι) :
    Refines (p.1 i) (p.2 i) := by
  refine Sys.Reach.invariant (I := fun p => ∀ i, Refines (p.1 i) (p.2 i)) ?_ ?_ hr i
  · rintro _ rfl i
    exact refines_create (junk i)
  · rintro p op p' - h ⟨hop, ⟨r, hrun⟩, hact⟩ i
    obtain ⟨s', r', hrun', -, href⟩ := op.run_spec junk h hop
    rw [hrun, Option.some.injEq, Prod.mk.injEq] at hrun'
    rw [hact, hrun'.1]
    exact href i

/-- **The lists act as the sequences do**: always `0 <= len <= size`, and every call stays inside of
the arrays and does what it is for. -/
structure ActsAs (junk : ι → ℕ → α) (p : (ι → ListStruct α) × (ι → List α)) : Prop where
  bounds : ∀ i, 0 ≤ (p.1 i).len ∧ (p.1 i).len ≤ (p.1 i).size ∧ (p.1 i).size ≤ CAPACITY
  contains : ∀ i, Contains (p.1 i) (p.2 i)
  call : ∀ op : Op ι α, op.Allowed p.2 → ∃ s' r, op.run junk p.1 = some (s', r) ∧
    (op.act p.2).2 = some r ∧ ∀ i, Contains (s' i) ((op.act p.2).1 i)

/-- **Growable arrays refine sequences.** -/
theorem refines_sequences {junk : ι → ℕ → α} (hr : (sys junk).Reach p) : ActsAs junk p := by
  have h := refines_of_reach hr
  refine ⟨fun i => ?_, fun i => (h i).contains, fun op hop => ?_⟩
  · exact ⟨(h i).contains.len_le.1, (h i).contains.len_le.2, (h i).size_le⟩
  · obtain ⟨s', r, hrun, hresult, href⟩ := op.run_spec junk h hop
    exact ⟨s', r, hrun, hresult, fun i => (href i).contains⟩

theorem reach_call {junk : ι → ℕ → α} (hr : (sys junk).Reach (s, seq)) (op : Op ι α)
    (hop : op.Allowed seq) : ∃ s', (sys junk).Reach (s', (op.act seq).1) := by
  obtain ⟨s', r, hrun, -⟩ := op.run_spec junk (refines_of_reach hr) hop
  exact ⟨s', hr.step ⟨hop, ⟨r, hrun⟩, rfl⟩⟩

/-- Two lists, one of which has outgrown its first array, and then loses a value and is filtered into
the other. -/
theorem refines_sequences_two : ∃ p : (Bool → ListStruct ℕ) × (Bool → List ℕ),
    (sys fun _ _ => 0).Reach p ∧ ActsAs (fun _ _ => 0) p ∧
      p.2 true = [12, 2, 3, 4, 5, 6, 7, 8, 9, 10, 11] ∧ p.2 false = [12, 2, 4, 6, 8, 10] ∧
      INITIAL_SIZE < (p.1 true).size ∧
      ∃ s', (Op.get true 10).run (fun _ _ => 0) p.1 = some (s', .element 11) := by
  have h0 : (sys fun (_ : Bool) _ => 0).Reach (_, _) := .init rfl
  obtain ⟨s₁, h1⟩ := reach_call h0 (.appendArray true [1, 2, 3, 4, 5, 6, 7, 8, 9, 10, 11] 11)
    ⟨by decide, by decide⟩
  obtain ⟨s₂, h2⟩ := reach_call h1 (.insert true 0 12) ⟨by decide, by decide⟩
  obtain ⟨s₃, h3⟩ := reach_call h2 (.remove true 1) ⟨by decide, by decide⟩
  obtain ⟨s₄, h4⟩ := reach_call h3 (.filter (fun x => x % 2 = 0) false true)
    ⟨by decide, by decide⟩
  have hacts := refines_sequences h4
  have hlen : (s₄ true).len = 11 := (hacts.contains true).len
  have hle : (s₄ true).len ≤ (s₄ true).size := (hacts.bounds true).2.1
  obtain ⟨s', r, hrun, hr, -⟩ := hacts.call (.get true 10)
    (by refine ⟨?_, ?_⟩ <;> dsimp only <;> decide)
  refine ⟨_, h4, hacts, rfl, rfl, ?_, s', ?_⟩
  · rw [hlen] at hle
    exact lt_of_lt_of_le (by decide) hle
  · rw [hrun, ← Option.some.inj hr]

end IntroSystems.Lists
