import IntroSystems.Lists.Mapping

/-!
# `list_map2`

* `Zips`: what `list_map2` promises.
* `list_map2_spec`: the promise is kept where the new blocks contain `NULL`.
* **`list_map2_iff`**: and only there.
-/

set_option autoImplicit false

namespace IntroSystems.Lists

/-- **A function of the documented kind**, which computes `g` of what it can see of its arguments. -/
def Computes2 (f : ℕ → Word → Word → Mem → Option Mem) (g : Value → Value → Word) : Prop :=
  ∀ m out x y v w, value m x = some v → value m y = some w → x ≠ .cell out → y ≠ .cell out →
    Documented (fun out => f out x y) (g v w) out m

/-- `in_list0` contains `ins0`, of which `vs0` can be seen, and so on. -/
structure Inputs2 (m : Mem) (in_list0 in_list1 out_list : ListStruct Word) (ins0 ins1 : List Word)
    (vs0 vs1 : List Value) (outs : List Word) : Prop where
  input0 : Contains in_list0 ins0
  input1 : Contains in_list1 ins1
  values0 : ins0.map (value m) = vs0.map some
  values1 : ins1.map (value m) = vs1.map some
  output : Contains out_list outs

/-- **What `list_map2` promises.** There is a call for each pair of elements, with `NULL` in `*out`;
the results have been appended, each in a new object; and nothing else has changed. -/
structure Zips (g : Value → Value → Word) (m : Mem) (ins0 ins1 : List Word) (vs0 vs1 : List Value)
    (outs : List Word) (s : Map2) : Prop where
  calls : s.calls = (ins0.zip ins1).map fun x => (.null, x.1, x.2)
  results : ∃ rs : List ℕ, Contains s.out_list (outs ++ rs.map .cell) ∧ rs.Nodup ∧
    (∀ r ∈ rs, m.cells.size ≤ r) ∧ rs.map s.mem.cells.get = (List.zipWith g vs0 vs1).map some
  objects : ∀ p < m.cells.size, s.mem.cells.get p = m.cells.get p
  strings : s.mem.strings = m.strings

variable {m : Mem} {in_list0 in_list1 out_list : ListStruct Word} {ins0 ins1 outs : List Word}
  {vs0 vs1 : List Value} {f : ℕ → Word → Word → Mem → Option Mem} {g : Value → Value → Word}
  {junk cell : ℕ → Word} {n : ℕ} {s s' : Map2}

/-! ### Where the promise is kept -/

theorem length_results (h : Inputs2 m in_list0 in_list1 out_list ins0 ins1 vs0 vs1 outs) :
    (List.zipWith g vs0 vs1).length = min ins0.length ins1.length := by
  rw [List.length_zipWith, length_of_values h.values0, length_of_values h.values1]

/-- What the iterations keep. -/
structure Done2 (g : Value → Value → Word) (m : Mem) (out_list : ListStruct Word)
    (ins0 ins1 : List Word) (vs0 vs1 : List Value) (outs : List Word) (j : ℕ) (s : Map2) :
    Prop where
  mapped : Mapped m out_list outs ((List.zipWith g vs0 vs1).take j) s.mem s.out_list
  calls : s.calls = ((ins0.zip ins1).take j).map fun x => (.null, x.1, x.2)

theorem list_map2_step_spec (h : Inputs2 m in_list0 in_list1 out_list ins0 ins1 vs0 vs1 outs)
    (hf : Computes2 f g) (hfits : Fits out_list n) {i : ℕ} (hi : i < min ins0.length ins1.length)
    (hn : i < n) (hnull : cell i = .null) (hs : Done2 g m out_list ins0 ins1 vs0 vs1 outs i s) :
    ∃ s', list_map2_step f junk cell in_list0 in_list1 i s = some s' ∧
      Done2 g m out_list ins0 ins1 vs0 vs1 outs (i + 1) s' := by
  have hi₀ : i < ins0.length := Nat.lt_of_lt_of_le hi (Nat.min_le_left _ _)
  have hi₁ : i < ins1.length := Nat.lt_of_lt_of_le hi (Nat.min_le_right _ _)
  have hv₀ : i < vs0.length := length_of_values h.values0 ▸ hi₀
  have hv₁ : i < vs1.length := length_of_values h.values1 ▸ hi₁
  have hresult : i < (List.zipWith g vs0 vs1).length := length_results h ▸ hi
  have hzip : i < (ins0.zip ins1).length := by rwa [List.length_zip]
  obtain ⟨hx, hxne⟩ := hs.mapped.seen (getElem_of_values h.values0 hi₀ hv₀)
  obtain ⟨hy, hyne⟩ := hs.mapped.seen (getElem_of_values h.values1 hi₁ hv₁)
  have hcall := (hf _ _ _ _ _ _ hx hy hxne hyne).assigns Heap.get_alloc_self
  have hlen : ((List.zipWith g vs0 vs1).take i).length < n := by
    rwa [List.length_take_of_le (Nat.le_of_lt hresult)]
  obtain ⟨m₁, m', l', hrun, happ, hmapped⟩ := hs.mapped.next junk hfits hlen hcall
  refine ⟨⟨m', l', s.calls ++ [(.null, ins0[i], ins1[i])]⟩, ?_, ?_, ?_⟩
  · rw [mallocElement] at hrun
    simp only [list_map2_step, mallocElement, Int.toNat_natCast, hnull, h.input0.get hi₀,
      h.input1.get hi₁, Heap.get_alloc_self, hrun, happ, Option.bind_eq_bind, Option.bind_some]
  · rwa [← List.take_append_getElem hresult, List.getElem_zipWith]
  · rw [hs.calls, ← List.take_append_getElem hzip, List.map_append, List.getElem_zip,
      List.map_singleton]

/-- **`list_map2` keeps its promise.** -/
theorem list_map2_spec (h : Inputs2 m in_list0 in_list1 out_list ins0 ins1 vs0 vs1 outs)
    (hf : Computes2 f g) (hfits : Fits out_list (min ins0.length ins1.length))
    (hnull : ∀ i < min ins0.length ins1.length, cell i = .null) :
    ∃ s, list_map2 f junk cell in_list0 in_list1 ⟨m, out_list, []⟩ = some s ∧
      Zips g m ins0 ins1 vs0 vs1 outs s := by
  have hloop := Loop.up_spec (list_map2_step f junk cell in_list0 in_list1)
    (Done2 g m out_list ins0 ins1 vs0 vs1 outs) (a := 0) (k := min ins0.length ins1.length)
    (s := ⟨m, out_list, []⟩)
  obtain ⟨s, hrun, hs⟩ := hloop (fun i hi s hs => by
    rw [Int.zero_add]
    exact list_map2_step_spec h hf hfits hi hi (hnull i hi) hs) ⟨mapped_nil h.output, rfl⟩
  refine ⟨s, by simp only [list_map2, outlen_eq h.input0 h.input1, hrun], ?_, ?_, hs.mapped.old,
    hs.mapped.strings⟩
  · rw [hs.calls, List.take_of_length_le (Nat.le_of_eq List.length_zip)]
  · obtain ⟨rs, happ, hnodup, hnew, hall⟩ := hs.mapped.results
    rw [List.take_of_length_le (Nat.le_of_eq (length_results h))] at hall
    exact ⟨rs, happ.contains, hnodup, hnew, hall⟩

/-! ### Where it is broken -/

/-- A function as in `test.c`, which computes `g`. -/
def compute2 (g : Value → Value → Word) (out : ℕ) (x y : Word) (m : Mem) : Option Mem := do
  let v ← value m x
  let w ← value m y
  assign (g v w) out m

theorem computes2_compute2 (g : Value → Value → Word) : Computes2 (compute2 g) g := by
  intro m out x y v w hx hy _ _
  refine (assign_documented (g v w) out m).congr ?_
  rw [compute2, hx, hy, Option.bind_eq_bind, Option.bind_some, Option.bind_some]

theorem list_map2_step_cases {i : ℤ}
    (h : list_map2_step f junk cell in_list0 in_list1 i s = some s') :
    ∃ e x y, list_append junk e s.out_list = some s'.out_list ∧
      s'.calls = s.calls ++ [(cell i.toNat, x, y)] := by
  simp only [list_map2_step, mallocElement, appendOut, Heap.get_alloc_self, Option.bind_eq_bind,
    Option.bind_some, Option.bind_eq_some_iff] at h
  obtain ⟨x, -, y, -, m₂, -, ⟨m₃, l'⟩, ⟨e, -, l₁, happ, cells, -, hm₃⟩, hs⟩ := h
  cases hm₃
  cases hs
  exact ⟨e, x, y, happ, rfl⟩

/-- What the iterations have done, for any `f`. -/
structure Called (cell : ℕ → Word) (out_list : ListStruct Word) (outs : List Word) (j : ℕ)
    (s : Map2) : Prop where
  calls : s.calls.map Prod.fst = (List.range j).map cell
  appended : ∃ ys : List Word, ys.length = j ∧ Appended out_list outs ys s.out_list
  fits : Fits out_list j

theorem Called.next {j : ℕ} (hs : Called cell out_list outs j s)
    (h : list_map2_step f junk cell in_list0 in_list1 j s = some s') :
    Called cell out_list outs (j + 1) s' := by
  obtain ⟨e, x, y, happ, hcalls⟩ := list_map2_step_cases h
  obtain ⟨ys, rfl, hys⟩ := hs.appended
  obtain ⟨hfits, hys'⟩ := hys.of_append happ
  refine ⟨?_, ⟨ys ++ [e], by rw [List.length_append, List.length_singleton], hys'⟩, hfits⟩
  rw [hcalls, List.map_append, hs.calls, List.range_succ, List.map_append, Int.toNat_natCast,
    List.map_singleton, List.map_singleton]

theorem null_of_zips (h : Inputs2 m in_list0 in_list1 out_list ins0 ins1 vs0 vs1 outs)
    (hrun : list_map2 f junk cell in_list0 in_list1 ⟨m, out_list, []⟩ = some s)
    (hzips : Zips g m ins0 ins1 vs0 vs1 outs s) :
    Fits out_list (min ins0.length ins1.length) ∧
      ∀ i < min ins0.length ins1.length, cell i = .null := by
  rw [list_map2, outlen_eq h.input0 h.input1] at hrun
  have hs : Called cell out_list outs (min ins0.length ins1.length) s :=
    Loop.up_invariant _ (Called cell out_list outs)
      (fun j _ t t' ht hstep => ht.next (f := f) (by rwa [Int.zero_add] at hstep))
      ⟨rfl, ⟨[], rfl, appended_nil h.output⟩, h.output.fits_zero⟩ hrun
  refine ⟨hs.fits, fun i hi => ?_⟩
  have hcalls := congrArg (·[i]?) hs.calls
  have hzip : i < (ins0.zip ins1).length := by rwa [List.length_zip]
  simpa only [hzips.calls, List.map_map, List.getElem?_map, List.getElem?_eq_getElem hzip,
    List.getElem?_range hi, Option.map_some, Function.comp_apply, Option.some.injEq, eq_comm]
    using hcalls

/-- **When `list_map2` keeps its promise** to all functions of the documented kind. -/
theorem list_map2_iff (h : Inputs2 m in_list0 in_list1 out_list ins0 ins1 vs0 vs1 outs)
    (junk cell : ℕ → Word) :
    (∀ f g, Computes2 f g → ∃ s,
      list_map2 f junk cell in_list0 in_list1 ⟨m, out_list, []⟩ = some s ∧
        Zips g m ins0 ins1 vs0 vs1 outs s) ↔
      Fits out_list (min ins0.length ins1.length) ∧
        ∀ i < min ins0.length ins1.length, cell i = .null := by
  constructor
  · intro hall
    obtain ⟨s, hrun, hzips⟩ := hall (compute2 fun _ _ => .int 0) _ (computes2_compute2 _)
    exact null_of_zips h hrun hzips
  · rintro ⟨hfits, hnull⟩ f g hf
    exact list_map2_spec h hf hfits hnull

theorem inputs2_twoInts : Inputs2 twoInts (listOf (.cell 0)) (listOf (.cell 1))
    (list_create fun _ => .null) [.cell 0] [.cell 1] [.object (.int 1)] [.object (.int 2)] [] where
  input0 := contains_listOf _
  input1 := contains_listOf _
  values0 := rfl
  values1 := rfl
  output := contains_create _

/-- Three elements and two, with blocks that contain `NULL`, for an `out_list` that has to grow. -/
theorem list_map2_iff_null : Fits (arrayOf (List.replicate 9 (.cell 0))) 2 ∧
    ∀ f g, Computes2 f g → ∃ s,
      list_map2 f (fun _ => .null) (fun _ => .null) (arrayOf [.cell 0, .cell 1, .cell 0])
        (arrayOf [.cell 1, .cell 1]) ⟨twoInts, arrayOf (List.replicate 9 (.cell 0)), []⟩ = some s ∧
        Zips g twoInts [.cell 0, .cell 1, .cell 0] [.cell 1, .cell 1]
          [.object (.int 1), .object (.int 2), .object (.int 1)] [.object (.int 2), .object (.int 2)]
          (List.replicate 9 (.cell 0)) s := by
  have hinputs : Inputs2 twoInts (arrayOf [.cell 0, .cell 1, .cell 0]) (arrayOf [.cell 1, .cell 1])
      (arrayOf (List.replicate 9 (.cell 0))) [.cell 0, .cell 1, .cell 0] [.cell 1, .cell 1]
      [.object (.int 1), .object (.int 2), .object (.int 1)] [.object (.int 2), .object (.int 2)]
      (List.replicate 9 (.cell 0)) :=
    ⟨contains_arrayOf (by decide), contains_arrayOf (by decide), rfl, rfl,
      contains_arrayOf (by decide)⟩
  have hfits : Fits (arrayOf (List.replicate 9 (.cell 0))) 2 := ⟨1, by decide, by decide⟩
  exact ⟨hfits, (list_map2_iff hinputs _ _).mpr ⟨hfits, fun _ _ => rfl⟩⟩

/-- **A block that does not contain `NULL`**: it is the one of an `int` that has been freed. -/
theorem list_map2_breaks : ¬∀ f g, Computes2 f g → ∃ s,
    list_map2 f (fun _ => .null) (fun _ => .int 7) (listOf (.cell 0)) (listOf (.cell 1))
      ⟨twoInts, list_create fun _ => .null, []⟩ = some s ∧
        Zips g twoInts [.cell 0] [.cell 1] [.object (.int 1)] [.object (.int 2)] [] s := by
  intro hall
  obtain ⟨s, hrun, hzips⟩ := hall (compute2 fun _ _ => .int 0) _ (computes2_compute2 _)
  exact absurd ((null_of_zips inputs2_twoInts hrun hzips).2 0 Nat.one_pos) nofun

end IntroSystems.Lists
