import IntroSystems.Lists.Mapping

/-!
# `list_map1`

* `Maps`: what `list_map1` promises.
* `Ready`: every place of `out_list` that is read, and every new block, contains `NULL`.
* `list_map1_spec`: then the promise is kept. `ready_of_maps`: otherwise it is broken.
* **`list_map1_iff`**.
* `list_map1_create`: a new list is read outside of its array in the eleventh iteration.
-/

set_option autoImplicit false

namespace IntroSystems.Lists

/-- **A function of the documented kind**, which computes `g` of what it can see of `in`. -/
def Computes1 (f : ℕ → Word → Mem → Option Mem) (g : Value → Word) : Prop :=
  ∀ m out x v, value m x = some v → x ≠ .cell out → Documented (fun out => f out x) (g v) out m

/-- `in_list` contains `ins`, of which `vs` can be seen, and `out_list` contains `outs`. -/
structure Inputs1 (m : Mem) (in_list out_list : ListStruct Word) (ins : List Word) (vs : List Value)
    (outs : List Word) : Prop where
  input : Contains in_list ins
  values : ins.map (value m) = vs.map some
  output : Contains out_list outs
  known : ∀ p, .cell p ∈ outs → p < m.cells.size

/-- **What `list_map1` promises.** The results have been appended, each in a new object; the objects
of both lists are as before; and every position was below the length of its list. -/
structure Maps (g : Value → Word) (m : Mem) (ins : List Word) (vs : List Value)
    (outs : List Word) (s : Map1) : Prop where
  results : ∃ rs : List ℕ, Contains s.out_list (outs ++ rs.map .cell) ∧ rs.Nodup ∧
    (∀ r ∈ rs, m.cells.size ≤ r) ∧ rs.map s.mem.cells.get = (vs.map g).map some
  objects : ∀ p, .cell p ∈ ins ++ outs → s.mem.cells.get p = m.cells.get p
  strings : s.mem.strings = m.strings
  reads : ∀ read ∈ s.reads, 0 ≤ read.1 ∧ read.1 < read.2

/-- The first `n` places of `out_list` and the first `n` new blocks contain `NULL`, and `out_list`
can grow by `n`. -/
structure Ready (cell : ℕ → Word) (out_list : ListStruct Word) (outs : List Word) (n : ℕ) :
    Prop where
  fits : Fits out_list n
  null : ∀ i < n, outs[i]? = some .null ∧ cell i = .null

variable {m : Mem} {in_list out_list : ListStruct Word} {ins outs : List Word} {vs : List Value}
  {f : ℕ → Word → Mem → Option Mem} {g : Value → Word} {junk cell : ℕ → Word} {n : ℕ} {s s' : Map1}

/-! ### When the promise is kept -/

theorem get_out {l : ListStruct Word} {ys : List Word} {w : Word} (h : Contains l (outs ++ ys))
    {i : ℕ} (hi : outs[i]? = some w) : list_get l i = some w := by
  obtain ⟨hlt, hw⟩ := List.getElem?_eq_some_iff.mp hi
  rw [h.get (by rw [List.length_append]; omega), List.getElem_append_left hlt, hw]

/-- What the iterations keep. -/
structure Done1 (g : Value → Word) (m : Mem) (out_list : ListStruct Word) (vs : List Value)
    (outs : List Word) (j : ℕ) (s : Map1) : Prop where
  mapped : Mapped m out_list outs ((vs.take j).map g) s.mem s.out_list
  reads : ∀ read ∈ s.reads, 0 ≤ read.1 ∧ read.1 < read.2

theorem list_map1_step_spec (h : Inputs1 m in_list out_list ins vs outs) (hf : Computes1 f g)
    (hfits : Fits out_list n) {i : ℕ} (hi : i < ins.length) (hn : i < n)
    (hnull : outs[i]? = some .null ∧ cell i = .null) (hs : Done1 g m out_list vs outs i s) :
    ∃ s', list_map1_step f junk cell in_list i s = some s' ∧
      Done1 g m out_list vs outs (i + 1) s' := by
  have hi' : i < vs.length := (length_of_values h.values) ▸ hi
  obtain ⟨hvalue, hne⟩ := hs.mapped.seen (getElem_of_values h.values hi hi')
  have hcall := (hf _ _ _ _ hvalue hne).assigns Heap.get_alloc_self
  have hlen : ((vs.take i).map g).length < n := by
    rw [List.length_map, List.length_take_of_le (Nat.le_of_lt hi')]
    exact hn
  obtain ⟨m₁, m', l', hrun, happ, hmapped⟩ := hs.mapped.next junk hfits hlen hcall
  have hin : list_get in_list i = some ins[i] := h.input.get hi
  refine ⟨⟨m', l', s.reads ++ [((i : ℤ), s.out_list.len), ((i : ℤ), in_list.len)]⟩, ?_, ?_, ?_⟩
  · obtain ⟨rs, happ', -⟩ := hs.mapped.results
    have hout := get_out happ'.contains hnull.1
    rw [mallocElement] at hrun
    simp only [list_map1_step, hout, outElement, hnull.2, Int.toNat_natCast, mallocElement, hin,
      hrun, happ, Option.bind_eq_bind, Option.bind_some]
  · rwa [← List.take_append_getElem hi', List.map_append]
  · have houts : i < outs.length := (List.getElem?_eq_some_iff.mp hnull.1).1
    obtain ⟨rs, happ', -⟩ := hs.mapped.results
    have hlen₁ := happ'.contains.len
    have hlen₂ := h.input.len
    rw [List.length_append] at hlen₁
    intro read hread
    rcases List.mem_append.mp hread with hread | hread
    · exact hs.reads read hread
    · rcases List.mem_cons.mp hread with rfl | hread
      · exact ⟨Int.natCast_nonneg i, by rw [hlen₁]; exact Int.ofNat_lt.mpr (by omega)⟩
      · rw [List.mem_singleton.mp hread]
        exact ⟨Int.natCast_nonneg i, by rw [hlen₂]; exact Int.ofNat_lt.mpr hi⟩

theorem list_map1_up (junk : ℕ → Word) (h : Inputs1 m in_list out_list ins vs outs)
    (hf : Computes1 f g) (hready : Ready cell out_list outs n) (hn : n ≤ ins.length) :
    ∃ s, Loop.up (list_map1_step f junk cell in_list) 0 n ⟨m, out_list, []⟩ = some s ∧
      Done1 g m out_list vs outs n s := by
  refine Loop.up_spec _ (Done1 g m out_list vs outs) (fun i hi s hs => ?_)
    ⟨mapped_nil h.output, nofun⟩
  rw [Int.zero_add]
  exact list_map1_step_spec h hf hready.fits (by omega) hi (hready.null i hi) hs

theorem Done1.maps (h : Inputs1 m in_list out_list ins vs outs)
    (hs : Done1 g m out_list vs outs ins.length s) : Maps g m ins vs outs s := by
  obtain ⟨rs, happ, hnodup, hnew, hall⟩ := hs.mapped.results
  rw [← (length_of_values h.values), List.take_length] at hall
  refine ⟨⟨rs, happ.contains, hnodup, hnew, hall⟩, fun p hp => hs.mapped.old p ?_,
    hs.mapped.strings, hs.reads⟩
  rcases List.mem_append.mp hp with hp | hp
  · have hmem : value m (.cell p) ∈ vs.map some := h.values ▸ List.mem_map_of_mem hp
    obtain ⟨v, -, hv⟩ := List.mem_map.mp hmem
    exact lt_size_of_value hv.symm
  · exact h.known p hp

/-- **`list_map1` keeps its promise.** -/
theorem list_map1_spec (h : Inputs1 m in_list out_list ins vs outs) (hf : Computes1 f g)
    (hready : Ready cell out_list outs ins.length) :
    ∃ s, list_map1 f junk cell in_list ⟨m, out_list, []⟩ = some s ∧ Maps g m ins vs outs s := by
  obtain ⟨s, hrun, hs⟩ := list_map1_up junk h hf hready (Nat.le_refl _)
  have hk : (list_len in_list).toNat = ins.length := by
    rw [list_len, h.input.len, Int.toNat_natCast]
  exact ⟨s, by rw [list_map1, hk, hrun], hs.maps h⟩

/-! ### When it is broken -/

/-- A function as in `test.c`, which computes `g`. -/
def compute1 (g : Value → Word) (out : ℕ) (x : Word) (m : Mem) : Option Mem := do
  let v ← value m x
  assign (g v) out m

theorem computes1_compute1 (g : Value → Word) : Computes1 (compute1 g) g := by
  intro m out x v hx _
  refine (assign_documented (g v) out m).congr ?_
  rw [compute1, hx, Option.bind_eq_bind, Option.bind_some]

variable {i : ℤ}

theorem list_map1_step_cases (h : list_map1_step f junk cell in_list i s = some s') :
    ∃ w m₁ out x m₂ e l' cells, list_get s.out_list i = some w ∧
      outElement (cell i.toNat) s.mem w = some (m₁, out) ∧ list_get in_list i = some x ∧
      f out x m₁ = some m₂ ∧ m₂.cells.get out = some e ∧ list_append junk e s.out_list = some l' ∧
      m₂.cells.free out = some cells ∧
      s' = ⟨{ m₂ with cells }, l', s.reads ++ [(i, s.out_list.len), (i, in_list.len)]⟩ := by
  simp only [list_map1_step, appendOut, Option.bind_eq_bind, Option.bind_eq_some_iff] at h
  obtain ⟨w, hw, ⟨m₁, out⟩, hout, x, hx, m₂, hf, ⟨m₃, l'⟩, ⟨e, he, l₁, happ, cells, hfree, hm₃⟩,
    hs⟩ := h
  cases hm₃
  exact ⟨w, m₁, out, x, m₂, e, _, cells, hw, hout, hx, hf, he, happ, hfree,
    (Option.some.inj hs).symm⟩

theorem list_map1_extends {k : ℕ} {xs : List Word} (hxs : Contains s.out_list xs)
    (h : Loop.up (list_map1_step f junk cell in_list) i k s = some s') :
    (∃ ys, Contains s'.out_list (xs ++ ys)) ∧ s.reads ⊆ s'.reads := by
  refine Loop.up_invariant _ (fun _ t => (∃ ys, Contains t.out_list (xs ++ ys)) ∧ s.reads ⊆ t.reads)
    (fun j _ t t' ⟨⟨ys, hys⟩, hreads⟩ hstep => ?_)
    ⟨⟨[], by rwa [List.append_nil]⟩, List.Subset.refl _⟩ h
  obtain ⟨w, m₁, out, x, m₂, e, l', cells, -, -, -, -, -, happ, -, rfl⟩ :=
    list_map1_step_cases hstep
  have hcontains := contains_of_append hys happ
  rw [List.append_assoc] at hcontains
  exact ⟨⟨_, hcontains⟩, fun read hread => List.mem_append_left _ (hreads hread)⟩

/-- A new list that `j` elements have been appended to, without an expansion. -/
structure Unexpanded (j : ℕ) (l : ListStruct Word) : Prop where
  contains : ∃ es : List Word, es.length = j ∧ Contains l es
  size : l.data.length = 10

theorem Unexpanded.append {j : ℕ} {l l' : ListStruct Word} {e : Word} (h : Unexpanded j l)
    (hj : j < 10) (happ : list_append junk e l = some l') : Unexpanded (j + 1) l' := by
  obtain ⟨es, rfl, hes⟩ := h.contains
  refine ⟨⟨es ++ [e], by rw [List.length_append, List.length_singleton],
    contains_of_append hes happ⟩, ?_⟩
  rw [list_append_eq junk hes (h.size ▸ hj), Option.some.injEq] at happ
  rw [← happ, List.length_set, h.size]

/-- **A new list is read outside of its array** in the eleventh iteration. -/
theorem list_map1_create (h : Contains in_list ins) (hlt : 10 < ins.length) :
    list_map1 f junk cell in_list ⟨m, list_create junk, []⟩ = none := by
  rw [Option.eq_none_iff_forall_ne_some]
  intro s' hrun
  have hk : (list_len in_list).toNat = 10 + (ins.length - 11 + 1) := by
    rw [list_len, h.len, Int.toNat_natCast]
    omega
  rw [list_map1, hk, Loop.up_add] at hrun
  obtain ⟨s, hfirst, hrest⟩ := Option.bind_eq_some_iff.mp hrun
  have hs : Unexpanded 10 s.out_list :=
    Loop.up_invariant _ (fun j t => Unexpanded j t.out_list) (fun j hj t t' ht hstep => by
      obtain ⟨w, m₁, out, x, m₂, e, l', cells, -, -, -, -, -, happ, -, rfl⟩ :=
        list_map1_step_cases hstep
      exact ht.append hj happ)
      ⟨⟨[], rfl, contains_create junk⟩, by rw [list_create, List.length_map, List.length_range]; rfl⟩
      hfirst
  obtain ⟨s₁, hstep, -⟩ := Option.bind_eq_some_iff.mp hrest
  obtain ⟨w, m₁, out, x, m₂, e, l', cells, hw, -⟩ := list_map1_step_cases hstep
  rw [Int.zero_add, list_get, read_eq, List.getElem?_eq_none (Nat.le_of_eq hs.size)] at hw
  cases hw

/-- The block at `p` has been freed. -/
def Freed (p : ℕ) (h : Heap Word) : Prop := p < h.size ∧ h.get p = none

theorem Freed.alloc {p : ℕ} {h : Heap Word} {w : Word} (hp : Freed p h) : Freed p (h.alloc w) := by
  refine ⟨by rw [Heap.size_alloc]; exact Nat.lt_succ_of_lt hp.1, ?_⟩
  rw [Heap.get_alloc_of_ne (Nat.ne_of_lt hp.1), hp.2]

theorem Freed.put {p q : ℕ} {h : Heap Word} {w : Word} {c : Option Word} (hp : Freed p h)
    (hq : h.get q = some w) : Freed p (h.put q c) := by
  have hne : p ≠ q := by
    rintro rfl
    rw [hp.2] at hq
    cases hq
  exact ⟨by rw [Heap.size_put]; exact hp.1, by rw [Heap.get_put_of_ne hne, hp.2]⟩

theorem Freed.assign {p out : ℕ} {m m' : Mem} {x : Word} (hp : Freed p m.cells)
    (h : assign x out m = some m') : Freed p m'.cells := by
  obtain ⟨w, hw, h⟩ := Option.bind_eq_some_iff.mp h
  cases w with
  | null =>
    have hw' : (m.cells.alloc x).get out = some .null := Heap.get_alloc_of_get hw
    rw [Heap.set_eq hw', Option.bind_eq_bind, Option.bind_some, Option.some.injEq] at h
    subst h
    exact hp.alloc.put hw'
  | cell r =>
    obtain ⟨cells, hcells, h⟩ := Option.bind_eq_some_iff.mp h
    obtain ⟨w', hr, rfl⟩ := Option.map_eq_some_iff.mp hcells
    cases h
    exact hp.put hr
  | string r => cases h
  | int v => cases h

theorem compute1_assigns {out : ℕ} {x : Word} {m' : Mem} (h : compute1 g out x m = some m') :
    ∃ v, assign (g v) out m = some m' := by
  obtain ⟨v, -, hassign⟩ := Option.bind_eq_some_iff.mp h
  exact ⟨v, hassign⟩

/-- **What has been freed stays freed.** -/
theorem list_map1_freed {p k : ℕ} (hp : Freed p s.mem.cells)
    (h : Loop.up (list_map1_step (compute1 g) junk cell in_list) i k s = some s') :
    Freed p s'.mem.cells := by
  refine Loop.up_invariant _ (fun _ t => Freed p t.mem.cells) (fun j _ t t' ht hstep => ?_) hp h
  obtain ⟨w, m₁, out, x, m₂, e, l', cells, -, hout, -, hf, he, -, hfree, rfl⟩ :=
    list_map1_step_cases hstep
  obtain ⟨v, hassign⟩ := compute1_assigns hf
  rw [Heap.free_eq he] at hfree
  cases hfree
  have hm₁ : Freed p m₁.cells := by
    cases w with
    | null =>
      cases hout
      exact ht.alloc
    | cell q =>
      cases hout
      exact ht
    | string q | int v => exact absurd hout nofun
  exact (hm₁.assign hassign).put he

/-- The new objects are the results. -/
def OnlyResults (m : Mem) (outs : List Word) (s : Map1) : Prop :=
  ∃ rs : List ℕ, Contains s.out_list (outs ++ rs.map .cell) ∧
    ∀ p w, m.cells.size ≤ p → s.mem.cells.get p = some w → p ∈ rs

theorem OnlyResults.next {i : ℕ} (hs : OnlyResults m outs s)
    (hnull : outs[i]? = some .null ∧ cell i = .null)
    (h : list_map1_step (compute1 g) junk cell in_list i s = some s') : OnlyResults m outs s' := by
  obtain ⟨rs, hcontains, honly⟩ := hs
  obtain ⟨w, m₁, out, x, m₂, e, l', cells, hw, hout, -, hf, he, happ, hfree, rfl⟩ :=
    list_map1_step_cases h
  obtain rfl := Option.some.inj (hw.symm.trans (get_out hcontains hnull.1))
  rw [Int.toNat_natCast, hnull.2] at hout
  cases hout
  obtain ⟨v, hassign⟩ := compute1_assigns hf
  have hget : (s.mem.cells.alloc .null).get s.mem.cells.size = some .null := Heap.get_alloc_self
  have hget' : ((s.mem.cells.alloc .null).alloc (g v)).get s.mem.cells.size = some .null :=
    Heap.get_alloc_of_get hget
  simp only [assign, hget, Heap.set_eq hget', Option.bind_eq_bind, Option.bind_some,
    Option.some.injEq] at hassign
  subst hassign
  rw [Heap.get_put_self hget', Option.some.injEq] at he
  subst he
  rw [Heap.free_eq (Heap.get_put_self hget'), Heap.put_put, Option.some.injEq] at hfree
  subst hfree
  refine ⟨rs ++ [(s.mem.cells.alloc .null).size], ?_, fun p w hp hpw => ?_⟩
  · rw [List.map_append, ← List.append_assoc]
    exact contains_of_append hcontains happ
  · by_cases hpout : p = s.mem.cells.size
    · rw [hpout, Heap.get_put_self hget'] at hpw
      cases hpw
    · rw [Heap.get_put_of_ne hpout] at hpw
      by_cases hnew : p = (s.mem.cells.alloc .null).size
      · exact List.mem_append_right _ (List.mem_singleton.mpr hnew)
      · rw [Heap.get_alloc_of_ne hnew, Heap.get_alloc_of_ne hpout] at hpw
        exact List.mem_append_left _ (honly p w hp hpw)

/-- A function whose results are `int` objects, which cannot be taken for an element. -/
def zero (_ : Value) : Word := .int 0

theorem live_of_assign {out : ℕ} {y : Word} {m' : Mem} (h : assign y out m = some m') :
    ∃ w, m.cells.get out = some w ∧ (w = .null ∨ ∃ r, w = .cell r) := by
  obtain ⟨w, hw, h⟩ := Option.bind_eq_some_iff.mp h
  cases w with
  | null => exact ⟨_, hw, .inl rfl⟩
  | cell r => exact ⟨_, hw, .inr ⟨r, rfl⟩⟩
  | string r | int v => exact absurd h nofun

/-- What an iteration has done with `assign`, and what the others will do. -/
structure Iteration (m : Mem) (outs : List Word) (cell : ℕ → Word) (j : ℕ) (rs₀ rs : List ℕ)
    (s s' : Map1) : Prop where
  contains : Contains s.out_list (outs ++ rs₀.map .cell)
  length : rs₀.length = j
  int : ∀ r ∈ rs₀, s.mem.cells.get r = some (.int 0)
  old : ∀ p < m.cells.size, s.mem.cells.get p = m.cells.get p
  only : ∀ p w, m.cells.size ≤ p → s.mem.cells.get p = some w → p ∈ rs₀
  new : ∀ r ∈ rs, m.cells.size ≤ r
  nodup : rs.Nodup
  step : ∃ w m₁ out m₂ e, list_get s.out_list j = some w ∧
    outElement (cell j) s.mem w = some (m₁, out) ∧ assign (.int 0) out m₁ = some m₂ ∧
    m₂.cells.get out = some e ∧ (∃ ys, rs.map .cell = rs₀.map .cell ++ e :: ys) ∧
    s'.mem.cells.get out = none
  objects : ∀ p, .cell p ∈ outs → s'.mem.cells.get p = m.cells.get p

theorem Iteration.out_null {j : ℕ} {rs₀ rs : List ℕ} (h : Iteration m outs cell j rs₀ rs s s')
    (hpos : 0 < outs.length) (hknown : ∀ p, .cell p ∈ outs → p < m.cells.size) :
    outs[j]? = some .null := by
  obtain ⟨w, m₁, out, m₂, e, hw, hout, hassign, he, -, hgone⟩ := h.step
  obtain ⟨v, hv, hkind⟩ := live_of_assign hassign
  by_cases hj : j < outs.length
  · rw [List.getElem?_eq_getElem hj]
    obtain rfl := Option.some.inj
      (hw.symm.trans (get_out h.contains (List.getElem?_eq_getElem hj)))
    have hmem : outs[j] ∈ outs := List.getElem_mem hj
    cases hwj : outs[j] with
    | null => rfl
    | string p | int v =>
      rw [hwj] at hout
      exact absurd hout nofun
    | cell p =>
      -- the object of `out_list` would be gone
      rw [hwj] at hout hmem
      cases hout
      rw [h.old out (hknown out hmem), ← h.objects out hmem, hgone] at hv
      exact absurd hv nofun
  · -- the place of an earlier result, which is an `int`
    have hlt : j - outs.length < rs₀.length := by rw [h.length]; omega
    have hget : list_get s.out_list j = some (.cell rs₀[j - outs.length]) := by
      rw [h.contains.get (by rw [List.length_append, List.length_map]; omega),
        List.getElem_append_right (by omega), List.getElem_map]
    obtain rfl := Option.some.inj (hw.symm.trans hget)
    cases hout
    rw [h.int _ (List.getElem_mem hlt)] at hv
    cases hv
    rcases hkind with hnull | ⟨r, hr⟩
    · exact absurd hnull nofun
    · exact absurd hr nofun

theorem Iteration.cell_null {j : ℕ} {rs₀ rs : List ℕ} (h : Iteration m outs cell j rs₀ rs s s')
    (hnull : outs[j]? = some .null) : cell j = .null := by
  obtain ⟨w, m₁, out, m₂, e, hw, hout, hassign, he, ⟨ys, hrs⟩, -⟩ := h.step
  obtain rfl := Option.some.inj (hw.symm.trans (get_out h.contains hnull))
  cases hout
  obtain ⟨v, hv, hkind⟩ := live_of_assign hassign
  obtain rfl := Option.some.inj (Heap.get_alloc_self.symm.trans hv)
  rcases hkind with hnull | ⟨r, hr⟩
  · exact hnull
  · -- `f` writes to a block that is there already
    exfalso
    have hmem : e ∈ rs.map Word.cell := by
      rw [hrs]
      exact List.mem_append_right _ List.mem_cons_self
    obtain ⟨r', hr', rfl⟩ := List.mem_map.mp hmem
    have hget : (s.mem.cells.alloc (cell j)).get s.mem.cells.size = some (.cell r) :=
      hr ▸ Heap.get_alloc_self
    simp only [assign, hget, Option.bind_eq_bind, Option.bind_some, Option.bind_eq_some_iff]
      at hassign
    obtain ⟨cells, hset, hm₂⟩ := hassign
    obtain ⟨v, hv, rfl⟩ := Option.map_eq_some_iff.mp hset
    cases hm₂
    by_cases hrc : r = s.mem.cells.size
    · subst hrc
      rw [Heap.get_put_self hv] at he
      cases he
    · rw [Heap.get_put_of_ne (Ne.symm hrc), hget, Option.some.injEq, Word.cell.injEq] at he
      subst he
      rw [Heap.get_alloc_of_ne hrc] at hv
      have hnodup : (rs.map Word.cell).Nodup := h.nodup.map fun _ _ => Word.cell.inj
      rw [hrs] at hnodup
      exact (List.nodup_append.mp hnodup).2.2 _
        (List.mem_map_of_mem (h.only r v (h.new r hr') hv)) _ List.mem_cons_self rfl

theorem onlyResults_init (h : Inputs1 m in_list out_list ins vs outs) :
    OnlyResults m outs ⟨m, out_list, []⟩ := by
  refine ⟨[], ?_, fun p w hp hpw => absurd (Heap.lt_size hpw) (Nat.not_lt.mpr hp)⟩
  rw [List.map_nil, List.append_nil]
  exact h.output

theorem int_of_zero {rs : List ℕ}
    (hall : rs.map s.mem.cells.get = ((vs.take n).map zero).map some) :
    ∀ r ∈ rs, s.mem.cells.get r = some (.int 0) := by
  intro r hr
  have hmem : s.mem.cells.get r ∈ ((vs.take n).map zero).map some :=
    hall ▸ List.mem_map_of_mem hr
  obtain ⟨z, hz, hrz⟩ := List.mem_map.mp hmem
  obtain ⟨v, -, rfl⟩ := List.mem_map.mp hz
  exact hrz.symm

theorem iteration_of_maps (h : Inputs1 m in_list out_list ins vs outs)
    (hrun : list_map1 (compute1 zero) junk cell in_list ⟨m, out_list, []⟩ = some s')
    (hmaps : Maps zero m ins vs outs s') {j : ℕ} (hj : j < ins.length)
    (hready : Ready cell out_list outs j) : ∃ rs₀ rs s, Iteration m outs cell j rs₀ rs s s' ∧
      0 < outs.length ∧ Fits out_list (j + 1) := by
  obtain ⟨s, hup, hdone⟩ :=
    list_map1_up junk h (computes1_compute1 zero) hready (Nat.le_of_lt hj)
  obtain ⟨rs₁, hcontains₁, honly⟩ : OnlyResults m outs s :=
    Loop.up_invariant _ (fun _ => OnlyResults m outs)
      (fun i hi t t' ht hstep => ht.next (hready.null i hi) (Int.zero_add (i : ℤ) ▸ hstep))
      (onlyResults_init h) hup
  have hk : (list_len in_list).toNat = j + ((ins.length - j - 1) + 1) := by
    rw [list_len, h.input.len, Int.toNat_natCast]
    omega
  rw [list_map1, hk, Loop.up_add, hup, Option.bind_some, Int.zero_add, Loop.up] at hrun
  obtain ⟨s₁, hstep, hrest⟩ := Option.bind_eq_some_iff.mp hrun
  obtain ⟨w, m₁, out, x, m₂, e, l', cells, hw, hout, -, hf, he, happ, hfree, rfl⟩ :=
    list_map1_step_cases hstep
  rw [Int.toNat_natCast] at hout
  obtain ⟨v, hassign⟩ := compute1_assigns hf
  obtain ⟨rs₀, happ₀, -, -, hall₀⟩ := hdone.mapped.results
  obtain ⟨rs, hrs, hnodup, hnew, -⟩ := hmaps.results
  obtain ⟨⟨ys, hys⟩, hreads⟩ := list_map1_extends (contains_of_append happ₀.contains happ) hrest
  -- the results so far, and those in the end
  have hrs₁ : rs₁ = rs₀ := List.map_injective_iff.mpr (fun _ _ => Word.cell.inj)
    (List.append_cancel_left (hcontains₁.unique happ₀.contains))
  have hfinal : rs.map .cell = rs₀.map .cell ++ e :: ys := by
    have heq := hrs.unique hys
    simpa only [List.append_assoc, List.append_cancel_left_eq, List.singleton_append] using heq
  have hlen : rs₀.length = j := by
    have hlen := congrArg List.length hall₀
    simp only [List.length_map, List.length_take, length_of_values h.values] at hlen
    omega
  have hgone : s'.mem.cells.get out = none := by
    rw [Heap.free_eq he] at hfree
    cases hfree
    exact (list_map1_freed ⟨by rw [Heap.size_put]; exact Heap.lt_size he, Heap.get_put_self he⟩
      hrest).2
  refine ⟨rs₀, rs, s, ⟨happ₀.contains, hlen, int_of_zero hall₀, hdone.mapped.old,
    hrs₁ ▸ honly, hnew, hnodup, ⟨w, m₁, out, m₂, e, hw, hout, hassign, he, ⟨ys, hfinal⟩, hgone⟩,
    fun p hp => hmaps.objects p (List.mem_append_right _ hp)⟩, ?_, ?_⟩
  · -- the position `j` was below the length of `out_list` and `j` results
    have hread := hmaps.reads ((j : ℤ), s.out_list.len)
      (hreads (List.mem_append_right _ List.mem_cons_self))
    have hlen' := happ₀.contains.len
    rw [List.length_append, List.length_map, hlen] at hlen'
    have hlt := hread.2
    omega
  · have hfits := (happ₀.of_append happ).1
    rwa [List.length_map, hlen] at hfits

/-- **One place more**, where the promise is kept for `zero`. -/
theorem ready_succ (h : Inputs1 m in_list out_list ins vs outs)
    (hrun : list_map1 (compute1 zero) junk cell in_list ⟨m, out_list, []⟩ = some s')
    (hmaps : Maps zero m ins vs outs s') {j : ℕ} (hj : j < ins.length)
    (hready : Ready cell out_list outs j) : Ready cell out_list outs (j + 1) := by
  obtain ⟨rs₀, rs, s, hiter, hpos, hfits⟩ := iteration_of_maps h hrun hmaps hj hready
  have hnull := hiter.out_null hpos h.known
  refine ⟨hfits, fun i hi => ?_⟩
  rcases Nat.lt_succ_iff_lt_or_eq.mp hi with hlt | rfl
  · exact hready.null i hlt
  · exact ⟨hnull, hiter.cell_null hnull⟩

theorem ready_of_maps (h : Inputs1 m in_list out_list ins vs outs)
    (hrun : list_map1 (compute1 zero) junk cell in_list ⟨m, out_list, []⟩ = some s')
    (hmaps : Maps zero m ins vs outs s') : Ready cell out_list outs ins.length := by
  have hall : ∀ j ≤ ins.length, Ready cell out_list outs j := by
    intro j
    induction j with
    | zero => exact fun _ => ⟨h.output.fits_zero, nofun⟩
    | succ j ih => exact fun hj => ready_succ h hrun hmaps hj (ih (Nat.le_of_succ_le hj))
  exact hall _ (Nat.le_refl _)

/-- **When `list_map1` keeps its promise** to all functions of the documented kind. -/
theorem list_map1_iff (h : Inputs1 m in_list out_list ins vs outs) (junk cell : ℕ → Word) :
    (∀ f g, Computes1 f g → ∃ s, list_map1 f junk cell in_list ⟨m, out_list, []⟩ = some s ∧
      Maps g m ins vs outs s) ↔ Ready cell out_list outs ins.length := by
  constructor
  · intro hall
    obtain ⟨s, hrun, hmaps⟩ := hall (compute1 zero) zero (computes1_compute1 zero)
    exact ready_of_maps h hrun hmaps
  · intro hready f g hf
    exact list_map1_spec h hf hready

theorem inputs1_twoInts : Inputs1 twoInts (listOf (.cell 0)) (listOf (.cell 1)) [.cell 0]
    [.object (.int 1)] [.cell 1] where
  input := contains_listOf _
  values := rfl
  output := contains_listOf _
  known p hp := by
    obtain rfl := Word.cell.inj (List.mem_singleton.mp hp)
    decide

/-- Three elements for an `out_list` that contains `NULL`s, and has to grow. -/
theorem list_map1_iff_null :
    Ready (fun _ => .null) (arrayOf (List.replicate 9 .null)) (List.replicate 9 .null) 3 ∧
      ∀ f g, Computes1 f g → ∃ s,
        list_map1 f (fun _ => .null) (fun _ => .null) (arrayOf [.cell 0, .cell 1, .cell 0])
          ⟨twoInts, arrayOf (List.replicate 9 .null), []⟩ = some s ∧
          Maps g twoInts [.cell 0, .cell 1, .cell 0]
            [.object (.int 1), .object (.int 2), .object (.int 1)] (List.replicate 9 .null) s := by
  have hinputs : Inputs1 twoInts (arrayOf [.cell 0, .cell 1, .cell 0])
      (arrayOf (List.replicate 9 .null)) [.cell 0, .cell 1, .cell 0]
      [.object (.int 1), .object (.int 2), .object (.int 1)] (List.replicate 9 .null) :=
    ⟨contains_arrayOf (by decide), rfl, contains_arrayOf (by decide), fun p hp => by simp at hp⟩
  have hready : Ready (fun _ => .null) (arrayOf (List.replicate 9 .null)) (List.replicate 9 .null) 3 :=
    ⟨⟨1, by decide, by decide⟩, by decide⟩
  exact ⟨hready, (list_map1_iff hinputs _ _).mpr hready⟩

/-- **The object of `out_list`** is taken for the new element, and freed. -/
theorem list_map1_breaks : ¬∀ f g, Computes1 f g → ∃ s,
    list_map1 f (fun _ => .null) (fun _ => .null) (listOf (.cell 0))
      ⟨twoInts, listOf (.cell 1), []⟩ = some s ∧ Maps g twoInts [.cell 0] [.object (.int 1)]
        [.cell 1] s := by
  intro hall
  obtain ⟨s, hrun, hmaps⟩ := hall (compute1 zero) zero (computes1_compute1 zero)
  have hready := ready_of_maps inputs1_twoInts hrun hmaps
  exact absurd (hready.null 0 (by decide)).1 (by decide)

end IntroSystems.Lists
