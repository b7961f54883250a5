import IntroSystems.Lists.Map1
import IntroSystems.Lists.Sequence
import IntroSystems.Lists.TruncPasses

/-!
# What `trunc.c` prints

* `Parses`: what `list_map1` is to do. **`parses_map1_iff`**: where the array of a new list contains
  `NULL`, it does that for ten arguments at most.
* `Trims`: what `main` does then.
* **`main_trims`**.
-/

set_option autoImplicit false

namespace IntroSystems.Lists.Trunc

open CString

/-- The strings `args` are at the addresses `argv`. -/
structure Strings (m : Mem) (argv : List Word) (args : List (List Byte)) : Prop where
  nodup : argv.Nodup
  strings : argv.map (str m) = args.map some

/-- **What `list_map1` is to do**: to append what `parse_int` gives for the arguments. -/
def Parses (map1 : MapFun) (junk : ℕ → ℕ → Word) (m : Mem) (argv : List Word)
    (args : List (List Byte)) : Prop :=
  ∀ arg_list, arguments (junk 5) argv (list_create (junk 5)) = some arg_list →
    ∃ m' l0, map1 parse_int (list_create (junk 0)) arg_list m = some (m', l0) ∧
      Contains l0 (args.tail.map fun s => .int (parsed s)) ∧ m'.strings = m.strings

/-- **What `main` does**, for the arguments `args` at `argv`. -/
structure Trims (m : Mem) (argv : List Word) (args : List (List Byte)) (t : Final) : Prop where
  l2 : Contains t.l2 ((numbers args).map .int)
  l3 : ∃ ws, Contains t.l3 ws ∧ ws.Sublist argv ∧ ws.map (str m) = (words args).map some
  partition : t.l2.len + t.l3.len = args.length
  l4 : ∃ ws, Contains t.l4 ws ∧ ws.map (str t.mem) = (truncated args).map some
  len : t.l4.len = min t.l2.len t.l3.len
  printed : ∃ v : BitVec 32, IsGreatest (insert 0 {n | ∃ u ∈ numbers args, u.toInt = n}) v.toInt ∧
    t.printed = (truncated args).map .line ++ (truncated args).map .word ++ [.newline, .number v]

variable {map1 : MapFun} {junk : ℕ → ℕ → Word} {m : Mem} {argv ws : List Word}
  {args : List (List Byte)} {as : List (Word × List Byte)} {arg_list : ListStruct Word} {n : ℕ}

/-! ### The arguments -/

theorem Strings.tail (h : Strings m argv args) :
    argv.tail.map (str m) = args.tail.map some := by
  rw [List.map_tail, List.map_tail, h.strings]

theorem length_argv (argv : List Word) : ((argv.length : ℤ) - 1).toNat = argv.tail.length := by
  rw [List.length_tail]
  omega

theorem getElem?_argv (argv : List Word) (i : ℕ) :
    argv[((i : ℤ) + 1).toNat]? = argv.tail[i]? := by
  rw [List.getElem?_tail]
  rfl

theorem arguments_spec {junk : ℕ → Word} (hfits : Fits (list_create junk) argv.tail.length) :
    ∃ arg_list, arguments junk argv (list_create junk) = some arg_list ∧
      Contains arg_list argv.tail := by
  have hloop := Loop.up_spec (fun i arg_list => do
      let e ← argv[(i + 1).toNat]?
      list_append junk e arg_list)
    (fun j l => Appended (list_create junk) [] (argv.tail.take j) l) (a := 0)
    (k := argv.tail.length) (s := list_create junk)
  obtain ⟨l, hrun, happ⟩ := hloop (fun j hj l happ => by
    obtain ⟨l', hl', happ'⟩ := happ.append junk hfits
      (by rwa [List.length_take_of_le (Nat.le_of_lt hj)]) argv.tail[j]
    rw [List.take_append_getElem hj] at happ'
    refine ⟨l', ?_, happ'⟩
    rw [Int.zero_add, getElem?_argv, List.getElem?_eq_getElem hj, Option.bind_eq_bind,
      Option.bind_some, hl']) (appended_nil (contains_create junk))
  have hcontains := happ.contains
  rw [List.take_length, List.nil_append] at hcontains
  exact ⟨l, by rw [arguments, length_argv, hrun], hcontains⟩

theorem fits_of_arguments {junk : ℕ → Word}
    (h : arguments junk argv (list_create junk) = some arg_list) :
    Fits (list_create junk) argv.tail.length := by
  rw [arguments, length_argv] at h
  have hinv := Loop.up_invariant _ (fun j l => Fits (list_create junk) j ∧
      ∃ es : List Word, es.length = j ∧ Appended (list_create junk) [] es l)
    (fun j _ l l' ⟨_, es, hlen, happ⟩ hstep => by
      obtain ⟨e, -, hl'⟩ := Option.bind_eq_some_iff.mp hstep
      obtain ⟨hfits, happ'⟩ := happ.of_append hl'
      rw [hlen] at hfits
      exact ⟨hfits, es ++ [e], by rw [List.length_append, hlen, List.length_singleton], happ'⟩)
    ⟨(contains_create junk).fits_zero, [], rfl, appended_nil (contains_create junk)⟩ h
  exact hinv.1

theorem contains_of_arguments {junk : ℕ → Word}
    (h : arguments junk argv (list_create junk) = some arg_list) :
    Contains arg_list argv.tail := by
  obtain ⟨l, hl, hcontains⟩ := arguments_spec (fits_of_arguments h)
  rwa [Option.some.inj (h.symm.trans hl)]

/-! ### What `list_map1` does -/

/-- A new list that `es` have been appended to, with `NULL` in the rest of its array. -/
def zeroed (es : List Word) : ListStruct Word :=
  ⟨es ++ List.replicate (10 - es.length) .null, es.length, INITIAL_SIZE⟩

theorem create_zeroed {junk : ℕ → Word} (h : ∀ i, junk i = .null) :
    list_create junk = zeroed [] := by
  rw [list_create, zeroed]
  refine congrArg (fun data => ListStruct.mk data 0 INITIAL_SIZE) ?_
  exact List.map_eq_replicate_iff.mpr fun i _ => h i

theorem contains_zeroed {es : List Word} (h : es.length ≤ 10) : Contains (zeroed es) es where
  len := rfl
  size := by
    rw [zeroed, List.length_append, List.length_replicate, Nat.add_sub_cancel' h]
    rfl
  size_lt := (by decide : INITIAL_SIZE < 2 ^ 31)
  front := List.prefix_append _ _

theorem list_get_zeroed (es : List Word) (h : es.length < 10) :
    list_get (zeroed es) es.length = some .null := by
  rw [list_get, read_eq, zeroed, List.getElem?_append_right (Nat.le_refl _), Nat.sub_self,
    List.getElem?_replicate, if_pos (Nat.sub_pos_of_lt h)]

theorem zeroed_append {es : List Word} (h : es.length < 10) (e : Word) : zeroed (es ++ [e]) =
    { zeroed es with data := (zeroed es).data.set es.length e, len := (zeroed es).len + 1 } := by
  obtain ⟨k, hk⟩ := Nat.exists_eq_add_of_lt h
  have hk₀ : 10 - es.length = k + 1 := by omega
  have hk₁ : 10 - (es.length + 1) = k := by omega
  simp only [zeroed, hk₀, hk₁, List.replicate_succ, List.set_append_right _ _ (Nat.le_refl _),
    Nat.sub_self, List.set_cons_zero, List.append_assoc, List.singleton_append, List.length_append,
    List.length_singleton, Int.natCast_add, Int.natCast_one]

theorem list_append_zeroed (junk : ℕ → Word) {es : List Word} (h : es.length < 10) (e : Word) :
    list_append junk e (zeroed es) = some (zeroed (es ++ [e])) := by
  have hlt : es.length < (zeroed es).data.length := by
    rw [zeroed, List.length_append, List.length_replicate]
    omega
  rw [list_append_eq junk (contains_zeroed (Nat.le_of_lt h)) hlt, zeroed_append h]

/-- What the iterations of `list_map1` keep. -/
def Parsing (m : Mem) (ss : List (List Byte)) (j : ℕ) (s : Map1) : Prop :=
  s.out_list = zeroed ((ss.take j).map fun s => .int (parsed s)) ∧ s.mem.strings = m.strings

theorem Parsing.next {junk cell : ℕ → Word} {ss : List (List Byte)} {j : ℕ} {s : Map1}
    (hs : Parsing m ss j s) (hargs : Contains arg_list ws) (hws : ws.map (str m) = ss.map some)
    (hj : j < ws.length) (hle : j < 10) :
    ∃ s', list_map1_step parse_int junk cell arg_list j s = some s' ∧ Parsing m ss (j + 1) s' := by
  obtain ⟨hout, hstrings⟩ := hs
  have hj' : j < ss.length := length_of_values hws ▸ hj
  have hes : ((ss.take j).map fun s => Word.int (parsed s)).length = j := by
    rw [List.length_map, List.length_take_of_le (Nat.le_of_lt hj')]
  have hnull : list_get s.out_list j = some .null := by
    have hget := list_get_zeroed ((ss.take j).map fun s => Word.int (parsed s)) (by omega)
    rwa [hes, ← hout] at hget
  have hmalloc : mallocElement (cell j) s.mem =
    (⟨s.mem.cells.alloc (cell j), s.mem.strings⟩, s.mem.cells.size) := rfl
  have hnew : (s.mem.cells.alloc (cell j)).get s.mem.cells.size = some (cell j) :=
    Heap.get_alloc_self
  have hparse := parse_int_spec (m := ⟨s.mem.cells.alloc (cell j), s.mem.strings⟩) hnew
    ((str_congr hstrings _).trans (getElem_of_values hws hj hj'))
  have hcell := Heap.get_put_self (c := some (Word.int (parsed ss[j]))) hnew
  have happ : list_append junk (.int (parsed ss[j])) s.out_list =
      some (zeroed ((ss.take (j + 1)).map fun s => .int (parsed s))) := by
    rw [hout, list_append_zeroed junk (by omega), ← List.take_append_getElem hj', List.map_append,
      List.map_singleton]
  refine ⟨⟨⟨(s.mem.cells.alloc (cell j)).put s.mem.cells.size none, s.mem.strings⟩,
    zeroed ((ss.take (j + 1)).map fun s => .int (parsed s)),
    s.reads ++ [((j : ℤ), s.out_list.len), ((j : ℤ), arg_list.len)]⟩, ?_, rfl, hstrings⟩
  simp only [list_map1_step, hnull, outElement, Int.toNat_natCast, hmalloc, hargs.get hj, hparse,
    appendOut, hcell, happ, Heap.free_eq hcell, Heap.put_put, Option.bind_eq_bind, Option.bind_some]

/-- **When `list_map1` does what `main` needs**: for ten arguments at most. -/
theorem parses_map1_iff (junk : ℕ → ℕ → Word) (cell : ℕ → Word) (h : Strings m argv args)
    (hfits : Fits (list_create (junk 5)) argv.tail.length) (hnull : ∀ i, junk 0 i = .null) :
    Parses (call_list_map1 (junk 0) cell) junk m argv args ↔ argv.tail.length ≤ 10 := by
  have hws := h.tail
  constructor
  · intro hparses
    obtain ⟨arg_list, harguments, hargs⟩ := arguments_spec hfits
    obtain ⟨m', l0, hmap1, -⟩ := hparses arg_list harguments
    by_contra hlt
    rw [call_list_map1, list_map1_create hargs (Nat.lt_of_not_le hlt)] at hmap1
    cases hmap1
  · intro hle arg_list harguments
    have hargs := contains_of_arguments harguments
    have hloop := Loop.up_spec (list_map1_step parse_int (junk 0) cell arg_list)
      (Parsing m args.tail) (a := 0) (k := argv.tail.length) (s := ⟨m, list_create (junk 0), []⟩)
    obtain ⟨s, hrun, hout, hstrings⟩ := hloop
      (fun j hj s hs => by
        rw [Int.zero_add]
        exact hs.next hargs hws hj (Nat.lt_of_lt_of_le hj hle))
      ⟨create_zeroed hnull, rfl⟩
    have hk : (list_len arg_list).toNat = argv.tail.length := by
      rw [list_len, hargs.len, Int.toNat_natCast]
    rw [← length_of_values hws, List.take_length] at hout
    refine ⟨s.mem, s.out_list, ?_, ?_, hstrings⟩
    · rw [call_list_map1, list_map1, hk, hrun, Option.bind_eq_bind, Option.bind_some]
    · rw [hout]
      refine contains_zeroed ?_
      rwa [List.length_map, length_of_values hws]

/-! ### The program -/

theorem trims_of_lists {t : Final} {v : BitVec 32} (has : ∀ a ∈ as, str m a.1 = some a.2)
    (hl2 : Contains t.l2 ((numbers (as.map Prod.snd)).map .int))
    (hl3 : Contains t.l3 ((as.filter fun a => Negative a.2).map Prod.fst))
    (hl4 : Contains t.l4 ws)
    (hws : ws.map (str t.mem) = (truncated (as.map Prod.snd)).map some)
    (hv : IsGreatest (insert 0 {n | ∃ u ∈ numbers (as.map Prod.snd), u.toInt = n}) v.toInt)
    (hprinted : t.printed = (truncated (as.map Prod.snd)).map .line ++
      (truncated (as.map Prod.snd)).map .word ++ [.newline, .number v]) :
    Trims m (as.map Prod.fst) (as.map Prod.snd) t := by
  have hsub : (as.filter fun a => Negative a.2).Sublist as := List.filter_sublist
  have hlen₂ : t.l2.len = (numbers (as.map Prod.snd)).length := by rw [hl2.len, List.length_map]
  have hlen₃ : t.l3.len = (words (as.map Prod.snd)).length := by
    rw [hl3.len, ← map_words, List.length_map, List.length_map]
  have hlen₄ : ws.length = (truncated (as.map Prod.snd)).length := (length_of_values hws).symm
  refine ⟨hl2, ⟨_, hl3, hsub.map _, ?_⟩, ?_, ⟨ws, hl4, hws⟩, ?_, v, hv, hprinted⟩
  · rw [← map_words, List.map_map, List.map_map]
    exact List.map_congr_left fun b hb => has b (hsub.subset hb)
  · rw [hlen₂, hlen₃, ← Int.natCast_add, length_words_add]
  · rw [hl4.len, hlen₄, hlen₂, hlen₃, truncated, List.length_zipWith, Nat.min_comm]
    omega

theorem main_spec (cell : ℕ → ℕ → Word) (h : Strings m argv args)
    (hparse : Parses map1 junk m argv args) (hfits : Fits (list_create (junk 5)) argv.tail.length) :
    ∃ t, main map1 junk cell argv m = some t ∧ Trims m argv.tail args.tail t := by
  have hstrings := h.tail
  have hnodup : argv.tail.Nodup := h.nodup.tail
  obtain ⟨arg_list, harguments, hargs⟩ := arguments_spec hfits
  obtain ⟨m₀, l0, hmap1, hl0, hm₀⟩ := hparse arg_list harguments
  obtain ⟨as, hargv, hargs', has⟩ := exists_pairs hstrings
  rw [hargv] at hargs hnodup hfits ⊢
  rw [hargs'] at hl0 ⊢
  rw [List.map_map] at hl0
  rw [List.length_map] at hfits
  have has₀ : ∀ a ∈ as, str m₀ a.1 = some a.2 := fun a ha => (str_congr hm₀ _).trans (has a ha)
  obtain ⟨s₁, hnull, hl1, hs₁⟩ := to_null_pass (m := m₀) (junk 1) (cell 1) hargs hl0 hfits
  obtain ⟨l2, hpositive, hl2⟩ := positive_pass (junk 2) hl0 hfits
  obtain ⟨l3, his_null, hl3⟩ := is_null_pass (junk 3) has₀ hl1 hfits
  have hsub : (as.filter fun a => Negative a.2).Sublist as := List.filter_sublist
  obtain ⟨s₄, ws, htruncate, hl4, hws⟩ := truncate_pass (m := s₁.mem) (junk 4) (cell 4) hl3 hl2
    (hnodup.sublist (hsub.map _))
    (fun b hb => (str_congr hs₁ _).trans (has₀ b (hsub.subset hb))) nonneg_of_numbers
    (hfits.mono (Nat.le_trans (Nat.min_le_left _ _) hsub.length_le))
  rw [map_words] at hws
  obtain ⟨i, v, hmax, hi, hv⟩ := max_pass hl2
  have hline := print_pass (print_str s₄.mem) .line
    (fun w s printed hs => by rw [print_str, hs]; rfl) hl4 hws []
  have hword := print_pass (print_with_spaces s₄.mem) .word
    (fun w s printed hs => by rw [print_with_spaces, hs]; rfl) hl4 hws
  refine ⟨⟨l2, l3, s₄.out_list, s₄.mem, _⟩, ?_, trims_of_lists has hl2 hl3 hl4 hws hv rfl⟩
  simp only [main, harguments, hmap1, hnull, hpositive, his_null, htruncate, hline, hword, hmax, hi,
    Option.bind_eq_bind, Option.bind_some, List.nil_append]
  rfl

theorem fits_create_iff (junk : ℕ → Word) : Fits (list_create junk) n ↔ n ≤ CAPACITY := by
  constructor
  · rintro ⟨k, hle, hlt⟩
    have hk : k ≤ 11 := by
      by_contra hk
      have hpow : GROWTH_FACTOR ^ 12 ≤ GROWTH_FACTOR ^ k :=
        pow_le_pow_right₀ (by decide) (Nat.lt_of_not_le hk)
      have hsize : INITIAL_SIZE * GROWTH_FACTOR ^ 12 ≤ INITIAL_SIZE * GROWTH_FACTOR ^ k :=
        Int.mul_le_mul_of_nonneg_left hpow (by decide)
      exact absurd (Int.lt_of_le_of_lt hsize hlt) (by decide)
    have hpow : GROWTH_FACTOR ^ k ≤ GROWTH_FACTOR ^ 11 := pow_le_pow_right₀ (by decide) hk
    have hsize : INITIAL_SIZE * GROWTH_FACTOR ^ k ≤ INITIAL_SIZE * GROWTH_FACTOR ^ 11 :=
      Int.mul_le_mul_of_nonneg_left hpow (by decide)
    have hcapacity : INITIAL_SIZE * GROWTH_FACTOR ^ 11 = CAPACITY := by decide
    have hle' : ((0 : ℤ) + n) ≤ CAPACITY := hle.trans (hsize.trans hcapacity.le)
    omega
  · intro h
    exact (refines_create junk).fits (by rwa [List.length_nil, Nat.zero_add])

/-- **`trunc.c`**: there is a run for the arguments that a list has room for, and a run does what it
is for. -/
theorem main_trims (cell : ℕ → ℕ → Word) (h : Strings m argv args)
    (hparse : Parses map1 junk m argv args) :
    ((∃ t, main map1 junk cell argv m = some t) ↔ argv.tail.length ≤ CAPACITY) ∧
      ∀ t, main map1 junk cell argv m = some t → Trims m argv.tail args.tail t := by
  have hfits : ∀ t, main map1 junk cell argv m = some t →
      Fits (list_create (junk 5)) argv.tail.length := by
    intro t ht
    obtain ⟨arg_list, harguments, -⟩ := Option.bind_eq_some_iff.mp ht
    exact fits_of_arguments harguments
  refine ⟨⟨fun ⟨t, ht⟩ => (fits_create_iff _).mp (hfits t ht), fun hle => ?_⟩, fun t ht => ?_⟩
  · obtain ⟨t, hrun, -⟩ := main_spec cell h hparse ((fits_create_iff _).mpr hle)
    exact ⟨t, hrun⟩
  · obtain ⟨t', hrun, htrims⟩ := main_spec cell h hparse (hfits t ht)
    rwa [Option.some.inj (ht.symm.trans hrun)]

/-- The memory with the arguments of `trunc 3 hello`. -/
def threeHello : Mem :=
  ⟨.empty, ⟨[some (chars "trunc" ++ [0]), some (chars "3" ++ [0]), some (chars "hello" ++ [0])]⟩⟩

theorem strings_threeHello : Strings threeHello [.string 0, .string 1, .string 2]
    [chars "trunc", chars "3", chars "hello"] where
  nodup := by decide
  strings := by decide

/-- `trunc 3 hello`, with `list_map1` itself. -/
theorem main_trims_threeHello :
    ((∃ t, main (call_list_map1 (fun _ => .null) fun _ => .null) (fun _ _ => .null)
      (fun _ _ => .null) [.string 0, .string 1, .string 2] threeHello = some t) ↔
        [Word.string 1, .string 2].length ≤ CAPACITY) ∧
      ∀ t, main (call_list_map1 (fun _ => .null) fun _ => .null) (fun _ _ => .null)
        (fun _ _ => .null) [.string 0, .string 1, .string 2] threeHello = some t →
          Trims threeHello [.string 1, .string 2] [chars "3", chars "hello"] t :=
  main_trims (fun _ _ => .null) strings_threeHello
    ((parses_map1_iff (fun _ _ => .null) (fun _ => .null) strings_threeHello
      ((fits_create_iff _).mpr (by decide)) fun _ => rfl).mpr (by decide))

example : (main (call_list_map1 (fun _ => .null) fun _ => .null) (fun _ _ => .null)
    (fun _ _ => .int 9) [.string 0, .string 1, .string 2] threeHello).map Final.printed =
      some [.line (chars "hel"), .word (chars "hel"), .newline, .number 3] := by
  decide

end IntroSystems.Lists.Trunc
