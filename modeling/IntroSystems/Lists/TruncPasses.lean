import IntroSystems.Lists.Trunc
import Mathlib.Order.Bounds.Basic

/-!
# The passes of `trunc.c`

What each pass over the lists of `main` gives. A pair of `as` is the address of an argument, and the
argument.

* `words`, `numbers`: the arguments that are not taken for numbers, and the numbers of the others.
* **`to_null_pass`**, **`positive_pass`**, **`is_null_pass`**, **`truncate_pass`**, `print_pass`,
  **`max_pass`**.
-/

set_option autoImplicit false

namespace IntroSystems.Lists.Trunc

open CString

/-- The arguments that are not taken for numbers. -/
def words (args : List (List Byte)) : List (List Byte) := args.filter fun s => Negative s

/-- The numbers of the others. -/
def numbers (args : List (List Byte)) : List (BitVec 32) :=
  (args.filter fun s => ¬Negative s).map parsed

/-- A string of as many characters as its number says. -/
def cut (s : List Byte) (v : BitVec 32) : List Byte := s.take (min s.length v.toInt.toNat)

def truncated (args : List (List Byte)) : List (List Byte) :=
  List.zipWith cut (words args) (numbers args)

variable {m : Mem} {ws : List Word} {args ss : List (List Byte)} {as bs : List (Word × List Byte)}
  {l l0 arg_list : ListStruct Word} {vs : List (BitVec 32)}

theorem exists_pairs (h : ws.map (str m) = ss.map some) : ∃ as : List (Word × List Byte),
    ws = as.map Prod.fst ∧ ss = as.map Prod.snd ∧ ∀ a ∈ as, str m a.1 = some a.2 := by
  induction ws generalizing ss with
  | nil =>
    rw [List.map_nil, eq_comm, List.map_eq_nil_iff] at h
    exact ⟨[], rfl, h, nofun⟩
  | cons w ws ih =>
    cases ss with
    | nil => exact absurd h nofun
    | cons s ss =>
      obtain ⟨hw, h⟩ := List.cons.inj h
      obtain ⟨as, rfl, rfl, has⟩ := ih h
      exact ⟨(w, s) :: as, rfl, rfl, List.forall_mem_cons.mpr ⟨hw, has⟩⟩

/-- What `to_null` gives for an argument. -/
def mark (a : Word × List Byte) : Word := if Negative a.2 then a.1 else .null

theorem to_null_pass (junk cell : ℕ → Word) (hargs : Contains arg_list (as.map Prod.fst))
    (hl0 : Contains l0 (as.map fun a => .int (parsed a.2)))
    (hfits : Fits (list_create junk) as.length) :
    ∃ s, list_map2 to_null junk cell arg_list l0 ⟨m, list_create junk, []⟩ = some s ∧
      Contains s.out_list (as.map mark) ∧ s.mem.strings = m.strings := by
  have hmin : min (as.map Prod.fst).length (as.map fun a => Word.int (parsed a.2)).length =
      as.length := by
    rw [List.length_map, List.length_map, Nat.min_self]
  have hrule := list_map2_rule to_null junk cell m
    (fun es m' => es = (as.map mark).take es.length ∧ m'.strings = m.strings)
    (fun es m₁ m₂ h hI => ⟨hI.1, h.trans hI.2⟩) hargs hl0 (contains_create junk)
    (by rwa [hmin])
  rw [hmin] at hrule
  obtain ⟨s, es, hrun, hcontains, hlen, hes, hstrings⟩ := hrule
    (fun es m' out w hlt₀ hlt₁ ⟨hes, hm'⟩ hout => by
      have hlt : es.length < as.length := by rwa [List.length_map] at hlt₀
      have hlt' : es.length < (as.map mark).length := by rwa [List.length_map]
      refine ⟨{ m' with cells := m'.cells.put out (some (mark as[es.length])) },
        mark as[es.length], ?_, Heap.get_put_self hout, ?_, hm'⟩
      · rw [List.getElem_map, List.getElem_map, to_null_spec hout]
        rfl
      · rw [List.length_append, List.length_singleton, ← List.take_append_getElem hlt', ← hes,
          List.getElem_map]) ⟨rfl, rfl⟩
  rw [hlen, List.take_of_length_le (Nat.le_of_eq (List.length_map ..))] at hes
  rw [List.nil_append, hes] at hcontains
  exact ⟨s, hrun, hcontains, hstrings⟩

theorem positive_pass (junk : ℕ → Word) (hl0 : Contains l0 (as.map fun a => .int (parsed a.2)))
    (hfits : Fits (list_create junk) as.length) :
    ∃ l2, list_filter positive junk l0 (list_create junk) = some l2 ∧
      Contains l2 ((numbers (as.map Prod.snd)).map .int) := by
  have hfilter : (as.map fun a => Word.int (parsed a.2)).filter (fun w => (positive w).getD false) =
      (numbers (as.map Prod.snd)).map .int := by
    rw [numbers, List.filter_map, List.filter_map, List.map_map, List.map_map]
    refine congrArg (List.map _) (List.filter_congr fun a _ => ?_)
    exact decide_eq_decide.mpr Int.not_lt.symm
  have hspec := list_filter_spec junk (f := positive) (p := fun w => (positive w).getD false)
    (contains_create junk) hl0
  rw [hfilter] at hspec
  obtain ⟨l2, hrun, happ⟩ := hspec
    (fun y hy => by
      obtain ⟨a, -, rfl⟩ := List.mem_map.mp hy
      rfl)
    (hfits.mono (by
      rw [numbers, List.length_map, List.length_map]
      exact (List.length_filter_le _ _).trans (List.length_map ..).le))
  exact ⟨l2, hrun, happ.contains⟩

theorem filter_mark (has : ∀ a ∈ as, str m a.1 = some a.2) :
    (as.map mark).filter (fun w => (is_null w).getD false) =
      (as.filter fun a => Negative a.2).map Prod.fst := by
  induction as with
  | nil => rfl
  | cons a as ih =>
    rw [List.forall_mem_cons] at has
    obtain ⟨p, b, ha, -⟩ := string_of_str has.1
    rw [List.map_cons, List.filter_cons, List.filter_cons, ih has.2]
    by_cases hneg : Negative a.2
    · have hmark : mark a = .string p := by rw [mark, if_pos hneg, ha]
      rw [hmark, decide_eq_true hneg, if_pos rfl, List.map_cons, ha]
      rfl
    · have hmark : mark a = .null := if_neg hneg
      rw [hmark, decide_eq_false hneg]
      rfl

theorem is_null_pass (junk : ℕ → Word) (has : ∀ a ∈ as, str m a.1 = some a.2)
    (hl : Contains l (as.map mark)) (hfits : Fits (list_create junk) as.length) :
    ∃ l3, list_filter is_null junk l (list_create junk) = some l3 ∧
      Contains l3 ((as.filter fun a => Negative a.2).map Prod.fst) := by
  have hspec := list_filter_spec junk (f := is_null) (p := fun w => (is_null w).getD false)
    (contains_create junk) hl
  rw [filter_mark has] at hspec
  obtain ⟨l3, hrun, happ⟩ := hspec
    (fun y hy => by
      obtain ⟨a, ha, rfl⟩ := List.mem_map.mp hy
      obtain ⟨p, b, hp, -⟩ := string_of_str (has a ha)
      by_cases hneg : Negative a.2
      · rw [mark, if_pos hneg, hp]
        rfl
      · rw [mark, if_neg hneg]
        rfl)
    (hfits.mono (by
      rw [List.length_map]
      exact List.length_filter_le _ _))
  exact ⟨l3, hrun, happ.contains⟩

/-- What `truncate` has done to the strings when the elements `es` have been appended. -/
structure Cut (bs : List (Word × List Byte)) (vs : List (BitVec 32)) (es : List Word) (m : Mem) :
    Prop where
  front : es = (bs.map Prod.fst).take es.length
  done : ∀ k (hb : k < bs.length) (hv : k < vs.length), k < es.length →
    str m bs[k].1 = some (cut bs[k].2 vs[k])
  rest : ∀ k (hb : k < bs.length), es.length ≤ k → str m bs[k].1 = some bs[k].2

theorem Cut.next {es : List Word} {m m' : Mem} (h : Cut bs vs es m)
    (hnodup : (bs.map Prod.fst).Nodup) (hb : es.length < bs.length) (hv : es.length < vs.length)
    (hcut : str m' bs[es.length].1 = some (cut bs[es.length].2 vs[es.length]))
    (hother : ∀ y ≠ bs[es.length].1, str m' y = str m y) :
    Cut bs vs (es ++ [bs[es.length].1]) m' := by
  have hlen : (es ++ [bs[es.length].1]).length = es.length + 1 := List.length_append ..
  have hne : ∀ k (hk : k < bs.length), k ≠ es.length → bs[k].1 ≠ bs[es.length].1 := by
    intro k hk hkne heq
    have hk' : k < (bs.map Prod.fst).length := by rwa [List.length_map]
    have hb' : es.length < (bs.map Prod.fst).length := by rwa [List.length_map]
    have hsame : (bs.map Prod.fst)[k] = (bs.map Prod.fst)[es.length] := by
      rw [List.getElem_map, List.getElem_map, heq]
    exact hkne (hnodup.getElem_inj_iff.mp hsame)
  refine ⟨?_, fun k hk hkv hlt => ?_, fun k hk hle => ?_⟩
  · have hb' : es.length < (bs.map Prod.fst).length := by rwa [List.length_map]
    rw [hlen, ← List.take_append_getElem hb', ← h.front, List.getElem_map]
  · rw [hlen] at hlt
    rcases Nat.lt_succ_iff_lt_or_eq.mp hlt with hlt | rfl
    · rw [hother _ (hne k hk (Nat.ne_of_lt hlt)), h.done k hk hkv hlt]
    · exact hcut
  · rw [hlen] at hle
    rw [hother _ (hne k hk (Nat.ne_of_gt hle)), h.rest k hk (Nat.le_of_succ_le hle)]

theorem truncate_pass (junk cell : ℕ → Word) {l2 l3 : ListStruct Word}
    (hl3 : Contains l3 (bs.map Prod.fst)) (hl2 : Contains l2 (vs.map .int))
    (hnodup : (bs.map Prod.fst).Nodup) (hbs : ∀ b ∈ bs, str m b.1 = some b.2)
    (hvs : ∀ v ∈ vs, 0 ≤ v.toInt) (hfits : Fits (list_create junk) (min bs.length vs.length)) :
    ∃ s ws, list_map2 truncate junk cell l3 l2 ⟨m, list_create junk, []⟩ = some s ∧
      Contains s.out_list ws ∧ ws.map (str s.mem) =
        (List.zipWith cut (bs.map Prod.snd) vs).map some := by
  have hrule := list_map2_rule truncate junk cell m (Cut bs vs)
    (fun es m₁ m₂ h hI => ⟨hI.front, fun k hb hv hk => (str_congr h _).trans (hI.done k hb hv hk),
      fun k hb hk => (str_congr h _).trans (hI.rest k hb hk)⟩) hl3 hl2 (contains_create junk)
    (by rwa [List.length_map, List.length_map])
  obtain ⟨s, es, hrun, hcontains, hlen, hcut⟩ := hrule
    (fun es m₁ out w hlt₀ hlt₁ hI hout => by
      have hb : es.length < bs.length := by rwa [List.length_map] at hlt₀
      have hv : es.length < vs.length := by rwa [List.length_map] at hlt₁
      obtain ⟨m₂, htruncate, hcells, hself, hother⟩ := truncate_spec hout
        (hI.rest _ hb (Nat.le_refl _)) (hvs _ (List.getElem_mem hv))
      refine ⟨m₂, bs[es.length].1, ?_, ?_, hI.next hnodup hb hv hself hother⟩
      · rw [List.getElem_map, List.getElem_map, htruncate]
      · rw [hcells, Heap.get_put_self hout])
    ⟨rfl, nofun, fun k hk _ => hbs _ (List.getElem_mem hk)⟩
  rw [List.length_map, List.length_map] at hlen
  refine ⟨s, es, hrun, hcontains, List.ext_getElem ?_ fun k hk hk' => ?_⟩
  · simp only [List.length_map, List.length_zipWith, hlen]
  · rw [List.length_map] at hk
    have hb : k < bs.length := Nat.lt_of_lt_of_le (hlen ▸ hk) (Nat.min_le_left _ _)
    have hv : k < vs.length := Nat.lt_of_lt_of_le (hlen ▸ hk) (Nat.min_le_right _ _)
    have hes : es[k] = bs[k].1 := by
      have hfront := congrArg (·[k]?) hcut.front
      simpa only [List.getElem?_eq_getElem hk, List.getElem?_take_of_lt hk, List.getElem?_map,
        List.getElem?_eq_getElem hb, Option.map_some, Option.some.injEq] using hfront
    rw [List.getElem_map, List.getElem_map, List.getElem_zipWith, List.getElem_map, hes,
      hcut.done k hb hv hk]

theorem print_pass (print : Word → List Printed → Option (List Printed)) (mk : List Byte → Printed)
    (hprint : ∀ w s printed, str m w = some s → print w printed = some (printed ++ [mk s]))
    (hl : Contains l ws) (hws : ws.map (str m) = ss.map some) (printed : List Printed) :
    list_foreach print l printed = some (printed ++ ss.map mk) := by
  have hlen : ws.length = ss.length := (length_of_values hws).symm
  obtain ⟨printed', hrun, hI⟩ := list_foreach_spec print
    (fun printed' es => printed' = printed ++ (ss.take es.length).map mk) hl
    (fun printed' es e hes hI => by
      obtain ⟨rest, hrest⟩ := hes
      have hlt : es.length < ss.length := by
        rw [← hlen, ← hrest]
        simp only [List.length_append, List.length_singleton]
        omega
      have he : str m e = some ss[es.length] := by
        have hget := getElem_of_values hws (hlen ▸ hlt) hlt
        simpa only [← hrest, List.append_assoc, List.singleton_append,
          List.getElem_append_right (Nat.le_refl _), Nat.sub_self, List.getElem_cons_zero] using hget
      refine ⟨_, hprint e _ printed' he, ?_⟩
      rw [hI, List.length_append, List.length_singleton, ← List.take_append_getElem hlt,
        List.map_append, List.map_singleton, List.append_assoc])
    (by rw [List.length_nil, List.take_zero, List.map_nil, List.append_nil])
  rw [hrun, hI, hlen, List.take_length]

theorem max_pass (hl : Contains l (vs.map .int)) :
    ∃ i v, list_foldl max some l .null = some i ∧ toInt i = some v ∧
      IsGreatest (insert 0 {n | ∃ u ∈ vs, u.toInt = n}) v.toInt := by
  obtain ⟨i, hrun, v, hi, hmem, hle⟩ := list_foldl_spec (m := Word.null) max some
    (fun i es => ∃ v, toInt i = some v ∧ (v.toInt = 0 ∨ .int v ∈ es) ∧
      0 ≤ v.toInt ∧ ∀ u, .int u ∈ es → u.toInt ≤ v.toInt) hl
    (fun i es e hes ⟨v, hi, hmem, hpos, hle⟩ => by
      obtain ⟨u, -, rfl⟩ : ∃ u ∈ vs, Word.int u = e :=
        List.mem_map.mp (hes.subset (List.mem_append_right _ (List.mem_singleton.mpr rfl)))
      refine ⟨i, .int (if v.toInt > u.toInt then v else u), rfl, ?_, _, rfl, ?_⟩
      · rw [max, hi]
        rfl
      · simp only [List.mem_append, List.mem_singleton, Word.int.injEq]
        by_cases hgt : v.toInt > u.toInt
        · rw [if_pos hgt]
          refine ⟨hmem.imp_right .inl, hpos, fun x hx => ?_⟩
          rcases hx with hx | rfl
          · exact hle x hx
          · exact Int.le_of_lt hgt
        · rw [if_neg hgt]
          have hvu : v.toInt ≤ u.toInt := Int.not_lt.mp hgt
          refine ⟨.inr (.inr rfl), Int.le_trans hpos hvu, fun x hx => ?_⟩
          rcases hx with hx | rfl
          · exact Int.le_trans (hle x hx) hvu
          · exact Int.le_refl _)
    ⟨0, rfl, .inl rfl, Int.le_refl _, nofun⟩
  have hint : ∀ u, .int u ∈ vs.map Word.int ↔ u ∈ vs := fun u =>
    List.mem_map_of_injective fun _ _ => Word.int.inj
  refine ⟨i, v, hrun, hi, hmem.imp id fun h => ⟨v, (hint v).mp h, rfl⟩, ?_⟩
  rintro n (rfl | ⟨u, hu, rfl⟩)
  · exact hle.1
  · exact hle.2 u ((hint u).mpr hu)

theorem length_words_add (args : List (List Byte)) :
    (numbers args).length + (words args).length = args.length := by
  rw [numbers, words, List.length_map, Nat.add_comm, List.length_eq_length_filter_add
    (fun s => decide (Negative s)) (l := args)]
  simp only [decide_not]

theorem nonneg_of_numbers : ∀ v ∈ numbers args, 0 ≤ v.toInt := by
  intro v hv
  obtain ⟨s, hs, rfl⟩ := List.mem_map.mp hv
  exact Int.not_lt.mp (of_decide_eq_true (List.mem_filter.mp hs).2)

theorem map_words (as : List (Word × List Byte)) :
    (as.filter fun a => Negative a.2).map Prod.snd = words (as.map Prod.snd) := by
  rw [words, List.filter_map]
  rfl

end IntroSystems.Lists.Trunc
