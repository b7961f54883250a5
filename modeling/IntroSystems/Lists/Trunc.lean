import IntroSystems.Lists.Mapping

/-!
# Truncated arguments

`trunc.c` of assignment 8. What stands for `list_map1` is a parameter.

* `parse_int`, `to_null`, `positive`, `is_null`, `truncate`, `max`: the functions for the lists.
* `main`, without the calls of `list_destroy` in the end.
* `parsed`: the number for an argument. `Negative`: whether there is none, or it is below zero.
* **`truncate_spec`**: cuts a string where it is.
-/

set_option autoImplicit false

namespace IntroSystems.Lists.Trunc

open CString

/-! ### The code -/

/-- The string at `(char*) e`. -/
def str (m : Mem) : Word → Option (List Byte)
  | .string p => (m.strings.get p).bind scan
  | _ => none

/-- `(int) e`. That of an address is not known. -/
def toInt : Word → Option (BitVec 32)
  | .null => some 0
  | .int v => some v
  | _ => none

/-- `((char*) e) [i] = c`. -/
def setChar (e : Word) (i : ℤ) (c : Byte) (m : Mem) : Option Mem :=
  match e with
  | .string p => do
    let b ← m.strings.get p
    if 0 ≤ i ∧ i < b.length then do
      let strings ← m.strings.set p (b.set i.toNat c)
      some { m with strings }
    else none
  | _ => none

/-- `*out = e`. -/
def setOut (out : ℕ) (e : Word) (m : Mem) : Option Mem := do
  let cells ← m.cells.set out e
  some { m with cells }

/-- A call of `printf`: with `"%s\n"`, with `"%s"` and then `" "`, with `"\n"`, or with `"%d\n"`. -/
inductive Printed
  | line (e : List Byte)
  | word (e : List Byte)
  | newline
  | number (i : BitVec 32)
  deriving DecidableEq

def print_str (m : Mem) (ev : Word) (printed : List Printed) : Option (List Printed) := do
  let e ← str m ev
  some (printed ++ [.line e])

def print_with_spaces (m : Mem) (ev : Word) (printed : List Printed) : Option (List Printed) := do
  let e ← str m ev
  some (printed ++ [.word e])

def parse_int (out : ℕ) (inp : Word) (m : Mem) : Option Mem := do
  let str ← str m inp
  let (v, endp) := strtol 10 str
  let m ← setOut out (.int (BitVec.ofInt 32 v)) m
  if str = endp then setOut out (.int (-1)) m else some m

def to_null (out : ℕ) (str_in int_in : Word) (m : Mem) : Option Mem := do
  let intin ← toInt int_in
  if 0 ≤ intin.toInt then setOut out .null m else setOut out str_in m

def positive (int_in : Word) : Option Bool := do
  let intin ← toInt int_in
  some (0 ≤ intin.toInt)

/-- Whether it is not `NULL`. -/
def is_null : Word → Option Bool
  | .null => some false
  | .cell _ | .string _ => some true
  | .int _ => none

/-- `strlen` has 64 bits, and the other side of the comparison is extended to them. -/
def truncate (out : ℕ) (str_in int_in : Word) (m : Mem) : Option Mem := do
  let strin ← str m str_in
  let intin ← toInt int_in
  if strin.length ≤ (intin.signExtend 64).toNat then setOut out str_in m
  else do
    let m ← setChar str_in intin.toInt 0 m
    setOut out str_in m

/-- The state is what is in `*int_out_ptr`. -/
def max (int_out int_in : Word) (_ : Word) : Option Word := do
  let intout ← toInt int_out
  let intin ← toInt int_in
  some (.int (if intout.toInt > intin.toInt then intout else intin))

/-- The first loop of `main`. -/
def arguments (junk : ℕ → Word) (argv : List Word) : ListStruct Word → Option (ListStruct Word) :=
  Loop.up (fun i arg_list => do
    let e ← argv[(i + 1).toNat]?
    list_append junk e arg_list) 0 ((argv.length : ℤ) - 1).toNat

/-- What `main` has in the end. -/
structure Final where
  l2 : ListStruct Word
  l3 : ListStruct Word
  l4 : ListStruct Word
  mem : Mem
  printed : List Printed

/-- `map1 (f, out_list, in_list)`. -/
abbrev MapFun := (ℕ → Word → Mem → Option Mem) → ListStruct Word → ListStruct Word → Mem →
  Option (Mem × ListStruct Word)

/-- `junk k` is for the array of list `k`, and `cell k` for the blocks that `list_map2` gets for
list `k`. -/
def main (map1 : MapFun) (junk cell : ℕ → ℕ → Word) (argv : List Word) (m : Mem) :
    Option Final := do
  let arg_list ← arguments (junk 5) argv (list_create (junk 5))
  let (m, l0) ← map1 parse_int (list_create (junk 0)) arg_list m
  let s ← list_map2 to_null (junk 1) (cell 1) arg_list l0 ⟨m, list_create (junk 1), []⟩
  let l2 ← list_filter positive (junk 2) l0 (list_create (junk 2))
  let l3 ← list_filter is_null (junk 3) s.out_list (list_create (junk 3))
  let s ← list_map2 truncate (junk 4) (cell 4) l3 l2 ⟨s.mem, list_create (junk 4), []⟩
  let printed ← list_foreach (print_str s.mem) s.out_list []
  let printed ← list_foreach (print_with_spaces s.mem) s.out_list printed
  let i ← list_foldl max some l2 .null
  let i ← toInt i
  some ⟨l2, l3, s.out_list, s.mem, printed ++ [.newline, .number i]⟩

/-- `list_map1` itself. -/
def call_list_map1 (junk cell : ℕ → Word) : MapFun := fun f out_list in_list m => do
  let s ← list_map1 f junk cell in_list ⟨m, out_list, []⟩
  some (s.mem, s.out_list)

/-! ### What the functions do -/

/-- The number for an argument. -/
def parsed (s : List Byte) : BitVec 32 :=
  if s = (strtol 10 s).2 then -1 else BitVec.ofInt 32 (strtol 10 s).1

/-- Whether an argument is not taken for a number. -/
def Negative (s : List Byte) : Prop := (parsed s).toInt < 0

instance : DecidablePred Negative := fun _ => Int.decLt _ _

variable {m m' : Mem} {out p : ℕ} {w x : Word} {s : List Byte} {v : BitVec 32}

theorem str_congr (h : m'.strings = m.strings) (w : Word) : str m' w = str m w := by
  cases w with
  | string p => rw [str, str, h]
  | null | cell p | int v => rfl

theorem string_of_str (h : str m w = some s) :
    ∃ p b, w = .string p ∧ m.strings.get p = some b ∧ scan b = some s := by
  cases w with
  | string p =>
    obtain ⟨b, hb, hs⟩ := Option.bind_eq_some_iff.mp h
    exact ⟨p, b, rfl, hb, hs⟩
  | null | cell p | int v => exact absurd h nofun

theorem setOut_eq (h : m.cells.get out = some w) (e : Word) :
    setOut out e m = some { m with cells := m.cells.put out (some e) } := by
  rw [setOut, Heap.set_eq h, Option.bind_eq_bind, Option.bind_some]

theorem parse_int_spec (hout : m.cells.get out = some w) (hs : str m x = some s) :
    parse_int out x m = some { m with cells := m.cells.put out (some (.int (parsed s))) } := by
  simp only [parse_int, hs, setOut_eq hout, Option.bind_eq_bind, Option.bind_some]
  by_cases hend : s = (strtol 10 s).2
  · have hget : (m.cells.put out (some (.int (BitVec.ofInt 32 (strtol 10 s).1)))).get out =
        some (.int (BitVec.ofInt 32 (strtol 10 s).1)) := Heap.get_put_self hout
    rw [if_pos hend, setOut_eq hget, Heap.put_put, parsed, if_pos hend]
  · rw [if_neg hend, parsed, if_neg hend]

theorem to_null_spec (hout : m.cells.get out = some w) (x : Word) (v : BitVec 32) :
    to_null out x (.int v) m = some { m with
      cells := m.cells.put out (some (if v.toInt < 0 then x else .null)) } := by
  simp only [to_null, toInt, setOut_eq hout, Option.bind_eq_bind, Option.bind_some]
  by_cases hv : v.toInt < 0
  · rw [if_neg (Int.not_le.mpr hv), if_pos hv]
  · rw [if_pos (Int.not_lt.mp hv), if_neg hv]

theorem toNat_signExtend (h : 0 ≤ v.toInt) : (v.signExtend 64).toNat = v.toInt.toNat := by
  have hmsb : v.msb = false := by
    rw [BitVec.msb_eq_toInt, decide_eq_false (Int.not_lt.mpr h)]
  rw [BitVec.signExtend_eq_setWidth_of_msb_false hmsb, BitVec.toNat_setWidth,
    BitVec.toInt_eq_toNat_of_msb hmsb, Int.toNat_natCast, Nat.mod_eq_of_lt]
  have := v.isLt
  omega

/-- **A zero cuts a string where it is.** -/
theorem setChar_spec (hs : str m x = some s) {n : ℕ} (hn : n < s.length) :
    ∃ m', setChar x n 0 m = some m' ∧ m'.cells = m.cells ∧ str m' x = some (s.take n) ∧
      ∀ y ≠ x, str m' y = str m y := by
  obtain ⟨p, b, rfl, hb, hscan⟩ := string_of_str hs
  have hbound : 0 ≤ (n : ℤ) ∧ (n : ℤ) < b.length :=
    ⟨Int.natCast_nonneg n, Int.ofNat_lt.mpr (Nat.lt_trans hn (length_lt_of_scan hscan))⟩
  refine ⟨{ m with strings := m.strings.put p (some (b.set n 0)) }, ?_, rfl, ?_, fun y hy => ?_⟩
  · simp only [setChar, hb, if_pos hbound, Heap.set_eq hb, Int.toNat_natCast, Option.bind_eq_bind,
      Option.bind_some]
  · rw [str, Heap.get_put_self hb, Option.bind_some, scan_set hscan hn]
  · cases y with
    | string q =>
      have hne : q ≠ p := fun h => hy (h ▸ rfl)
      rw [str, str, Heap.get_put_of_ne hne]
    | null | cell q | int v => rfl

/-- **`truncate` cuts its string.** -/
theorem truncate_spec (hout : m.cells.get out = some w) (hs : str m x = some s)
    (hv : 0 ≤ v.toInt) : ∃ m', truncate out x (.int v) m = some m' ∧
      m'.cells = m.cells.put out (some x) ∧ str m' x = some (s.take (min s.length v.toInt.toNat)) ∧
      ∀ y ≠ x, str m' y = str m y := by
  simp only [truncate, hs, toInt, toNat_signExtend hv, Option.bind_eq_bind, Option.bind_some]
  by_cases hle : s.length ≤ v.toInt.toNat
  · refine ⟨{ m with cells := m.cells.put out (some x) }, ?_, rfl, ?_, fun y _ => str_congr rfl y⟩
    · rw [if_pos hle, setOut_eq hout]
    · rw [Nat.min_eq_left hle, List.take_length, ← hs]
      exact str_congr rfl x
  · have hlt : v.toInt.toNat < s.length := Nat.lt_of_not_le hle
    obtain ⟨m₁, hset, hcells, hcut, hother⟩ := setChar_spec hs hlt
    rw [Int.toNat_of_nonneg hv] at hset
    rw [← hcells] at hout
    refine ⟨{ m₁ with cells := m₁.cells.put out (some x) }, ?_, by rw [hcells], ?_, fun y hy => ?_⟩
    · rw [if_neg hle, hset, Option.bind_some, setOut_eq hout]
    · rw [Nat.min_eq_right (Nat.le_of_lt hlt), ← hcut]
      exact str_congr rfl x
    · rw [← hother y hy]
      exact str_congr rfl y

end IntroSystems.Lists.Trunc
