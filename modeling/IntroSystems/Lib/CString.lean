import IntroSystems.Lib.Comparison

/-!
# Text in C

Bytes, the numbers that text spells, and the functions of the C library that read and write them.

* `digit`, `numeral`: what a digit and a row of digits are worth.
* `strtol`, **`strtol_digits`**: the number a text begins with, in a base.
* `integer`: the number that a text spells from end to end; **`strtol_ten`**.
* `hex`: what `%0wx` prints; **`numeral_hex`**: it spells its argument.
* `lines`: what successive calls of `getline` return.
* `Str`, `scan`, `strcmp`: strings, and **`tells_strcmp`**: their order.
-/

set_option autoImplicit false

namespace IntroSystems.CString

open Comparison

/-- A `char`. -/
abbrev Byte := BitVec 8

/-- The byte of an ASCII character. -/
def ch (c : Char) : Byte := BitVec.ofNat 8 c.toNat

/-- The bytes of an ASCII string. -/
def chars (s : String) : List Byte := s.toList.map ch

/-- `isspace`, in the C locale. -/
def isspace (c : Byte) : Bool := c = ch ' ' || (9 ≤ c.toNat && c.toNat ≤ 13)

/-- What the byte `c` is worth as a digit, and 36 if it is none. -/
def digit (c : Byte) : ℕ :=
  if 48 ≤ c.toNat ∧ c.toNat ≤ 57 then c.toNat - 48
  else if 65 ≤ c.toNat ∧ c.toNat ≤ 90 then c.toNat - 55
  else if 97 ≤ c.toNat ∧ c.toNat ≤ 122 then c.toNat - 87
  else 36

/-- The number that a row of digits spells in base `b`. -/
def numeral (b : ℕ) (s : List Byte) : ℕ := s.foldl (fun v c => b * v + digit c) 0

/-- A row of digits in base `b`. -/
def Digits (b : ℕ) (s : List Byte) : Prop := ∀ c ∈ s, digit c < b

instance (b : ℕ) (s : List Byte) : Decidable (Digits b s) := List.decidableBAll _ _

/-- Whether a text goes on with a digit. -/
def startsDigit (b : ℕ) (s : List Byte) : Bool := s.head?.any fun c => digit c < b

/-- The sign in front of a number, and what follows it. -/
def sign : List Byte → Bool × List Byte
  | c :: s => if c = ch '-' then (true, s) else if c = ch '+' then (false, s) else (false, c :: s)
  | [] => (false, [])

/-- The text after a `0x` that a hexadecimal digit follows. -/
def hexPrefix : List Byte → Option (List Byte)
  | z :: x :: s => if z = ch '0' ∧ (x = ch 'x' ∨ x = ch 'X') ∧ startsDigit 16 s then some s else none
  | _ => none

/-- The base that `strtol` reads in, and the text it reads from. -/
def base (b : ℕ) (s : List Byte) : ℕ × List Byte :=
  if b = 16 ∨ b = 0 then
    match hexPrefix s with
    | some t => (16, t)
    | none => (if b = 16 then 16 else if s.head? = some (ch '0') then 8 else 10, s)
  else (b, s)

/-- A `long` has 64 bits; `strtol` stops at its bounds. -/
def clamp (v : ℤ) : ℤ := max (-2 ^ 63) (min v (2 ^ 63 - 1))

/-- `strtol (s, &end, b)`: the number, and the text at `end`. -/
def strtol (b : ℕ) (s : List Byte) : ℤ × List Byte :=
  let (neg, t) := sign (s.dropWhile isspace)
  let (b, t) := base b t
  let ds := t.takeWhile fun c => digit c < b
  if ds = [] then (0, s)
  else (clamp (if neg then -numeral b ds else numeral b ds), t.drop ds.length)

/-- The number that a text spells: blanks, a sign, and decimal digits to the end. -/
def integer (s : List Byte) : Option ℤ :=
  let (neg, t) := sign (s.dropWhile isspace)
  if t ≠ [] ∧ Digits 10 t then some (if neg then -numeral 10 t else numeral 10 t) else none

/-- The digit that is worth `d`, in lower case. -/
def hexDigit (d : ℕ) : Byte := BitVec.ofNat 8 (if d < 10 then 48 + d else 87 + d)

/-- What `%0wx` prints for a `v` below `16 ^ w`. -/
def hex : ℕ → ℕ → List Byte
  | 0, _ => []
  | w + 1, v => hex w (v / 16) ++ [hexDigit (v % 16)]

/-- What successive calls of `getline` return. -/
def lines : List Byte → List (List Byte)
  | [] => []
  | c :: s =>
    if c = ch '\n' then [c] :: lines s
    else
      match lines s with
      | [] => [[c]]
      | l :: ls => (c :: l) :: ls

/-- A string: the bytes before its zero. -/
structure Str where
  bytes : List Byte
  zero_notMem : 0 ∉ bytes
  deriving DecidableEq

/-- The string at the front of some bytes, unless no zero ends it. -/
def scan : List Byte → Option (List Byte)
  | [] => none
  | c :: s => if c = 0 then some [] else (scan s).map (c :: ·)

/-- `strcmp`: the difference of the first two bytes that differ. -/
def strcmp : List Byte → List Byte → ℤ
  | [], [] => 0
  | [], d :: _ => -d.toNat
  | c :: _, [] => c.toNat
  | c :: s, d :: t => if c = d then strcmp s t else c.toNat - d.toNat

/-- The bytes of a string as numbers; strings are ordered like these lists. -/
def Str.key (s : Str) : List ℕ := s.bytes.map BitVec.toNat

/-! ### Digits -/

theorem ch_toNat (c : Char) (h : c.toNat < 256) : (ch c).toNat = c.toNat := by
  rw [ch, BitVec.toNat_ofNat, Nat.mod_eq_of_lt h]

theorem digit_lt_sixteen {c : Byte} (h : digit c < 16) :
    48 ≤ c.toNat ∧ c.toNat ≤ 57 ∨ 65 ≤ c.toNat ∧ c.toNat ≤ 70 ∨ 97 ≤ c.toNat ∧ c.toNat ≤ 102 := by
  unfold digit at h
  split at h
  · omega
  · split at h
    · omega
    · split at h <;> omega

theorem ne_of_digit {c : Byte} (h : digit c < 16) {d : Char} (hd : d.toNat < 48 ∨ d.toNat = 58 ∨
    d.toNat = 88 ∨ d.toNat = 120) : c ≠ ch d := by
  rintro rfl
  have h256 : d.toNat < 256 := by omega
  have := digit_lt_sixteen h
  rw [ch_toNat d h256] at this
  omega

theorem isspace_of_digit {c : Byte} (h : digit c < 16) : isspace c = false := by
  have := digit_lt_sixteen h
  simp [isspace, ne_of_digit h (d := ' ') (by decide)]
  omega

theorem numeral_append (b : ℕ) (s : List Byte) (c : Byte) :
    numeral b (s ++ [c]) = b * numeral b s + digit c := by
  simp [numeral]

theorem digit_hexDigit {d : ℕ} (h : d < 16) : digit (hexDigit d) = d := by
  have key : ∀ d : Fin 16, digit (hexDigit d) = d := by decide
  exact key ⟨d, h⟩

theorem digits_hex (w v : ℕ) : Digits 16 (hex w v) := by
  induction w generalizing v with
  | zero => exact fun _ h => absurd h List.not_mem_nil
  | succ w ih =>
    intro c hc
    rcases List.mem_append.mp hc with hc | hc
    · exact ih _ c hc
    · have hlt : v % 16 < 16 := Nat.mod_lt _ (by decide)
      rw [List.mem_singleton.mp hc, digit_hexDigit hlt]
      exact hlt

@[simp] theorem length_hex (w v : ℕ) : (hex w v).length = w := by
  induction w generalizing v with
  | zero => rfl
  | succ w ih => rw [hex, List.length_append, ih, List.length_singleton]

/-- **The digits of a number spell it.** -/
theorem numeral_hex {w v : ℕ} (h : v < 16 ^ w) : numeral 16 (hex w v) = v := by
  induction w generalizing v with
  | zero =>
    have : v = 0 := by simpa using h
    rw [this]
    rfl
  | succ w ih =>
    have hdiv : v / 16 < 16 ^ w := by
      rw [Nat.pow_succ] at h
      omega
    rw [hex, numeral_append, ih hdiv, digit_hexDigit (Nat.mod_lt _ (by decide)), Nat.div_add_mod]

/-! ### Reading a number -/

theorem takeWhile_digits {b : ℕ} {ds rest : List Byte} (hds : Digits b ds)
    (hrest : startsDigit b rest = false) :
    (ds ++ rest).takeWhile (fun c => decide (digit c < b)) = ds := by
  induction ds with
  | nil =>
    cases rest with
    | nil => rfl
    | cons c rest =>
      rw [List.nil_append, List.takeWhile_cons, if_neg]
      simpa [startsDigit] using hrest
  | cons c ds ih =>
    rw [List.cons_append, List.takeWhile_cons,
      if_pos (decide_eq_true (hds c List.mem_cons_self)),
      ih fun d hd => hds d (List.mem_cons_of_mem c hd)]

/-- **What `strtol` reads**: after blanks, a sign and a prefix, all digits up to the first byte that
is none. -/
theorem strtol_digits {b b' : ℕ} {neg : Bool} {s t ds rest : List Byte}
    (hsign : sign (s.dropWhile isspace) = (neg, t)) (hbase : base b t = (b', ds ++ rest))
    (hne : ds ≠ []) (hds : Digits b' ds) (hrest : startsDigit b' rest = false) :
    strtol b s = (clamp (if neg then -numeral b' ds else numeral b' ds), rest) := by
  simp only [strtol, hsign, hbase, takeWhile_digits hds hrest, if_neg hne, List.drop_left]

theorem sign_of_digit {c : Byte} {s : List Byte} (h : digit c < 16) :
    sign (c :: s) = (false, c :: s) := by
  rw [sign, if_neg (ne_of_digit h (by decide)), if_neg (ne_of_digit h (by decide))]

theorem base_sixteen_digits {ds : List Byte} (hds : Digits 16 ds) : base 16 ds = (16, ds) := by
  have hnone : hexPrefix ds = none := by
    rcases ds with _ | ⟨z, _ | ⟨x, ds⟩⟩
    · rfl
    · rfl
    · have hx := hds x (List.mem_cons_of_mem z List.mem_cons_self)
      rw [hexPrefix, if_neg]
      rintro ⟨-, h | h, -⟩
      · exact ne_of_digit hx (by decide) h
      · exact ne_of_digit hx (by decide) h
  simp [base, hnone]

theorem base_sixteen_marked {x : Byte} {ds : List Byte} (hx : x = ch 'x' ∨ x = ch 'X')
    (hne : ds ≠ []) (hds : Digits 16 ds) : base 16 (ch '0' :: x :: ds) = (16, ds) := by
  have hstart : startsDigit 16 ds = true := by
    cases ds with
    | nil => exact absurd rfl hne
    | cons c ds => simpa [startsDigit] using hds c List.mem_cons_self
  have hsome : hexPrefix (ch '0' :: x :: ds) = some ds := if_pos ⟨rfl, hx, hstart⟩
  simp [base, hsome]

theorem clamp_of_lt {v : ℕ} (h : v < 2 ^ 63) : clamp v = v := by
  simp only [clamp]
  omega

theorem strtol_sixteen {ds : List Byte} (hne : ds ≠ []) (hds : Digits 16 ds)
    (hlt : numeral 16 ds < 2 ^ 63) : strtol 16 ds = ((numeral 16 ds : ℤ), []) := by
  have hsign : sign (ds.dropWhile isspace) = (false, ds) := by
    cases ds with
    | nil => exact absurd rfl hne
    | cons c ds =>
      have hc := hds c List.mem_cons_self
      rw [List.dropWhile_cons, isspace_of_digit hc]
      exact sign_of_digit hc
  rw [strtol_digits hsign ((base_sixteen_digits hds).trans (by rw [List.append_nil])) hne hds rfl,
    if_neg (by decide), clamp_of_lt hlt]

theorem strtol_sixteen_marked {x : Byte} {ds : List Byte} (hx : x = ch 'x' ∨ x = ch 'X')
    (hne : ds ≠ []) (hds : Digits 16 ds) (hlt : numeral 16 ds < 2 ^ 63) :
    strtol 16 (ch '0' :: x :: ds) = ((numeral 16 ds : ℤ), []) := by
  have hsign : sign ((ch '0' :: x :: ds).dropWhile isspace) = (false, ch '0' :: x :: ds) := by
    rw [List.dropWhile_cons, isspace_of_digit (by decide)]
    exact sign_of_digit (by decide)
  rw [strtol_digits hsign ((base_sixteen_marked hx hne hds).trans (by rw [List.append_nil])) hne
    hds rfl, if_neg (by decide), clamp_of_lt hlt]

theorem takeWhile_eq_self {b : ℕ} {t : List Byte} :
    t.takeWhile (fun c => decide (digit c < b)) = t ↔ Digits b t := by
  rw [List.takeWhile_eq_self_iff]
  exact forall₂_congr fun c _ => decide_eq_true_iff

theorem sign_length_le (s : List Byte) : (sign s).2.length ≤ s.length := by
  cases s with
  | nil => exact le_refl _
  | cons c s =>
    rw [sign]
    split
    · exact Nat.le_succ _
    · split
      · exact Nat.le_succ _
      · exact le_refl _

/-- **When `strtol` reads all of a text**, and what it reads. -/
theorem strtol_ten (s : List Byte) :
    (s ≠ [] ∧ (strtol 10 s).2 = [] ↔ (integer s).isSome) ∧
      ∀ v, integer s = some v → (strtol 10 s).1 = clamp v := by
  rcases hs : sign (s.dropWhile isspace) with ⟨neg, t⟩
  have hlen : t.length ≤ s.length := by
    have h := sign_length_le (s.dropWhile isspace)
    rw [hs] at h
    exact h.trans (s.dropWhile_sublist _).length_le
  have hbase : base 10 t = (10, t) := rfl
  by_cases ht : t ≠ [] ∧ Digits 10 t
  · have hne : s ≠ [] := fun h => ht.1 (List.eq_nil_of_length_eq_zero (by simpa [h] using hlen))
    have hall := takeWhile_eq_self.mpr ht.2
    simp only [strtol, integer, hs, hbase, hall, if_neg ht.1, if_pos ht, List.drop_length,
      Option.isSome_some, Option.some.injEq]
    exact ⟨iff_of_true ⟨hne, trivial⟩ trivial, fun v hv => by rw [hv]⟩
  · simp only [strtol, integer, hs, hbase, if_neg ht, Option.isSome_none, reduceCtorEq,
      false_imp_iff, implies_true, and_true, Bool.false_eq_true, iff_false]
    rintro ⟨hne, hrest⟩
    by_cases hnil : t.takeWhile (fun c => decide (digit c < 10)) = []
    · rw [if_pos hnil] at hrest
      exact hne hrest
    · rw [if_neg hnil, List.drop_eq_nil_iff] at hrest
      have hsub : t.takeWhile (fun c => decide (digit c < 10)) <+: t := List.takeWhile_prefix _
      have hall := hsub.eq_of_length (le_antisymm hsub.length_le hrest)
      exact ht ⟨fun h => hnil (by rw [h]; rfl), takeWhile_eq_self.mp hall⟩

/-! ### Lines -/

theorem lines_append {l : List Byte} (hl : ch '\n' ∉ l) (s : List Byte) :
    lines (l ++ ch '\n' :: s) = (l ++ [ch '\n']) :: lines s := by
  induction l with
  | nil => simp [lines]
  | cons c l ih =>
    rw [List.mem_cons, not_or] at hl
    rw [List.cons_append, lines, if_neg (Ne.symm hl.1), ih hl.2]
    rfl

theorem lines_of_notMem {l : List Byte} (hne : l ≠ []) (hl : ch '\n' ∉ l) : lines l = [l] := by
  induction l with
  | nil => exact absurd rfl hne
  | cons c l ih =>
    rw [List.mem_cons, not_or] at hl
    rw [lines, if_neg (Ne.symm hl.1)]
    cases l with
    | nil => rfl
    | cons d l => rw [ih (List.cons_ne_nil d l) hl.2]

/-! ### Strings -/

theorem scan_append {s : List Byte} (hs : 0 ∈ s) (t : List Byte) : scan (s ++ t) = scan s := by
  induction s with
  | nil => exact absurd hs List.not_mem_nil
  | cons c s ih =>
    rw [List.cons_append, scan, scan]
    split
    · rfl
    · next hc => rw [ih (List.mem_of_ne_of_mem (Ne.symm hc) hs)]

theorem scan_isSome {s : List Byte} (hs : 0 ∈ s) : ∃ t, scan s = some t := by
  induction s with
  | nil => exact absurd hs List.not_mem_nil
  | cons c s ih =>
    rw [scan]
    split
    · exact ⟨[], rfl⟩
    · next hc =>
      obtain ⟨t, ht⟩ := ih (List.mem_of_ne_of_mem (Ne.symm hc) hs)
      exact ⟨c :: t, by rw [ht]; rfl⟩

theorem scan_eq_some {b s : List Byte} : scan b = some s ↔ 0 ∉ s ∧ ∃ t, b = s ++ 0 :: t := by
  induction b generalizing s with
  | nil => simp [scan]
  | cons c b ih =>
    by_cases hc : c = 0
    · rw [scan, if_pos hc, hc]
      cases s with
      | nil => simp
      | cons d s =>
        simp only [Option.some.injEq, reduceCtorEq, List.mem_cons, not_or, List.cons_append,
          List.cons.injEq, false_iff, not_and, not_exists]
        exact fun hd t ht => absurd ht hd.1
    · rw [scan, if_neg hc]
      cases s with
      | nil => simpa using hc
      | cons d s =>
        simp only [Option.map_eq_some_iff, List.cons.injEq, List.mem_cons, not_or, List.cons_append]
        constructor
        · rintro ⟨u, hu, rfl, rfl⟩
          obtain ⟨hs, t, rfl⟩ := ih.mp hu
          exact ⟨⟨Ne.symm hc, hs⟩, t, rfl, rfl⟩
        · rintro ⟨⟨-, hs⟩, t, rfl, rfl⟩
          exact ⟨s, ih.mpr ⟨hs, t, rfl⟩, rfl, rfl⟩

/-- **A zero cuts a string.** -/
theorem scan_set {b s : List Byte} (h : scan b = some s) {n : ℕ} (hn : n < s.length) :
    scan (b.set n 0) = some (s.take n) := by
  obtain ⟨hs, t, rfl⟩ := scan_eq_some.mp h
  refine scan_eq_some.mpr ⟨fun hmem => hs (List.mem_of_mem_take hmem), s.drop (n + 1) ++ 0 :: t, ?_⟩
  rw [List.set_append_left _ _ hn, List.set_eq_take_append_cons_drop, if_pos hn, List.append_assoc,
    List.cons_append]

theorem length_lt_of_scan {b s : List Byte} (h : scan b = some s) : s.length < b.length := by
  obtain ⟨-, t, rfl⟩ := scan_eq_some.mp h
  rw [List.length_append, List.length_cons]
  omega

@[simp] theorem strcmp_self (s : List Byte) : strcmp s s = 0 := by
  induction s with
  | nil => rfl
  | cons c s ih => rw [strcmp, if_pos rfl, ih]

theorem toNat_pos_of_ne {c : Byte} (hc : 0 ≠ c) : 0 < c.toNat :=
  Nat.pos_of_ne_zero fun h => hc (BitVec.eq_of_toNat_eq h.symm)

/-- **`strcmp` is the lexicographic order**, with bytes as unsigned numbers. -/
theorem tells_strcmp {s t : List Byte} (hs : 0 ∉ s) (ht : 0 ∉ t) :
    Tells (strcmp s t) (s.map BitVec.toNat) (t.map BitVec.toNat) := by
  induction s generalizing t with
  | nil =>
    cases t with
    | nil => exact .of_eq rfl rfl
    | cons d t =>
      have hd := toNat_pos_of_ne (List.ne_of_not_mem_cons ht)
      exact .of_lt (by rw [strcmp]; omega) (List.nil_lt_cons _ _)
  | cons c s ih =>
    cases t with
    | nil =>
      have hc := toNat_pos_of_ne (List.ne_of_not_mem_cons hs)
      exact .of_gt (by rw [strcmp]; omega) (List.nil_lt_cons _ _)
    | cons d t =>
      rw [strcmp, List.map_cons, List.map_cons]
      split
      · next h =>
        obtain ⟨hlt, heq, hgt⟩ := ih (List.not_mem_of_not_mem_cons hs)
          (List.not_mem_of_not_mem_cons ht)
        rw [h]
        simp only [Tells, List.cons_lt_cons_iff, lt_irrefl, false_or, true_and, List.cons.injEq]
        exact ⟨hlt, heq, hgt⟩
      · next h =>
        rcases lt_or_gt_of_ne fun hn => h (BitVec.eq_of_toNat_eq hn) with hlt | hgt
        · exact .of_lt (by omega) (List.cons_lt_cons_iff.mpr (.inl hlt))
        · exact .of_gt (by omega) (List.cons_lt_cons_iff.mpr (.inl hgt))

theorem Str.tells_strcmp (s t : Str) : Tells (strcmp s.bytes t.bytes) s.key t.key :=
  CString.tells_strcmp s.zero_notMem t.zero_notMem

theorem Str.key_injective : Function.Injective Str.key := by
  intro s t h
  cases s
  cases t
  exact (Str.mk.injEq ..).mpr (List.map_injective_iff.mpr (fun _ _ => BitVec.eq_of_toNat_eq) h)

end IntroSystems.CString
