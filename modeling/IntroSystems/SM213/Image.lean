import IntroSystems.Lib.CString
import IntroSystems.Lib.Counter
import IntroSystems.SM213.CMachine

/-!
# Machine images

How `sm.c` loads its memory from a file, and how it prints it.

* `loadFile`: the parser. `none` is undefined behaviour: a line without a colon, or an address
  outside `mem`.
* `showMem`: what is printed.
* `Pair`, `Line`, `text`: the texts that are images, and **`loadFile_text`**: what they load.
* **`loadFile_showMem`**: what is printed loads what was there.
-/

set_option autoImplicit false

namespace IntroSystems.SM213

open CString

variable {n : ℕ} {W : Type}

/-! ### The code -/

/-- The part of a line before the first `c`, and the part after it. -/
def cut (c : Byte) : List Byte → Option (List Byte × List Byte)
  | [] => none
  | d :: s => if d = c then some ([], s) else (cut c s).map fun r => (d :: r.1, r.2)

/-- The loop `while (1)` of `loadFile`, with `line` at a byte of a text whose end is its zero. -/
def storePairs (mem : Memory n) (addr : BitVec 32) : List Byte → Option (Memory n)
  | c :: d :: line =>
    if c = ch ' ' then storePairs mem addr (d :: line)
    else if c = 0 ∨ d = 0 then some mem
    else do
      let mem ← mem.set addr (BitVec.ofInt 8 (strtol 16 [c, d]).1)
      storePairs mem (addr + 1) line
  -- one byte is left, or none: `*line == 0 || *(line+1) == 0`
  | _ => some mem

/-- The body of the loop `while (getline (&line, &len, f) > 0)`. -/
def loadLine (m : Machine n W) (line : List Byte) : Option (Machine n W) := do
  let (head, line) ← cut (ch ':') line
  let addr := BitVec.ofInt 32 (strtol 16 head).1
  let pc := if m.pc.toInt < 0 then addr else m.pc
  let mem ← storePairs m.mem addr line
  some { m with pc, mem }

/-- `loadFile`, given what the file holds, if there is one. -/
def loadFile (file : Option (List Byte)) (m : Machine n W) : Option (Machine n W × Bool) :=
  match file with
  | none => some (m, false)
  | some text => do
    let m ← (lines text).foldlM loadLine m
    some (m, true)

/-- One turn of the loop of `showMem`, for `a = start + i`. -/
def showRow (mem : Memory n) (a : BitVec 32) : Option (List Byte) := do
  let b0 ← mem.get a
  let b1 ← mem.get (a + 1)
  let b2 ← mem.get (a + 2)
  let b3 ← mem.get (a + 3)
  some (ch '0' :: ch 'x' :: hex 8 a.toNat ++ ch ':' :: ch ' ' :: hex 2 b0.toNat ++
    ch ' ' :: hex 2 b1.toNat ++ ch ' ' :: hex 2 b2.toNat ++ ch ' ' :: hex 2 b3.toNat ++
    [ch '\n'])

/-- The loop of `showMem`, with `count` turns to go. -/
def showRows (mem : Memory n) (a : BitVec 32) : ℕ → Option (List Byte)
  | 0 => some []
  | count + 1 => do
    let row ← showRow mem a
    let rows ← showRows mem (a + 4) count
    some (row ++ rows)

/-- What `showMem` prints. The product `count*4` is an `int`. -/
def showMem (m : Machine n W) (start count : BitVec 32) : Option (List Byte) :=
  if 4 * count.toInt < -2 ^ 31 ∨ 2 ^ 31 ≤ 4 * count.toInt then none
  else showRows m.mem start count.toInt.toNat

/-! ### The images -/

/-- The two digits of a byte, behind some spaces. -/
structure Pair where
  spaces : ℕ
  hi : Byte
  lo : Byte
  hi_lt : digit hi < 16
  lo_lt : digit lo < 16

def Pair.text (p : Pair) : List Byte := List.replicate p.spaces (ch ' ') ++ [p.hi, p.lo]

def Pair.byte (p : Pair) : Byte := BitVec.ofNat 8 (16 * digit p.hi + digit p.lo)

/-- An address, with or without `0x`, and the bytes from there on. -/
structure Line where
  lead : List Byte
  digits : List Byte
  pairs : List Pair
  lead_mem : lead ∈ [[], [ch '0', ch 'x'], [ch '0', ch 'X']]
  digits_ne : digits ≠ []
  digits_hex : Digits 16 digits

namespace Line

def text (l : Line) : List Byte := l.lead ++ l.digits ++ ch ':' :: l.pairs.flatMap Pair.text

def address (l : Line) : ℕ := numeral 16 l.digits

def bytes (l : Line) : List Byte := l.pairs.map Pair.byte

/-- The address of each byte is in a memory of size `n`. -/
def Inside (n : ℕ) (l : Line) : Prop := ∀ k < l.pairs.length, l.address + k < n

end Line

/-- The text made of some lines. The last newline is optional. -/
def text (newline : Bool) : List Line → List Byte
  | [] => []
  | [l] => l.text ++ if newline then [ch '\n'] else []
  | l :: l' :: ls => l.text ++ ch '\n' :: text newline (l' :: ls)

/-- The memory with `bs` at `a`, `a + 1` and so on. -/
def Memory.overwrite (mem : Memory n) (a : ℕ) (bs : List Byte) : Memory n := fun i =>
  if a ≤ i then bs[i - a]?.getD (mem i) else mem i

/-- What the lines leave in memory: each overwrites what the ones before it have written. -/
def written (mem : Memory n) (ls : List Line) : Memory n :=
  ls.foldl (fun mem l => mem.overwrite l.address l.bytes) mem

/-- The program counter after loading: the address of the first line, if it was negative. -/
def entry (pc : BitVec 32) (ls : List Line) : BitVec 32 :=
  if pc.toInt < 0 then (ls.head?.map fun l => BitVec.ofNat 32 l.address).getD pc else pc

/-! ### Reading a line -/

theorem Pair.strtol_eq (p : Pair) :
    BitVec.ofInt 8 (strtol 16 [p.hi, p.lo]).1 = p.byte := by
  have hds : Digits 16 [p.hi, p.lo] := by
    intro c hc
    rcases List.mem_cons.mp hc with rfl | hc
    · exact p.hi_lt
    · rw [List.mem_singleton.mp hc]
      exact p.lo_lt
  have hval : numeral 16 [p.hi, p.lo] = 16 * digit p.hi + digit p.lo := by simp [numeral]
  have hhi := p.hi_lt
  have hlo := p.lo_lt
  rw [strtol_sixteen (by simp) hds (by omega), hval]
  exact BitVec.ofInt_natCast ..

theorem storePairs_space (mem : Memory n) (addr : BitVec 32) (s : List Byte) :
    storePairs mem addr (ch ' ' :: s) = storePairs mem addr s := by
  cases s with
  | nil => rfl
  | cons c s => rw [storePairs, if_pos rfl]

theorem storePairs_spaces (mem : Memory n) (addr : BitVec 32) (k : ℕ) (s : List Byte) :
    storePairs mem addr (List.replicate k (ch ' ') ++ s) = storePairs mem addr s := by
  induction k with
  | zero => rfl
  | succ k ih => rw [List.replicate_succ, List.cons_append, storePairs_space, ih]

theorem storePairs_pair (mem : Memory n) (addr : BitVec 32) (p : Pair) (s : List Byte) :
    storePairs mem addr (p.text ++ s) =
      (mem.set addr p.byte).bind fun mem => storePairs mem (addr + 1) s := by
  have hspace : p.hi ≠ ch ' ' := ne_of_digit p.hi_lt (by decide)
  have hend : ¬(p.hi = 0 ∨ p.lo = 0) := by
    rintro (h | h)
    · exact ne_of_digit p.hi_lt (d := '\x00') (by decide) h
    · exact ne_of_digit p.lo_lt (d := '\x00') (by decide) h
  rw [Pair.text, List.append_assoc, storePairs_spaces]
  simp only [List.cons_append, List.nil_append, storePairs, if_neg hspace, if_neg hend,
    p.strtol_eq]
  rfl

theorem storePairs_end (mem : Memory n) (addr : BitVec 32) {s : List Byte} (hs : s.length ≤ 1) :
    storePairs mem addr s = some mem := by
  rcases s with _ | ⟨c, _ | ⟨d, s⟩⟩
  · rfl
  · rfl
  · simp at hs

theorem storePairs_pairs (mem : Memory n) (addr : BitVec 32) (ps : List Pair) {s : List Byte}
    (hs : s.length ≤ 1) :
    storePairs mem addr (ps.flatMap Pair.text ++ s) = mem.setBytes addr (ps.map Pair.byte) := by
  induction ps generalizing mem addr with
  | nil => exact storePairs_end mem addr hs
  | cons p ps ih =>
    rw [List.flatMap_cons, List.append_assoc, storePairs_pair, List.map_cons, Memory.setBytes]
    simp only [ih]
    rfl

/-! ### Storing a line -/

theorem Memory.overwrite_nil (mem : Memory n) (a : ℕ) : mem.overwrite a [] = mem := by
  funext i
  simp [Memory.overwrite]

theorem Memory.overwrite_cons (mem : Memory n) {a : ℕ} (ha : a < n) (b : Byte) (bs : List Byte) :
    mem.overwrite a (b :: bs) =
      Memory.overwrite (Function.update mem ⟨a, ha⟩ b) (a + 1) bs := by
  funext i
  rcases Nat.lt_trichotomy i a with h | h | h
  · have hne : i ≠ ⟨a, ha⟩ := fun hi => by rw [hi] at h; exact absurd h (lt_irrefl a)
    rw [Memory.overwrite, Memory.overwrite, if_neg (by omega), if_neg (by omega),
      Function.update_of_ne hne]
  · obtain rfl : i = ⟨a, ha⟩ := Fin.ext h
    rw [Memory.overwrite, Memory.overwrite, if_pos (le_refl _), if_neg (by simp),
      Function.update_self]
    simp
  · have hne : i ≠ ⟨a, ha⟩ := fun hi => by rw [hi] at h; exact absurd h (lt_irrefl a)
    rw [Memory.overwrite, Memory.overwrite, if_pos h.le, if_pos (by omega),
      Function.update_of_ne hne, show (i : ℕ) - a = i - (a + 1) + 1 by omega,
      List.getElem?_cons_succ]

/-- **Consecutive stores** overwrite. -/
theorem Memory.setBytes_eq (hn : n ≤ 2 ^ 31) (mem : Memory n) (a : ℕ) (bs : List Byte)
    (ha : ∀ k < bs.length, a + k < n) :
    mem.setBytes (BitVec.ofNat 32 a) bs = some (mem.overwrite a bs) := by
  induction bs generalizing mem a with
  | nil => rw [Memory.overwrite_nil, Memory.setBytes]
  | cons b bs ih =>
    have hlt : a < n := ha 0 (Nat.succ_pos _)
    have hint : (BitVec.ofNat 32 a).toInt = a := Counter.toInt_ofNat (by omega)
    have hsucc : BitVec.ofNat 32 a + 1 = BitVec.ofNat 32 (a + 1) := (BitVec.ofNat_add a 1).symm
    have hset : mem.set (BitVec.ofNat 32 a) b = some (Function.update mem ⟨a, hlt⟩ b) := by
      rw [Memory.set, dif_pos (by omega)]
      congr 2
      exact Fin.ext (by simp [hint])
    rw [Memory.overwrite_cons mem hlt, Memory.setBytes, hset, Option.bind_eq_bind,
      Option.bind_some, hsucc]
    exact ih _ _ fun k hk => by have := ha (k + 1) (Nat.succ_lt_succ hk); omega

/-! ### Loading an image -/

theorem cut_append {c : Byte} {s : List Byte} (hs : c ∉ s) (t : List Byte) :
    cut c (s ++ c :: t) = some (s, t) := by
  induction s with
  | nil => exact if_pos rfl
  | cons d s ih =>
    rw [List.mem_cons, not_or] at hs
    rw [List.cons_append, cut, if_neg (Ne.symm hs.1), ih hs.2]
    rfl

namespace Line

variable (l : Line)

theorem lead_cases : l.lead = [] ∨ ∃ x, (x = ch 'x' ∨ x = ch 'X') ∧ l.lead = [ch '0', x] := by
  have h := l.lead_mem
  simp only [List.mem_cons, List.not_mem_nil, or_false] at h
  rcases h with h | h | h
  · exact .inl h
  · exact .inr ⟨_, .inl rfl, h⟩
  · exact .inr ⟨_, .inr rfl, h⟩

theorem notMem_head {d : Char} (hd : d = '\n' ∨ d = ':') : ch d ∉ l.lead ++ l.digits := by
  have hlead : ∀ s ∈ [[], [ch '0', ch 'x'], [ch '0', ch 'X']], ch d ∉ s := by
    rcases hd with rfl | rfl <;> decide
  intro h
  rcases List.mem_append.mp h with h | h
  · exact hlead _ l.lead_mem h
  · exact ne_of_digit (l.digits_hex _ h) (d := d) (by rcases hd with rfl | rfl <;> decide) rfl

theorem strtol_eq (h : l.address < 2 ^ 31) : (strtol 16 (l.lead ++ l.digits)).1 = l.address := by
  have hlt : numeral 16 l.digits < 2 ^ 63 := lt_trans h (by decide)
  rcases l.lead_cases with hl | ⟨x, hx, hl⟩
  · rw [hl, List.nil_append, strtol_sixteen l.digits_ne l.digits_hex hlt]
    rfl
  · rw [hl, List.cons_append, List.cons_append, List.nil_append,
      strtol_sixteen_marked hx l.digits_ne l.digits_hex hlt]
    rfl

theorem newline_notMem : ch '\n' ∉ l.text := by
  intro h
  rcases List.mem_append.mp h with h | h
  · exact l.notMem_head (.inl rfl) h
  rcases List.mem_cons.mp h with h | h
  · exact absurd h (by decide)
  obtain ⟨p, -, hp⟩ := List.mem_flatMap.mp h
  rcases List.mem_append.mp hp with hp | hp
  · exact absurd (List.eq_of_mem_replicate hp) (by decide)
  rcases List.mem_cons.mp hp with hp | hp
  · exact ne_of_digit p.hi_lt (d := '\n') (by decide) hp.symm
  · exact ne_of_digit p.lo_lt (d := '\n') (by decide) (List.mem_singleton.mp hp).symm

/-- The address as `loadFile` reads it, into an `int`. -/
def start : BitVec 32 := BitVec.ofInt 32 (strtol 16 (l.lead ++ l.digits)).1

theorem start_eq (h : l.address < 2 ^ 31) : l.start = BitVec.ofNat 32 l.address := by
  rw [start, l.strtol_eq h]
  exact BitVec.ofInt_natCast ..

/-- What a line does to the machine. -/
def load (m : Machine n W) (l : Line) : Machine n W :=
  { m with
    mem := m.mem.overwrite l.address l.bytes
    pc := if m.pc.toInt < 0 then l.start else m.pc }

variable {l}

/-- A line without bytes stores nothing, whatever its address is. -/
theorem setBytes_start (hn : n ≤ 2 ^ 31) (h : l.Inside n) (mem : Memory n) :
    mem.setBytes l.start l.bytes = some (mem.overwrite l.address l.bytes) := by
  by_cases hnil : l.pairs = []
  · have hbytes : l.bytes = [] := by rw [bytes, hnil, List.map_nil]
    rw [hbytes, Memory.overwrite_nil, Memory.setBytes]
  · have hlt : l.address < n := h 0 (List.length_pos_of_ne_nil hnil)
    rw [l.start_eq (by omega)]
    exact Memory.setBytes_eq hn _ _ _ fun k hk => h k (by rwa [bytes, List.length_map] at hk)

/-- **A line is loaded.** -/
theorem loadLine_text (hn : n ≤ 2 ^ 31) (h : l.Inside n) (m : Machine n W) {s : List Byte}
    (hs : s.length ≤ 1) : loadLine m (l.text ++ s) = some (l.load m) := by
  have hcut : cut (ch ':') (l.text ++ s) =
      some (l.lead ++ l.digits, l.pairs.flatMap Pair.text ++ s) := by
    rw [text, List.append_assoc]
    exact cut_append (l.notMem_head (.inr rfl)) _
  have haddr : BitVec.ofInt 32 (strtol 16 (l.lead ++ l.digits)).1 = l.start := rfl
  have hmem : m.mem.setBytes l.start (l.pairs.map Pair.byte) =
      some (m.mem.overwrite l.address l.bytes) := setBytes_start hn h m.mem
  simp only [loadLine, hcut, haddr, Option.bind_eq_bind, Option.bind_some,
    storePairs_pairs _ _ _ hs, hmem]
  rfl

end Line

theorem foldl_load (ls : List Line) (m : Machine n W) :
    ∃ pc, ls.foldl Line.load m = { m with mem := written m.mem ls, pc } := by
  induction ls generalizing m with
  | nil => exact ⟨m.pc, rfl⟩
  | cons l ls ih => exact ih (l.load m)

theorem pc_foldl_load (ls : List Line) {m : Machine n W} (h : 0 ≤ m.pc.toInt) :
    (ls.foldl Line.load m).pc = m.pc := by
  induction ls generalizing m with
  | nil => rfl
  | cons l ls ih =>
    have hpc : (l.load m).pc = m.pc := if_neg (by omega)
    rw [List.foldl_cons, ih (by rwa [hpc]), hpc]

/-- **Only the first line counts**, if its address is an `int`. -/
theorem pc_foldl_load_eq (ls : List Line) (m : Machine n W)
    (h : 0 ≤ m.pc.toInt ∨ ∀ l ∈ ls.head?, l.address < 2 ^ 31) :
    (ls.foldl Line.load m).pc = entry m.pc ls := by
  by_cases hpc : m.pc.toInt < 0
  · cases ls with
    | nil => simp [entry]
    | cons l ls =>
      have hlt : l.address < 2 ^ 31 := h.resolve_left (by omega) l rfl
      have hl : (l.load m).pc = BitVec.ofNat 32 l.address := by
        rw [← l.start_eq hlt]
        exact if_pos hpc
      have hint : 0 ≤ (l.load m).pc.toInt := by
        rw [hl, Counter.toInt_ofNat hlt]
        omega
      rw [List.foldl_cons, pc_foldl_load ls hint, hl, entry, if_pos hpc]
      rfl
  · rw [pc_foldl_load ls (by omega), entry, if_neg hpc]

/-- **The lines of an image are loaded one by one.** -/
theorem foldlM_text (hn : n ≤ 2 ^ 31) (newline : Bool) {ls : List Line}
    (h : ∀ l ∈ ls, l.Inside n) (m : Machine n W) :
    (lines (text newline ls)).foldlM loadLine m = some (ls.foldl Line.load m) := by
  induction ls generalizing m with
  | nil => rfl
  | cons l ls ih =>
    have hl := h l List.mem_cons_self
    cases ls with
    | nil =>
      cases newline with
      | false =>
        have hne : l.text ≠ [] := by simp [Line.text]
        have hload := Line.loadLine_text hn hl m (s := []) (Nat.zero_le _)
        rw [List.append_nil] at hload
        rw [text, if_neg Bool.false_ne_true, List.append_nil, lines_of_notMem hne l.newline_notMem,
          List.foldlM_cons, hload]
        rfl
      | true =>
        rw [text, if_pos rfl, lines_append l.newline_notMem, List.foldlM_cons,
          Line.loadLine_text hn hl m (le_refl _)]
        rfl
    | cons l' ls =>
      rw [text, lines_append l.newline_notMem, List.foldlM_cons,
        Line.loadLine_text hn hl m (le_refl _)]
      exact ih (fun k hk => h k (List.mem_cons_of_mem l hk)) (l.load m)

theorem loadFile_text (hn : n ≤ 2 ^ 31) (newline : Bool) {ls : List Line}
    (h : ∀ l ∈ ls, l.Inside n) (m : Machine n W) :
    ∃ pc, loadFile (some (text newline ls)) m =
        some ({ m with mem := written m.mem ls, pc }, true) ∧
      (0 ≤ m.pc.toInt ∨ (∀ l ∈ ls.head?, l.address < 2 ^ 31) → pc = entry m.pc ls) := by
  obtain ⟨pc, hfold⟩ := foldl_load ls m
  refine ⟨pc, ?_, fun hpc => ?_⟩
  · simp only [loadFile, foldlM_text hn newline h, Option.bind_eq_bind, Option.bind_some, hfold]
  · rw [← pc_foldl_load_eq ls m hpc, hfold]

/-! ### The dump -/

/-- A byte as `showMem` prints it. -/
def Pair.ofByte (b : Byte) : Pair where
  spaces := 1
  hi := hexDigit (b.toNat / 16)
  lo := hexDigit (b.toNat % 16)
  hi_lt := by rw [digit_hexDigit (by omega)]; omega
  lo_lt := by rw [digit_hexDigit (by omega)]; omega

theorem Pair.byte_ofByte (b : Byte) : (Pair.ofByte b).byte = b := by
  have hhi : digit (hexDigit (b.toNat / 16)) = b.toNat / 16 := digit_hexDigit (by omega)
  have hlo : digit (hexDigit (b.toNat % 16)) = b.toNat % 16 := digit_hexDigit (by omega)
  simp only [Pair.byte, Pair.ofByte, hhi, hlo, Nat.div_add_mod, BitVec.ofNat_toNat,
    BitVec.setWidth_eq]

theorem Pair.text_ofByte (b : Byte) : (Pair.ofByte b).text = ch ' ' :: hex 2 b.toNat := by
  have hmod : b.toNat / 16 % 16 = b.toNat / 16 := Nat.mod_eq_of_lt (by omega)
  simp [Pair.text, Pair.ofByte, hex, hmod]

/-- The line that `showMem` prints for the word at `a`. -/
def rowLine (mem : Memory n) (a : ℕ) (ha : a + 4 ≤ n) : Line where
  lead := [ch '0', ch 'x']
  digits := hex 8 a
  pairs := List.ofFn fun k : Fin 4 => Pair.ofByte (mem ⟨a + k, by omega⟩)
  lead_mem := by decide
  digits_ne := List.ne_nil_of_length_pos (by rw [length_hex]; decide)
  digits_hex := digits_hex 8 a

section Row

variable {mem : Memory n} {a : ℕ} (ha : a + 4 ≤ n)

theorem rowLine_address (hn : n ≤ 2 ^ 31) : (rowLine mem a ha).address = a :=
  numeral_hex (by omega)

theorem rowLine_inside (hn : n ≤ 2 ^ 31) : (rowLine mem a ha).Inside n := by
  intro k hk
  rw [rowLine_address ha hn]
  simp only [rowLine, List.length_ofFn] at hk
  omega

theorem get_ofNat (hn : n ≤ 2 ^ 31) {i : ℕ} (hi : i < n) :
    mem.get (BitVec.ofNat 32 i) = some (mem ⟨i, hi⟩) := by
  have hint : (BitVec.ofNat 32 i).toInt = i := Counter.toInt_ofNat (by omega)
  rw [Memory.get, dif_pos (by omega)]
  simp [hint]

theorem showRow_eq (hn : n ≤ 2 ^ 31) :
    showRow mem (BitVec.ofNat 32 a) = some ((rowLine mem a ha).text ++ [ch '\n']) := by
  have h1 : BitVec.ofNat 32 a + 1 = BitVec.ofNat 32 (a + 1) := (BitVec.ofNat_add a 1).symm
  have h2 : BitVec.ofNat 32 a + 2 = BitVec.ofNat 32 (a + 2) := (BitVec.ofNat_add a 2).symm
  have h3 : BitVec.ofNat 32 a + 3 = BitVec.ofNat 32 (a + 3) := (BitVec.ofNat_add a 3).symm
  have ha' : (BitVec.ofNat 32 a).toNat = a := by
    rw [BitVec.toNat_ofNat]
    omega
  simp only [showRow, h1, h2, h3, get_ofNat hn (show a < n by omega),
    get_ofNat hn (show a + 1 < n by omega), get_ofNat hn (show a + 2 < n by omega),
    get_ofNat hn (show a + 3 < n by omega), Option.bind_eq_bind, Option.bind_some, ha']
  simp [rowLine, Line.text, List.ofFn_succ, Pair.text_ofByte]

theorem rowLine_overwrite (hn : n ≤ 2 ^ 31) (mem' : Memory n) (i : Fin n) :
    mem'.overwrite (rowLine mem a ha).address (rowLine mem a ha).bytes i =
      if a ≤ i ∧ i < a + 4 then mem i else mem' i := by
  have hbytes : (rowLine mem a ha).bytes =
      List.ofFn fun k : Fin 4 => mem ⟨a + k, by omega⟩ := by
    rw [Line.bytes, rowLine, List.map_ofFn]
    congr 1
    funext k
    exact Pair.byte_ofByte _
  rw [rowLine_address ha hn, hbytes, Memory.overwrite]
  by_cases hai : a ≤ i
  · rw [if_pos hai, List.getElem?_ofFn]
    by_cases hi : i - a < 4
    · rw [dif_pos hi, if_pos ⟨hai, by omega⟩, Option.getD_some]
      congr 1
      exact Fin.ext (by simp only; omega)
    · rw [dif_neg hi, if_neg (by omega), Option.getD_none]
  · rw [if_neg hai, if_neg fun h => hai h.1]

end Row

theorem text_true_cons (l : Line) (ls : List Line) :
    text true (l :: ls) = l.text ++ [ch '\n'] ++ text true ls := by
  cases ls <;> simp [text]

/-- **The loop of `showMem`** prints an image. -/
theorem showRows_eq (hn : n ≤ 2 ^ 31) (mem : Memory n) (a count : ℕ) (ha : a + 4 * count ≤ n) :
    ∃ ls, showRows mem (BitVec.ofNat 32 a) count = some (text true ls) ∧
      (∀ l ∈ ls, l.Inside n) ∧
      ∀ (mem' : Memory n) (i : Fin n),
        written mem' ls i = if a ≤ i ∧ i < a + 4 * count then mem i else mem' i := by
  induction count generalizing a with
  | zero =>
    refine ⟨[], rfl, fun l hl => absurd hl List.not_mem_nil, fun mem' i => ?_⟩
    rw [if_neg (by omega)]
    rfl
  | succ count ih =>
    have ha4 : a + 4 ≤ n := by omega
    obtain ⟨ls, hshow, hin, hmem⟩ := ih (a + 4) (by omega)
    have hnext : BitVec.ofNat 32 a + 4 = BitVec.ofNat 32 (a + 4) := (BitVec.ofNat_add a 4).symm
    refine ⟨rowLine mem a ha4 :: ls, ?_, ?_, fun mem' i => ?_⟩
    · rw [showRows, showRow_eq ha4 hn, hnext, hshow, text_true_cons]
      rfl
    · intro l hl
      rcases List.mem_cons.mp hl with rfl | hl
      · exact rowLine_inside ha4 hn
      · exact hin l hl
    · rw [written, List.foldl_cons]
      refine (hmem _ i).trans ?_
      rw [rowLine_overwrite ha4 hn]
      by_cases h : a + 4 ≤ i ∧ i < a + 4 + 4 * count
      · rw [if_pos h, if_pos (by omega)]
      · rw [if_neg h]
        by_cases h' : a ≤ i ∧ i < a + 4
        · rw [if_pos h', if_pos (by omega)]
        · rw [if_neg h', if_neg (by omega)]

theorem showMem_eq (m : Machine n W) (hn : n ≤ 2 ^ 29) {start count : BitVec 32}
    (hs : 0 ≤ start.toInt) (hc : 0 ≤ count.toInt) (h : start.toInt + 4 * count.toInt ≤ n) :
    showMem m start count =
      showRows m.mem (BitVec.ofNat 32 start.toInt.toNat) count.toInt.toNat := by
  have hstart : BitVec.ofNat 32 start.toInt.toNat = start := by
    have hnat : start.toInt = start.toNat := BitVec.toInt_eq_toNat_of_msb (by
      rw [BitVec.msb_eq_toInt]
      exact decide_eq_false (by omega))
    rw [hnat, Int.toNat_natCast, BitVec.ofNat_toNat, BitVec.setWidth_eq]
  rw [showMem, if_neg (by omega), hstart]

/-- `mem` of `sm.c`. -/
abbrev memSize : ℕ := 10000 * 4

/-- The globals before `main`. -/
def Machine.initial (world : W) : Machine memSize W where
  reg := fun _ => 0
  mem := fun _ => 0
  pc := -1
  insOpCode := 0
  insOp0 := 0
  insOp1 := 0
  insOp2 := 0
  insOpImm := 0
  insOpExt := 0
  out := []
  world := world

/-- **Loading inverts the dump.** A text of lines is loaded line by line. The program counter is that of
the first line, if this is an `int`. -/
theorem loadFile_showMem :
    (∀ (ls : List Line) (newline : Bool) (m : Machine memSize W), (∀ l ∈ ls, l.Inside memSize) →
      ∃ pc, loadFile (some (text newline ls)) m =
          some ({ m with mem := written m.mem ls, pc }, true) ∧
        (0 ≤ m.pc.toInt ∨ (∀ l ∈ ls.head?, l.address < 2 ^ 31) → pc = entry m.pc ls)) ∧
      ∀ (m m' : Machine memSize W) (start count : BitVec 32), 0 ≤ start.toInt → 0 ≤ count.toInt →
        start.toInt + 4 * count.toInt ≤ memSize →
        ∃ dump m'', showMem m start count = some dump ∧ loadFile (some dump) m' = some (m'', true) ∧
          ∀ i : Fin memSize, m''.mem i =
            if start.toInt ≤ i ∧ i < start.toInt + 4 * count.toInt then m.mem i else m'.mem i := by
  have hn : memSize ≤ 2 ^ 31 := by decide
  refine ⟨fun ls newline m h => loadFile_text hn newline h m, fun m m' start count hs hc h => ?_⟩
  obtain ⟨ls, hshow, hin, hmem⟩ := showRows_eq hn m.mem start.toInt.toNat count.toInt.toNat
    (by omega)
  obtain ⟨pc, hload, -⟩ := loadFile_text hn true hin m'
  refine ⟨text true ls, _, ?_, hload, fun i => ?_⟩
  · rw [showMem_eq m (by decide) hs hc h, hshow]
  · refine (hmem m'.mem i).trans ?_
    by_cases hi : start.toInt ≤ i ∧ i < start.toInt + 4 * count.toInt
    · rw [if_pos hi, if_pos (by omega)]
    · rw [if_neg hi, if_neg (by omega)]

/-- The line `1012: 2124` of `a2-test.s.machine`. -/
def jumpLine : Line where
  lead := []
  digits := [ch '1', ch '0', ch '1', ch '2']
  pairs := [⟨1, ch '2', ch '1', by decide, by decide⟩, ⟨0, ch '2', ch '4', by decide, by decide⟩]
  lead_mem := by decide
  digits_ne := by decide
  digits_hex := by decide

/-- The line `80000000:`. Its address is negative as an `int`. -/
def highLine : Line where
  lead := []
  digits := ch '8' :: List.replicate 7 (ch '0')
  pairs := []
  lead_mem := by decide
  digits_ne := by decide
  digits_hex := by decide

/-- The line `10: 00`. -/
def lowLine : Line where
  lead := []
  digits := [ch '1', ch '0']
  pairs := [⟨1, ch '0', ch '0', by decide, by decide⟩]
  lead_mem := by decide
  digits_ne := by decide
  digits_hex := by decide

theorem loadFile_showMem_lines :
    ∃ m dump m'', loadFile (some (text false [jumpLine, highLine])) (Machine.initial ()) =
        some (m, true) ∧ m.pc = 0x1012 ∧ showMem m 0x1010 2 = some dump ∧
      loadFile (some dump) (Machine.initial ()) = some (m'', true) ∧
      m''.mem 0x1012 = 0x21 ∧ m''.mem 0x1013 = 0x24 := by
  obtain ⟨hload, hdump⟩ := loadFile_showMem (W := Unit)
  have hin : ∀ l ∈ [jumpLine, highLine], l.Inside memSize := by
    unfold Line.Inside
    decide
  obtain ⟨pc, hload, hpc⟩ := hload _ false (Machine.initial ()) hin
  obtain ⟨dump, m'', hshow, hdump, hmem⟩ := hdump
    { Machine.initial () with mem := written (fun _ => 0) [jumpLine, highLine], pc }
    (Machine.initial ()) 0x1010 2 (by decide) (by decide) (by decide)
  refine ⟨_, dump, m'', hload, ?_, hshow, hdump, ?_, ?_⟩
  · exact hpc (.inr (by simp [jumpLine, Line.address, numeral]; decide))
  · rw [hmem, if_pos (by decide)]
    rfl
  · rw [hmem, if_pos (by decide)]
    rfl

/-- After a first line with a negative address the next line sets the program counter. -/
theorem loadFile_negative :
    text true [highLine, lowLine] = chars "80000000:\n10: 00\n" ∧
      (∀ l ∈ [highLine, lowLine], l.Inside memSize) ∧
      ∃ m, loadFile (some (chars "80000000:\n10: 00\n")) (Machine.initial ()) = some (m, true) ∧
        m.pc = 0x10 ∧ entry (Machine.initial ()).pc [highLine, lowLine] = 0x80000000 := by
  refine ⟨by decide, ?_, _, rfl, by decide, by decide⟩
  unfold Line.Inside
  decide

end IntroSystems.SM213
