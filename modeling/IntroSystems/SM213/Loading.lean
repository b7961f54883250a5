import IntroSystems.SM213.Image

/-!
# What a file must look like to be loaded

`loadFile` looks for the colon of a line without an eye to the end of the line, and stores at the
address in front of it without a look at the size of `mem`.

* `pairCount`: how many bytes a line stores. `Contained`: a colon, and room for these bytes.
* `storePairs_isSome`, `loadLine_isSome`: one line.
* **`loadFile_isSome_iff`**: the lines that `loadFile` reads without leaving them or `mem`.
* **`loadFile_unsafe`**: an empty line is not one of them.
-/

set_option autoImplicit false

namespace IntroSystems.SM213

open CString

variable {n : ℕ} {W : Type}

/-- The number of pairs behind the colon, up to the zero of the line. -/
def pairCount : List Byte → ℕ
  | c :: d :: line =>
    if c = ch ' ' then pairCount (d :: line)
    else if c = 0 ∨ d = 0 then 0
    else pairCount line + 1
  | _ => 0

/-- The address in front of the colon, as an `int`. -/
def headAddress (head : List Byte) : ℤ := (BitVec.ofInt 32 (strtol 16 head).1).toInt

/-- A line with a colon, whose bytes have their place in a memory of size `n`. -/
def Contained (n : ℕ) (line : List Byte) : Prop :=
  ∃ head tail, ch ':' ∉ head ∧ line = head ++ ch ':' :: tail ∧
    ∀ k < pairCount tail, 0 ≤ headAddress head + k ∧ headAddress head + k < n

/-! ### One line -/

theorem cut_eq_some {c : Byte} {s : List Byte} {r : List Byte × List Byte} :
    cut c s = some r ↔ c ∉ r.1 ∧ s = r.1 ++ c :: r.2 := by
  constructor
  · intro h
    induction s generalizing r with
    | nil => exact absurd h (by simp [cut])
    | cons d s ih =>
      rw [cut] at h
      split_ifs at h with hd
      · cases h
        exact ⟨List.not_mem_nil, by rw [hd]; rfl⟩
      · obtain ⟨q, hq, rfl⟩ := Option.map_eq_some_iff.mp h
        obtain ⟨hmem, rfl⟩ := ih hq
        exact ⟨by simp [hmem, Ne.symm hd], rfl⟩
  · rintro ⟨hmem, rfl⟩
    exact cut_append hmem r.2

theorem Memory.set_isSome {mem : Memory n} {a : BitVec 32} {b : Byte} :
    (mem.set a b).isSome ↔ 0 ≤ a.toInt ∧ a.toInt < n := by
  rw [Memory.set]
  split_ifs with h
  · exact iff_of_true rfl h
  · exact iff_of_false Bool.false_ne_true h

theorem Memory.set_eq_none {mem : Memory n} {a : BitVec 32} {b : Byte}
    (h : ¬(0 ≤ a.toInt ∧ a.toInt < n)) : mem.set a b = none := dif_neg h

/-- **The stores of a line** stay in `mem` if all their addresses do. -/
theorem storePairs_isSome (hn : n < 2 ^ 31) (mem : Memory n) (addr : BitVec 32) (line : List Byte) :
    (storePairs mem addr line).isSome ↔
      ∀ k < pairCount line, 0 ≤ addr.toInt + k ∧ addr.toInt + k < n := by
  fun_induction pairCount line generalizing mem addr with
  | case1 d line ih =>
    rw [storePairs_space]
    exact ih mem addr
  | case2 c d line hspace hend =>
    rw [storePairs, if_neg hspace, if_pos hend]
    exact iff_of_true rfl fun k hk => absurd hk (Nat.not_lt_zero k)
  | case3 c d line hspace hend ih =>
    rw [storePairs, if_neg hspace, if_neg hend]
    by_cases h : 0 ≤ addr.toInt ∧ addr.toInt < n
    · have hset : (mem.set addr (BitVec.ofInt 8 (strtol 16 [c, d]).1)).isSome :=
        Memory.set_isSome.mpr h
      obtain ⟨mem', hmem⟩ := Option.isSome_iff_exists.mp hset
      rw [hmem]
      change (storePairs mem' (addr + 1) line).isSome ↔ _
      rw [ih mem' (addr + 1), Counter.toInt_add_one (by omega)]
      constructor
      · intro hk k hlt
        cases k with
        | zero => simpa using h
        | succ k =>
          have := hk k (by omega)
          push_cast
          omega
      · intro hk k hlt
        have := hk (k + 1) (by omega)
        push_cast at this
        omega
    · rw [Memory.set_eq_none h]
      refine iff_of_false Bool.false_ne_true fun hk => h ?_
      simpa using hk 0 (Nat.succ_pos _)
  | case4 line hshort =>
    refine iff_of_true ?_ fun k hk => absurd hk (Nat.not_lt_zero k)
    rw [storePairs_end]
    · rfl
    · rcases line with _ | ⟨c, _ | ⟨d, line⟩⟩
      · exact Nat.zero_le 1
      · exact le_refl 1
      · exact absurd rfl (hshort c d line)

/-- **A line is loaded** exactly if it is contained. -/
theorem loadLine_isSome (hn : n < 2 ^ 31) (m : Machine n W) (line : List Byte) :
    (loadLine m line).isSome ↔ Contained n line := by
  unfold loadLine
  constructor
  · intro h
    obtain ⟨m', h⟩ := Option.isSome_iff_exists.mp h
    obtain ⟨⟨head, tail⟩, hcut, h⟩ := Option.bind_eq_some_iff.mp h
    obtain ⟨mem, hmem, -⟩ := Option.bind_eq_some_iff.mp h
    obtain ⟨hcolon, hline⟩ := cut_eq_some.mp hcut
    refine ⟨head, tail, hcolon, hline, ?_⟩
    apply (storePairs_isSome hn m.mem _ tail).mp
    rw [hmem]
    rfl
  · rintro ⟨head, tail, hcolon, rfl, hin⟩
    have hst := (storePairs_isSome hn m.mem _ tail).mpr hin
    obtain ⟨mem, hmem⟩ := Option.isSome_iff_exists.mp hst
    rw [cut_append hcolon]
    simp [hmem]

/-! ### The file -/

theorem foldlM_loadLine_isSome (hn : n < 2 ^ 31) (ls : List (List Byte)) (m : Machine n W) :
    (ls.foldlM loadLine m).isSome ↔ ∀ line ∈ ls, Contained n line := by
  induction ls generalizing m with
  | nil => exact iff_of_true rfl fun line h => absurd h List.not_mem_nil
  | cons line ls ih =>
    rw [List.foldlM_cons, List.forall_mem_cons, ← loadLine_isSome hn m line]
    cases hl : loadLine m line with
    | none => exact iff_of_false Bool.false_ne_true fun h => Bool.false_ne_true h.1
    | some m' => exact (ih m').trans (by simp)

/-- **What a file must look like**: every line has a colon, and room in `mem` for its bytes. -/
theorem loadFile_isSome_iff (text : List Byte) (m : Machine memSize W) :
    (loadFile (some text) m).isSome ↔ ∀ line ∈ lines text, Contained memSize line := by
  rw [← foldlM_loadLine_isSome (by decide) (lines text) m]
  simp only [loadFile]
  cases (lines text).foldlM loadLine m with
  | none => exact Iff.rfl
  | some m' => exact Iff.rfl

/-- An empty line has no colon, and the store of `9c40: 00` is one past the end of `mem`. -/
theorem loadFile_unsafe :
    ¬ (∀ (text : List Byte) (m : Machine memSize Unit), (loadFile (some text) m).isSome) ∧
      loadFile (some (chars "\n")) (Machine.initial ()) = none ∧
      loadFile (some (chars "9c40: 00\n")) (Machine.initial ()) = none := by
  have hempty : loadFile (some (chars "\n")) (Machine.initial ()) = none := rfl
  refine ⟨fun h => ?_, hempty, ?_⟩
  · have := h (chars "\n") (Machine.initial ())
    rw [hempty] at this
    exact Bool.false_ne_true this
  · rfl

end IntroSystems.SM213
