import IntroSystems.Lib.Transition
import IntroSystems.SM213.MainMemory
import IntroSystems.SM213.Words

/-!
# The Java memory remembers the last write

* `Write`, `give`: the byte that a write gives to an address. `last`: the last of several writes
  that gives it one.
* `memRun`: a fresh memory, and the calls of `set` that succeed.
* `byteAt_of_get`, `byteAt_setBytes`: what `get` reads and what `set` changes, address by address.
* `bytesToInteger_integerToBytes`, `integerToBytes_bytesToInteger`.
* **`last_write_wins`**: in every run.
-/

set_option autoImplicit false

namespace IntroSystems.SM213.MainMemory

/-! ## Writes -/

/-- A call `set (address, value)`. -/
structure Write where
  address : BitVec 32
  value : List (BitVec 8)

/-- The byte that a write gives to the address `x`. -/
def Write.give (w : Write) (x : ℤ) : Option (BitVec 8) :=
  if w.address.toInt ≤ x then w.value[(x - w.address.toInt).toNat]? else none

/-- What the last of the writes that cover `x` gives to it. -/
def last (ws : List Write) (x : ℤ) : Option (BitVec 8) := ws.reverse.findSome? fun w => w.give x

/-- The write does not touch the word at `a`. -/
def Write.Misses (w : Write) (a : BitVec 32) : Prop := ∀ i : ℕ, i < 4 → w.give (a.toInt + i) = none

theorem last_append (ws ws' : List Write) (x : ℤ) :
    last (ws ++ ws') x = (last ws' x).or (last ws x) := by
  rw [last, List.reverse_append, List.findSome?_append]
  rfl

theorem last_singleton (w : Write) (x : ℤ) : last [w] x = w.give x := by
  simp [last]

theorem last_eq_none {ws : List Write} {x : ℤ} (h : ∀ w ∈ ws, w.give x = none) :
    last ws x = none := by
  rw [last, List.findSome?_eq_none_iff]
  intro w hw
  exact h w (List.mem_reverse.mp hw)

variable {n : ℕ}

/-- A fresh memory: `new byte [byteCapacity]`. -/
def fresh (n : ℕ) : Memory n := fun _ => 0

/-- The calls of `set` that succeed, with the memory after them. -/
def memRun (n : ℕ) : Sys (Memory n × List Write) Write where
  init s := s = (fresh n, [])
  step s w s' := set s.1 w.address w.value = .ok s'.1 ∧ s'.2 = s.2 ++ [w]

/-! ## Addresses -/

theorem toNat_lt_of_mem {x : ℤ} (h : 0 ≤ x ∧ x < n) : x.toNat < n := by
  omega

/-- The byte at `x`, if `x` is in memory. -/
def byteAt (m : Memory n) (x : ℤ) : Option (BitVec 8) :=
  if h : 0 ≤ x ∧ x < n then some (m ⟨x.toNat, toNat_lt_of_mem h⟩) else none

variable {m m' : Memory n} {a : BitVec 32} {l : ℕ} {bs value : List (BitVec 8)}

theorem toInt_next (h : 0 ≤ a.toInt) : (a + 1).toInt = a.toInt + 1 ∨ (a + 1).toInt < 0 := by
  have hlt := a.isLt
  rw [BitVec.toInt_eq_toNat_cond] at h ⊢
  rw [BitVec.toInt_eq_toNat_cond, BitVec.toNat_add]
  simp only [BitVec.reduceToNat]
  omega

theorem get_eq_byteAt (m : Memory n) (a : BitVec 32) : m.get a = byteAt m a.toInt := rfl

theorem byteAt_isSome {x : ℤ} {b : BitVec 8} (h : byteAt m x = some b) : 0 ≤ x ∧ x < n := by
  by_contra hnot
  rw [byteAt, dif_neg hnot] at h
  cases h

/-- **What `get` reads**, address by address. -/
theorem byteAt_of_bytes (h : m.bytes a l = some bs) :
    bs.length = l ∧ ∀ i < l, byteAt m (a.toInt + i) = bs[i]? := by
  induction l generalizing a bs with
  | zero =>
    cases h
    exact ⟨rfl, fun i hi => absurd hi (Nat.not_lt_zero i)⟩
  | succ l ih =>
    obtain ⟨b, bs, rfl, hb, h⟩ := Memory.bytes_succ.mp h
    obtain ⟨hlen, hbs⟩ := ih h
    refine ⟨by rw [List.length_cons, hlen], fun i hi => ?_⟩
    cases i with
    | zero => simpa [get_eq_byteAt] using hb
    | succ i =>
      have hnext : (a + 1).toInt = a.toInt + 1 := by
        refine (toInt_next (byteAt_isSome hb).1).resolve_right fun hneg => ?_
        obtain ⟨b', -, -, hb', -⟩ := Memory.bytes_succ.mp
          (show m.bytes (a + 1) (l - 1 + 1) = some bs by rwa [Nat.sub_add_cancel (by omega)])
        exact absurd (byteAt_isSome hb').1 (by omega)
      have := hbs i (by omega)
      rw [hnext] at this
      rw [List.getElem?_cons_succ, ← this]
      congr 1
      push_cast
      ring

theorem byteAt_set {b : BitVec 8} (h : m.set a b = some m') (x : ℤ) :
    byteAt m' x = (byteAt m x).map fun c => if x = a.toInt then b else c := by
  unfold Memory.set at h
  split at h
  case isFalse => cases h
  case isTrue ha =>
    cases h
    unfold byteAt
    split
    case isFalse => rfl
    case isTrue hx =>
      rw [Option.map_some, Function.update_apply]
      congr 2
      rw [Fin.mk.injEq, eq_iff_iff]
      omega

theorem give_nil (a : BitVec 32) (x : ℤ) : Write.give ⟨a, []⟩ x = none := by simp [Write.give]

theorem give_self (w : Write) {i : ℕ} (hi : i < w.value.length) :
    w.give (w.address.toInt + i) = some w.value[i] := by
  have hk : (w.address.toInt + i - w.address.toInt).toNat = i := by omega
  rw [Write.give, if_pos (by omega), hk, List.getElem?_eq_getElem hi]

theorem give_cons (b : BitVec 8) (value : List (BitVec 8))
    (hnext : value ≠ [] → (a + 1).toInt = a.toInt + 1) (x : ℤ) :
    Write.give ⟨a, b :: value⟩ x =
      if x = a.toInt then some b else Write.give ⟨a + 1, value⟩ x := by
  rcases lt_trichotomy x a.toInt with h | rfl | h
  · rw [if_neg h.ne, Write.give, if_neg (not_le.mpr h)]
    cases value with
    | nil => rw [give_nil]
    | cons c value =>
      rw [Write.give, hnext (List.cons_ne_nil c value), if_neg (by omega)]
  · rw [if_pos rfl, Write.give, if_pos (le_refl _), sub_self]
    rfl
  · have hk : (x - a.toInt).toNat = (x - (a.toInt + 1)).toNat + 1 := by omega
    rw [if_neg h.ne', Write.give, if_pos h.le, hk, List.getElem?_cons_succ]
    cases value with
    | nil => rw [give_nil, List.getElem?_nil]
    | cons c value =>
      rw [Write.give, hnext (List.cons_ne_nil c value), if_pos (by omega)]

theorem give_behind (hnext : value ≠ [] → (a + 1).toInt = a.toInt + 1) :
    Write.give ⟨a + 1, value⟩ a.toInt = none := by
  cases value with
  | nil => exact give_nil _ _
  | cons c value =>
    rw [Write.give, hnext (List.cons_ne_nil c value), if_neg (by omega)]

theorem setBytes_cons {b : BitVec 8} (h : m.setBytes a (b :: value) = some m') :
    ∃ m₁, m.set a b = some m₁ ∧ m₁.setBytes (a + 1) value = some m' ∧
      (value ≠ [] → (a + 1).toInt = a.toInt + 1) := by
  obtain ⟨m₁, hset, h⟩ := Option.bind_eq_some_iff.mp h
  refine ⟨m₁, hset, h, fun hne => ?_⟩
  have hinside : ∀ {m m' : Memory n} {a b}, m.set a b = some m' → 0 ≤ a.toInt := by
    intro m m' a b h
    by_contra hneg
    rw [Memory.set, dif_neg fun h => hneg h.1] at h
    cases h
  obtain ⟨c, value, rfl⟩ := List.exists_cons_of_ne_nil hne
  obtain ⟨m₂, hset₂, -⟩ := Option.bind_eq_some_iff.mp h
  have := hinside hset₂
  exact (toInt_next (hinside hset)).resolve_right (by omega)

/-- **What `set` changes**, address by address. -/
theorem byteAt_setBytes (h : m.setBytes a value = some m') (x : ℤ) :
    byteAt m' x = (byteAt m x).map fun c => (Write.give ⟨a, value⟩ x).getD c := by
  induction value generalizing m a with
  | nil =>
    cases h
    simp [give_nil]
  | cons b value ih =>
    obtain ⟨m₁, hset, h, hnext⟩ := setBytes_cons h
    rw [ih h, byteAt_set hset, Option.map_map, give_cons b value hnext]
    congr 1
    funext c
    by_cases hx : x = a.toInt
    · rw [Function.comp_apply, if_pos hx, if_pos hx, hx, give_behind hnext]
      rfl
    · rw [Function.comp_apply, if_neg hx, if_neg hx]

theorem bytes_domain (h : m.bytes a l = some bs) (m' : Memory n) :
    ∃ bs', m'.bytes a l = some bs' := by
  induction l generalizing a bs with
  | zero => exact ⟨[], rfl⟩
  | succ l ih =>
    obtain ⟨b, bs, -, hb, h⟩ := Memory.bytes_succ.mp h
    obtain ⟨bs', hbs⟩ := ih h
    have ha := byteAt_isSome hb
    exact ⟨_, Memory.bytes_succ.mpr ⟨_, bs', rfl, dif_pos ha, hbs⟩⟩

theorem bytes_of_setBytes (h : m.setBytes a value = some m') (m₁ : Memory n) :
    ∃ bs, m₁.bytes a value.length = some bs := by
  induction value generalizing m a with
  | nil => exact ⟨[], rfl⟩
  | cons b value ih =>
    obtain ⟨m₂, hset, h, -⟩ := setBytes_cons h
    obtain ⟨bs, hbs⟩ := ih h
    have ha : 0 ≤ a.toInt ∧ a.toInt < n := by
      by_contra hnot
      rw [Memory.set, dif_neg hnot] at hset
      cases hset
    exact ⟨_, Memory.bytes_succ.mpr ⟨_, bs, rfl, dif_pos ha, hbs⟩⟩

theorem getLoop_of_bytes (i : ℕ) (h : m.bytes (a + BitVec.ofNat 32 i) l = some bs) :
    (List.range' i l).mapM (fun j => checked (m.get (a + BitVec.ofNat 32 j))) = .ok bs := by
  induction l generalizing i bs with
  | zero =>
    cases h
    rfl
  | succ l ih =>
    obtain ⟨b, bs, rfl, hb, h⟩ := Memory.bytes_succ.mp h
    rw [← add_ofNat_succ] at h
    rw [List.range'_succ, List.mapM_cons, hb, ih (i + 1) h]
    rfl

/-- **When `get` returns**, and what. -/
theorem get_eq_ok : get m a l = .ok bs ↔ isInvalid n a l = false ∧ m.bytes a l = some bs := by
  constructor
  · intro h
    refine ⟨?_, bytes_of_get h⟩
    by_contra htest
    rw [get, if_pos (by simpa using htest)] at h
    cases h
  · rintro ⟨htest, h⟩
    rw [get, if_neg (by simp [htest]), List.range_eq_range']
    exact getLoop_of_bytes 0 (by simpa using h)

theorem isInvalid_of_set (h : set m a value = .ok m') : isInvalid n a value.length = false := by
  by_contra htest
  rw [set, if_pos (by simpa using htest)] at h
  cases h

/-! ## Integers -/

theorem bytesToInteger_integerToBytes (i : BitVec 32) :
    ∃ b0 b1 b2 b3, integerToBytes i = [b0, b1, b2, b3] ∧ bytesToInteger b0 b1 b2 b3 = i := by
  refine ⟨_, _, _, _, rfl, ?_⟩
  have hbyte : ∀ k ≤ 24, (i >>> k).setWidth 8 = i.extractLsb' k 8 := fun k hk => by
    rw [← sshiftRight_and i hk, sshiftRight_and_ff i hk]
  have hlast : i.setWidth 8 = i.extractLsb' 0 8 := by
    rw [← hbyte 0 (by decide), BitVec.ushiftRight_zero]
  rw [bytesToInteger_eq, append_eq_or, hbyte 24 (by decide), hbyte 16 (by decide),
    hbyte 8 (by decide), hlast]
  exact append_byteOf i

theorem integerToBytes_bytesToInteger (b0 b1 b2 b3 : BitVec 8) :
    integerToBytes (bytesToInteger b0 b1 b2 b3) = [b0, b1, b2, b3] := by
  have hbyte : ∀ k, (((b0 ++ b1 ++ b2 ++ b3) >>> k).setWidth 8 : BitVec 8) =
      (b0 ++ b1 ++ b2 ++ b3).extractLsb' k 8 := fun k => by
    apply BitVec.eq_of_getLsbD_eq
    intro i hi
    simp [hi]
  have h0 := hbyte 0
  rw [BitVec.ushiftRight_zero] at h0
  rw [bytesToInteger_eq, append_eq_or, integerToBytes, hbyte, hbyte, hbyte, h0]
  simp only [List.cons.injEq, and_true]
  refine ⟨?_, ?_, ?_, ?_⟩ <;>
    · apply BitVec.eq_of_getLsbD_eq
      intro i hi
      simp only [BitVec.getLsbD_extractLsb', BitVec.getLsbD_append, hi, decide_true, Bool.true_and]
      split_ifs <;> first | omega | (congr 1; omega)

/-! ## Runs -/

variable {ws : List Write}

/-- Every byte is the one of the last write, and every write was in memory. -/
structure Inv (s : Memory n × List Write) : Prop where
  byte : ∀ x, byteAt s.1 x = (byteAt (fresh n) x).map fun c => (last s.2 x).getD c
  inside : ∀ w ∈ s.2, ∀ m : Memory n, ∃ bs, get m w.address w.value.length = .ok bs

theorem Inv.step {s s' : Memory n × List Write} {w : Write} (hi : Inv s)
    (hs : (memRun n).step s w s') : Inv s' := by
  obtain ⟨m, ws⟩ := s
  obtain ⟨m', ws'⟩ := s'
  obtain ⟨hset, rfl⟩ := hs
  have hbytes := setBytes_of_set hset
  refine ⟨fun x => ?_, fun w' hw m₁ => ?_⟩
  · rw [byteAt_setBytes hbytes x, hi.byte x, Option.map_map, last_append, last_singleton]
    congr 1
    funext c
    cases w.give x with
    | none => simp
    | some b => simp
  · rcases List.mem_append.mp hw with hw | hw
    · exact hi.inside w' hw m₁
    · obtain rfl := List.mem_singleton.mp hw
      obtain ⟨bs, hbs⟩ := bytes_of_setBytes hbytes m₁
      exact ⟨bs, get_eq_ok.mpr ⟨isInvalid_of_set hset, hbs⟩⟩

theorem reach_inv (h : (memRun n).Reach (m, ws)) : Inv (m, ws) := by
  refine h.invariant (I := Inv) ?_ fun s w s' _ hi hs => hi.step hs
  rintro s rfl
  exact ⟨fun x => by simp [last], fun w hw => absurd hw List.not_mem_nil⟩

/-- **A memory that remembers the writes `ws`**: `get` gives the byte of the last write to each
address, so an integer stays until a write overlaps it, and a write changes the bytes it covers. -/
structure Remembers (m : Memory n) (ws : List Write) : Prop where
  read : ∀ a l bs, get m a l = .ok bs →
    bs = (List.range l).map fun i : ℕ => (last ws (a.toInt + i)).getD 0
  integer : ∀ pre a v later, ws = pre ++ ⟨a, integerToBytes v⟩ :: later →
    (∀ w ∈ later, w.Misses a) →
    ∃ b0 b1 b2 b3, get m a 4 = .ok [b0, b1, b2, b3] ∧ bytesToInteger b0 b1 b2 b3 = v
  overlap : ∀ (w : Write) (m' : Memory n), set m w.address w.value = .ok m' →
    ∀ a l bs, get m a l = .ok bs →
      get m' a l = .ok (bs.mapIdx fun i b => (w.give (a.toInt + i)).getD b)

theorem byteAt_of_get (h : get m a l = .ok bs) :
    bs.length = l ∧ ∀ i < l, byteAt m (a.toInt + i) = bs[i]? :=
  byteAt_of_bytes (get_eq_ok.mp h).2

theorem byteAt_fresh {x : ℤ} {b c : BitVec 8} (h : byteAt m x = some b) :
    byteAt (fresh n) x = some c → c = 0 := by
  intro hc
  rw [byteAt, dif_pos (byteAt_isSome h)] at hc
  exact (Option.some.inj hc).symm

theorem Inv.read (hi : Inv (m, ws)) (h : get m a l = .ok bs) :
    bs = (List.range l).map fun i : ℕ => (last ws (a.toInt + i)).getD 0 := by
  obtain ⟨hlen, hbs⟩ := byteAt_of_get h
  refine List.ext_getElem (by simp [hlen]) fun i h₁ h₂ => ?_
  have hbyte := hbs i (hlen ▸ h₁)
  rw [List.getElem?_eq_getElem h₁] at hbyte
  have hlaw := hi.byte (a.toInt + i)
  rw [hbyte, eq_comm, Option.map_eq_some_iff] at hlaw
  obtain ⟨c, hc, hval⟩ := hlaw
  rw [byteAt_fresh hbyte hc] at hval
  rw [← hval, List.getElem_map, List.getElem_range]

theorem Inv.integer (hi : Inv (m, ws)) {pre later : List Write} {v : BitVec 32}
    (hws : ws = pre ++ ⟨a, integerToBytes v⟩ :: later) (hmiss : ∀ w ∈ later, w.Misses a) :
    get m a 4 = .ok (integerToBytes v) := by
  have hmem : (⟨a, integerToBytes v⟩ : Write) ∈ ws := by
    rw [hws]
    exact List.mem_append_right _ List.mem_cons_self
  obtain ⟨bs, hbs⟩ := hi.inside _ hmem m
  change get m a 4 = .ok bs at hbs
  rw [hbs, hi.read hbs]
  congr 1
  refine List.ext_getElem rfl fun i h₁ h₂ => ?_
  have hi4 : i < 4 := by simpa using h₁
  have hgive : Write.give ⟨a, integerToBytes v⟩ (a.toInt + i) = some (integerToBytes v)[i] :=
    give_self ⟨a, integerToBytes v⟩ h₂
  have hlast : last ws (a.toInt + i) = some (integerToBytes v)[i] := by
    rw [hws, last_append, ← List.singleton_append, last_append,
      last_eq_none fun w hw => hmiss w hw i hi4, last_singleton, hgive]
    rfl
  rw [List.getElem_map, List.getElem_range]
  exact congrArg (Option.getD · 0) hlast

theorem Inv.overlap {w : Write} {m' : Memory n} (hset : set m w.address w.value = .ok m')
    (h : get m a l = .ok bs) :
    get m' a l = .ok (bs.mapIdx fun i b => (w.give (a.toInt + i)).getD b) := by
  obtain ⟨htest, hb⟩ := get_eq_ok.mp h
  obtain ⟨bs', hbs'⟩ := bytes_domain hb m'
  have h' := get_eq_ok.mpr ⟨htest, hbs'⟩
  obtain ⟨hlen, hbytes⟩ := byteAt_of_get h
  obtain ⟨hlen', hbytes'⟩ := byteAt_of_get h'
  rw [h']
  congr 1
  refine List.ext_getElem (by simp [hlen, hlen']) fun i h₁ h₂ => ?_
  have hi : i < l := hlen' ▸ h₁
  have hnew := hbytes' i hi
  rw [byteAt_setBytes (setBytes_of_set hset), hbytes i hi,
    List.getElem?_eq_getElem (hlen ▸ hi), List.getElem?_eq_getElem h₁, Option.map_some] at hnew
  rw [List.getElem_mapIdx]
  exact (Option.some.inj hnew).symm

/-- **The last write wins**, in every run; and integers are their bytes. -/
theorem last_write_wins (h : (memRun n).Reach (m, ws)) :
    Remembers m ws ∧
      (∀ i, ∃ b0 b1 b2 b3, integerToBytes i = [b0, b1, b2, b3] ∧ bytesToInteger b0 b1 b2 b3 = i) ∧
      ∀ b0 b1 b2 b3, integerToBytes (bytesToInteger b0 b1 b2 b3) = [b0, b1, b2, b3] := by
  have hi := reach_inv h
  refine ⟨⟨fun a l bs hget => hi.read hget, fun pre a v later hws hmiss => ?_,
    fun w m' hset a l bs hget => Inv.overlap hset hget⟩, bytesToInteger_integerToBytes,
    integerToBytes_bytesToInteger⟩
  obtain ⟨b0, b1, b2, b3, hbytes, hint⟩ := bytesToInteger_integerToBytes v
  exact ⟨b0, b1, b2, b3, hbytes ▸ hi.integer hws hmiss, hint⟩

/-- A fresh memory of six bytes, with an integer at `0`. -/
def storedInteger : Memory 6 :=
  Function.update (Function.update (Function.update (Function.update (fresh 6) 0 1) 1 2) 2 3) 3 4

/-- One byte of the integer is overwritten. -/
theorem last_write_wins_two :
    Remembers (Function.update storedInteger 2 9) [⟨0, [1, 2, 3, 4]⟩, ⟨2, [9]⟩] ∧
      (∀ i, ∃ b0 b1 b2 b3, integerToBytes i = [b0, b1, b2, b3] ∧ bytesToInteger b0 b1 b2 b3 = i) ∧
      ∀ b0 b1 b2 b3, integerToBytes (bytesToInteger b0 b1 b2 b3) = [b0, b1, b2, b3] := by
  have h₀ : (memRun 6).Reach (fresh 6, []) := .init rfl
  have h₁ : (memRun 6).Reach (storedInteger, [⟨0, [1, 2, 3, 4]⟩]) :=
    h₀.step (l := ⟨0, [1, 2, 3, 4]⟩) ⟨rfl, rfl⟩
  exact last_write_wins (h₁.step (l := ⟨2, [9]⟩) ⟨rfl, rfl⟩)

end IntroSystems.SM213.MainMemory
