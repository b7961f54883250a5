import IntroSystems.Elements.A7Program
import IntroSystems.Lib.Counter

/-!
# The program of assignment 7

`main.c` as a sequence of calls, and what it does with references.

* `main`, with the arguments of the program and what `includeElement` returns.
* **`references_exact`**: the counters are exact in all runs, and in that of `main`.
* **`too_many_references`**: but for elements with `2 ^ 31` references.
-/

set_option autoImplicit false

namespace IntroSystems.Elements.A7

open Containers CString

/-! ### The code -/

/-- The program in the course of a run, and the states before. -/
structure Course where
  now : Program
  past : List Program

variable {γ : Type} (link : Link) (address : ℕ → BitVec 64) (includeElement : ℕ → Bool)

def Op.call (op : Op) (r : Course) : Option Course := do
  let s ← op.run link address r.now
  some { now := s, past := r.past ++ [r.now] }

/-- `test_int` and `test_str`: an element is created, printed, and released. -/
def test (new : Op) (r : Course) : Option (Element × Course) := do
  let e := r.now.mem.elems.blocks.size
  let r ← new.call link address r
  let printed ← element address e r.now.mem.elems
  let r ← (Op.release e).call link address r
  some (printed, r)

def test_int (r : Course) : Option (Element × Course) := test link address (.newInt 42) r

def hello : Str := ⟨chars "Hello, World!", by decide⟩

def test_str (r : Course) : Option (Element × Course) := test link address (.newStr hello) r

/-- What `parse_string (arg)` calls. -/
def newFor (arg : Str) : Op :=
  match parse_string 0 arg with
  | .int value => .newInt value
  | .str _ _ => .newStr arg

/-- "Parse input arguments". -/
def parseLoop : List Str → Course → Option Course
  | [], r => some r
  | arg :: args, r => do
    let e := r.now.mem.elems.blocks.size
    let r ← (newFor arg).call link address r
    let r ← (Op.add e).call link address r
    let r ← (Op.release e).call link address r
    parseLoop args r

/-- "Put some of the elements on the tree". `k` counts the calls of `includeElement`. -/
def includeLoop : ℕ → ℕ → Option ℕ → Course → Option Course
  | _, _, none, r => some r
  | 0, _, some _, _ => none
  | fuel + 1, k, some n, r => do
    let x ← r.now.mem.listNodes.get n
    let r ← if includeElement k then (Op.insert x.elem).call link address r else some r
    let x ← r.now.mem.listNodes.get n
    includeLoop fuel (k + 1) x.next r

/-- "Print out only the integers", or the strings. -/
def printLoop (value : Element → Option γ) (s : Program) : ℕ → Option ℕ → Option (List γ)
  | _, none => some []
  | 0, some _ => none
  | fuel + 1, some n => do
    let x ← s.mem.listNodes.get n
    let a ← element address x.elem s.mem.elems
    let out ← printLoop value s fuel x.next
    some ((value a).toList ++ out)

/-- What is printed. -/
structure Output where
  test_int : Element
  test_str : Element
  tree : List (ℕ × Element)
  ints : List (BitVec 32)
  strings : List Str
  treeAfter : List (ℕ × Element)

def main (argv : List Str) : Option (Output × Course) := do
  let (test_int, r) ← test_int link address { now := .start, past := [] }
  let (test_str, r) ← test_str link address r
  let r ← parseLoop link address argv r
  let l ← r.now.mem.list
  let r ← includeLoop link address includeElement r.now.mem.listNodes.size 0 l.head r
  let tree ← r.now.mem.print (element address)
  let l ← r.now.mem.list
  let ints ← printLoop address (fun a => if is_int_element link a then a.intValue else none) r.now
    r.now.mem.listNodes.size l.head
  let strings ← printLoop address (fun a => if is_str_element link a then a.strValue else none)
    r.now r.now.mem.listNodes.size l.head
  let r ← Op.deleteList.call link address r
  let treeAfter ← r.now.mem.print (element address)
  let r ← Op.deleteTree.call link address r
  some ({ test_int, test_str, tree, ints, strings, treeAfter }, r)

/-! ### Its references -/

variable {link : Link} {address : ℕ → BitVec 64} {includeElement : ℕ → Bool}

variable {r : Course} {op : Op} {s' : Program} {e : ℕ}

/-- The runs with few references. -/
abbrev Reach (link : Link) (address : ℕ → BitVec 64) : Program → Prop :=
  ((sys link address).restrict (Few link address)).Reach

/-- All states so far are those of a run with few references. -/
structure Good (link : Link) (address : ℕ → BitVec 64) (r : Course) : Prop where
  now : Reach link address r.now
  past : ∀ s ∈ r.past, Reach link address s

theorem Good.call (h : Good link address r) (hv : op.Valid r.now)
    (hrun : op.run link address r.now = some s') (hlt : ∀ e, s'.references e < 2 ^ 31) :
    op.call link address r = some ⟨s', r.past ++ [r.now]⟩ ∧
      Good link address ⟨s', r.past ++ [r.now]⟩ := by
  refine ⟨by simp only [Op.call, hrun, Option.bind_eq_bind, Option.bind_some],
    h.now.step_restrict ?_ ⟨hv, hrun⟩, fun s hs => ?_⟩
  · intro s₁ hrun₁
    obtain rfl := Option.some.inj (hrun.symm.trans hrun₁)
    exact hlt
  · rcases List.mem_append.mp hs with hs | hs
    · exact h.past s hs
    · rw [List.mem_singleton.mp hs]
      exact h.now

/-- Between two iterations of a loop of `main`: nobody owns anything. -/
structure Between (link : Link) (address : ℕ → BitVec 64) (bound : ℕ) (r : Course) : Prop where
  good : Good link address r
  owned : r.now.owned = []
  number : ∀ e, r.now.mem.number e ≤ bound
  list : r.now.mem.list ≠ none
  tree : r.now.mem.tree ≠ none

theorem Between.exact {bound : ℕ} (h : Between link address bound r) : Exact r.now :=
  (exact_of_reach h.good.now).1

theorem references_lt {s : Program} {k : ℕ} (hnd : s.owned.Nodup)
    (hle : s.mem.number e ≤ k) (hk : k ≤ 2) : s.references e < 2 ^ 31 := by
  have hone := List.nodup_iff_count.mp hnd e
  rw [Program.references]
  omega

theorem Between.created (h : Between link address 1 r)
    (hop : (∃ v, op = .newInt v) ∨ ∃ v, op = .newStr v) :
    ∃ r', op.call link address r = some r' ∧ Good link address r' ∧
      r'.now.owned = [r.now.mem.elems.blocks.size] ∧ r'.now.mem.list = r.now.mem.list ∧
      r'.now.mem.tree = r.now.mem.tree ∧ ∀ e, r'.now.mem.number e = r.now.mem.number e := by
  obtain ⟨s', hrun, hexact, howned, hlist, htree, hnumber⟩ :=
    h.exact.created link address hop
  have hvalid : op.Valid r.now := by
    rcases hop with ⟨v, rfl⟩ | ⟨v, rfl⟩ <;> trivial
  obtain ⟨hcall, hgood⟩ := h.good.call hvalid hrun fun e =>
    references_lt hexact.nodup (hnumber e ▸ h.number e) (by decide)
  exact ⟨_, hcall, hgood, by rw [howned, h.owned], hlist, htree, hnumber⟩

theorem release_owned {k : ℕ} (hgood : Good link address r) (howned : r.now.owned = [e])
    (hnumber : ∀ f, r.now.mem.number f ≤ k) (hk : k ≤ 2) (hlist : r.now.mem.list ≠ none)
    (htree : r.now.mem.tree ≠ none) :
    ∃ r', (Op.release e).call link address r = some r' ∧ Between link address k r' := by
  obtain ⟨hexact, hlt⟩ := exact_of_reach hgood.now
  have hvalid : (Op.release e).Valid r.now := show e ∈ r.now.owned from
    howned ▸ List.mem_singleton.mpr rfl
  obtain ⟨s', hrun, hexact', howned', hlist', htree', hnumber'⟩ :=
    hexact.release link address hvalid (Nat.lt_trans (hlt e) (by decide))
  obtain ⟨hcall, hgood'⟩ := hgood.call hvalid hrun fun f =>
    references_lt hexact'.nodup (hnumber' f ▸ hnumber f) hk
  refine ⟨_, hcall, hgood', ?_, fun f => hnumber' f ▸ hnumber f, hlist' ▸ hlist, htree' ▸ htree⟩
  rw [howned', howned, List.erase_cons_head]

theorem test_spec (h : Between link address 1 r)
    (hop : (∃ v, op = .newInt v) ∨ ∃ v, op = .newStr v) :
    ∃ a r', test link address op r = some (a, r') ∧ Between link address 1 r' := by
  obtain ⟨r₁, hcall, hgood, howned, hlist, htree, hnumber⟩ := h.created hop
  have hexact := (exact_of_reach hgood.now).1
  have hmem : r.now.mem.elems.blocks.size ∈ r₁.now.owned := howned ▸ List.mem_singleton.mpr rfl
  obtain ⟨a, ha⟩ := element_spec address hexact.held
    (hexact.live_iff.mp (hexact.live_of_owned hmem))
  obtain ⟨r', hrel, hbetween⟩ := release_owned hgood howned (fun e => hnumber e ▸ h.number e)
    (by decide) (hlist ▸ h.list) (htree ▸ h.tree)
  refine ⟨a, r', ?_, hbetween⟩
  simp only [test, hcall, ha, hrel, Option.bind_eq_bind, Option.bind_some]

theorem newFor_cases (arg : Str) : (∃ v, newFor arg = .newInt v) ∨ ∃ v, newFor arg = .newStr v := by
  rw [newFor]
  split
  · exact .inl ⟨_, rfl⟩
  · exact .inr ⟨_, rfl⟩

/-- The list takes over what has been parsed: one node for each element. -/
theorem parseLoop_spec (argv : List Str) (h : Between link address 1 r) :
    ∃ r', parseLoop link address argv r = some r' ∧ Between link address 1 r' := by
  induction argv generalizing r with
  | nil => exact ⟨r, rfl, h⟩
  | cons arg args ih =>
    obtain ⟨r₁, hnew, hgood₁, howned₁, hlist₁, htree₁, hnumber₁⟩ := h.created (newFor_cases arg)
    have hexact₁ := (exact_of_reach hgood₁.now).1
    have hmem : r.now.mem.elems.blocks.size ∈ r₁.now.owned := howned₁ ▸ List.mem_singleton.mpr rfl
    have hlive := hexact₁.live_of_owned hmem
    have hvalid : (Op.add r.now.mem.elems.blocks.size).Valid r₁.now := ⟨hlist₁ ▸ h.list, hlive⟩
    obtain ⟨s₂, hrun₂, hexact₂, howned₂, hlist₂, htree₂, hnumber₂⟩ :=
      hexact₁.add link address hvalid.1 hlive
    -- no node holds the new element yet
    have hzero : r.now.mem.number r.now.mem.elems.blocks.size = 0 :=
      (Nat.add_eq_zero_iff.mp h.exact.references_size).2
    have hone : ∀ f, s₂.mem.number f ≤ 1 := fun f => by
      rw [hnumber₂, hnumber₁]
      split
      · next hf => rw [← hf, hzero]
      · exact h.number f
    obtain ⟨hadd, hgood₂⟩ := hgood₁.call hvalid hrun₂ fun f =>
      references_lt hexact₂.nodup (hone f) (by decide)
    obtain ⟨r₃, hrel, hbetween⟩ := release_owned hgood₂ (howned₂.trans howned₁) hone (by decide)
      hlist₂ (htree₂ ▸ htree₁ ▸ h.tree)
    obtain ⟨r', hloop, hdone⟩ := ih hbetween
    refine ⟨r', ?_, hdone⟩
    simp only [parseLoop, hnew, hadd, hrel, hloop, Option.bind_eq_bind, Option.bind_some]

/-- How many of the nodes `ps` hold `e`. -/
def holding (nodes : Heap ListNode) (ps : List ℕ) (e : ℕ) : ℕ :=
  ps.countP fun p => (nodes.get p).any fun x => x.elem = e

theorem holding_cons {nodes : Heap ListNode} {n : ℕ} {x : ListNode} (hn : nodes.get n = some x)
    (ps : List ℕ) (f : ℕ) :
    holding nodes (n :: ps) f = holding nodes ps f + if x.elem = f then 1 else 0 := by
  simp [holding, List.countP_cons, hn]

theorem Between.insert {n : ℕ} {x : ListNode} (h : Between link address 2 r)
    (hn : r.now.mem.listNodes.get n = some x)
    (hone : ∀ f, listNumber r.now.mem.listNodes f ≤ 1)
    (hnew : ∀ f, treeNumber r.now.mem.treeNodes f + (if x.elem = f then 1 else 0) ≤ 1) :
    ∃ r', (Op.insert x.elem).call link address r = some r' ∧ Between link address 2 r' ∧
      r'.now.mem.list = r.now.mem.list ∧ r'.now.mem.listNodes = r.now.mem.listNodes ∧
      ∀ f, treeNumber r'.now.mem.treeNodes f =
        treeNumber r.now.mem.treeNodes f + if x.elem = f then 1 else 0 := by
  have hlive : r.now.Live x.elem := h.exact.live_iff.mpr
    (Nat.add_pos_right _ (number_pos_of_listNode hn))
  have hvalid : (Op.insert x.elem).Valid r.now := ⟨h.tree, hlive⟩
  obtain ⟨s', hrun, hexact, howned, hlist, hnodes, htree, hnumber⟩ :=
    h.exact.insert link address h.tree hlive
  have htreeNumber : ∀ f, treeNumber s'.mem.treeNodes f =
      treeNumber r.now.mem.treeNodes f + if x.elem = f then 1 else 0 := fun f => by
    have hf := hnumber f
    rw [Containers.number, Containers.number, hnodes] at hf
    omega
  have htwo : ∀ f, s'.mem.number f ≤ 2 := fun f => by
    rw [Containers.number, hnodes, htreeNumber]
    exact Nat.add_le_add (hone f) (hnew f)
  obtain ⟨hcall, hgood⟩ := h.good.call hvalid hrun fun f =>
    references_lt hexact.nodup (htwo f) (by decide)
  exact ⟨_, hcall, ⟨hgood, howned.trans h.owned, htwo, hlist ▸ h.list, htree⟩, hlist, hnodes,
    htreeNumber⟩

/-- The tree gets each node of the list at most once. -/
theorem includeLoop_spec {prev : Option ℕ} {ps : List ℕ} (fuel k : ℕ)
    (h : Between link address 2 r) (hchain : Chain r.now.mem.listNodes prev ps none)
    (hfuel : ps.length ≤ fuel) (hone : ∀ e, listNumber r.now.mem.listNodes e ≤ 1)
    (hrest : ∀ e, treeNumber r.now.mem.treeNodes e + holding r.now.mem.listNodes ps e ≤ 1) :
    ∃ r', includeLoop link address includeElement fuel k ps.head? r = some r' ∧
      Between link address 2 r' := by
  induction ps generalizing r fuel k prev with
  | nil => exact ⟨r, by rw [List.head?_nil, includeLoop], h⟩
  | cons n ps ih =>
    obtain ⟨fuel, rfl⟩ : ∃ j, fuel = j + 1 := ⟨fuel - 1, by rw [List.length_cons] at hfuel; omega⟩
    obtain ⟨⟨e, hn⟩, hps⟩ := hchain
    rw [Option.or_none] at hn
    have hcons := holding_cons hn ps
    have hfuel' : ps.length ≤ fuel := Nat.le_of_succ_le_succ hfuel
    cases hinc : includeElement k with
    | true =>
      obtain ⟨r₁, hcall, hbetween, -, hnodes, htree⟩ := h.insert hn hone fun f => by
        have hf := hrest f
        rw [hcons f] at hf
        omega
      obtain ⟨r', hloop, hdone⟩ := ih fuel (k + 1) hbetween (hnodes.symm ▸ hps) hfuel'
        (fun f => hnodes.symm ▸ hone f) fun f => by
          have hf := hrest f
          rw [hcons f] at hf
          rw [hnodes, htree]
          omega
      refine ⟨r', ?_, hdone⟩
      have hn₁ : r₁.now.mem.listNodes.get n = some ⟨e, prev, ps.head?⟩ := hnodes.symm ▸ hn
      simp only [List.head?_cons, includeLoop, hn, hinc, if_true, hcall, hn₁, hloop,
        Option.bind_eq_bind, Option.bind_some]
    | false =>
      obtain ⟨r', hloop, hdone⟩ := ih fuel (k + 1) h hps hfuel' hone fun f => by
        have hf := hrest f
        rw [hcons f] at hf
        omega
      refine ⟨r', ?_, hdone⟩
      simp only [List.head?_cons, includeLoop, hn, hinc, hloop, Option.bind_eq_bind,
        Option.bind_some]
      rfl

theorem printLoop_spec {γ : Type} (value : Element → Option γ) {s : Program} {prev : Option ℕ}
    {ps : List ℕ} (fuel : ℕ) (h : Exact s) (hchain : Chain s.mem.listNodes prev ps none)
    (hfuel : ps.length ≤ fuel) :
    ∃ out, printLoop address value s fuel ps.head? = some out := by
  induction ps generalizing fuel prev with
  | nil => exact ⟨[], by rw [List.head?_nil, printLoop]⟩
  | cons n ps ih =>
    obtain ⟨fuel, rfl⟩ : ∃ j, fuel = j + 1 := ⟨fuel - 1, by rw [List.length_cons] at hfuel; omega⟩
    obtain ⟨⟨e, hn⟩, hps⟩ := hchain
    rw [Option.or_none] at hn
    obtain ⟨a, ha⟩ := element_spec address h.held
      (e := e) (Nat.add_pos_right _ (number_pos_of_listNode hn))
    obtain ⟨out, hout⟩ := ih fuel hps (Nat.le_of_succ_le_succ hfuel)
    exact ⟨(value a).toList ++ out, by simp only [List.head?_cons, printLoop, hn, ha, hout,
      Option.bind_eq_bind, Option.bind_some]⟩

theorem between_start : Between link address 1 ⟨.start, []⟩ :=
  ⟨⟨.init rfl, nofun⟩, rfl, fun _ => Nat.zero_le 1, nofun, nofun⟩

theorem Between.printLoop {γ : Type} (h : Between link address 2 r) {l : ListHeader}
    (hl : r.now.mem.list = some l) (value : Element → Option γ) :
    ∃ out, printLoop address value r.now r.now.mem.listNodes.size l.head = some out := by
  obtain ⟨ps, hlist⟩ := h.exact.sound.list l hl
  rw [hlist.head]
  exact printLoop_spec value r.now.mem.listNodes.size h.exact hlist.chain hlist.length_le

theorem Between.include (includeElement : ℕ → Bool) (h : Between link address 1 r) {l : ListHeader}
    (hl : r.now.mem.list = some l) :
    ∃ r', includeLoop link address includeElement r.now.mem.listNodes.size 0 l.head r = some r' ∧
      Between link address 2 r' := by
  obtain ⟨ps, hlist⟩ := h.exact.sound.list l hl
  have hnumber : ∀ e, listNumber r.now.mem.listNodes e = holding r.now.mem.listNodes ps e :=
    fun e => Heap.number_eq_countP hlist.nodup hlist.live
  have hone : ∀ e, listNumber r.now.mem.listNodes e + treeNumber r.now.mem.treeNodes e ≤ 1 :=
    h.number
  rw [hlist.head]
  refine includeLoop_spec r.now.mem.listNodes.size 0
    ⟨h.good, h.owned, fun e => Nat.le_succ_of_le (h.number e), h.list, h.tree⟩ hlist.chain
    hlist.length_le (fun e => Nat.le_trans (Nat.le_add_right _ _) (hone e)) fun e => ?_
  rw [← hnumber, Nat.add_comm]
  exact hone e

/-- **`main`** is a run with few references, after which nothing is left. -/
theorem main_spec (includeElement : ℕ → Bool) (argv : List Str) :
    ∃ out r, main link address includeElement argv = some (out, r) ∧ Good link address r ∧
      r.now.mem.list = none ∧ r.now.mem.tree = none ∧ r.now.owned = [] := by
  have hstart : Between link address 1 ⟨.start, []⟩ := between_start
  obtain ⟨a, r₁, hint, h₁⟩ := test_spec hstart (.inl ⟨42, rfl⟩)
  obtain ⟨b, r₂, hstr, h₂⟩ := test_spec h₁ (.inr ⟨hello, rfl⟩)
  obtain ⟨r₃, hparse, h₃⟩ := parseLoop_spec argv h₂
  obtain ⟨l₃, hl₃⟩ := Option.ne_none_iff_exists'.mp h₃.list
  obtain ⟨r₄, hinc, h₄⟩ := h₃.include includeElement hl₃
  obtain ⟨tree, htree⟩ := h₄.exact.print address h₄.tree
  obtain ⟨l₄, hl₄⟩ := Option.ne_none_iff_exists'.mp h₄.list
  obtain ⟨ints, hints⟩ := h₄.printLoop hl₄ fun a =>
    if is_int_element link a then a.intValue else none
  obtain ⟨strings, hstrings⟩ := h₄.printLoop hl₄ fun a =>
    if is_str_element link a then a.strValue else none
  have hlt : ∀ s : Program, Exact s → (∀ e, s.mem.number e ≤ 2) → ∀ e, s.references e < 2 ^ 31 :=
    fun s hs hle e => references_lt hs.nodup (hle e) (by decide)
  obtain ⟨s₅, hrun₅, hexact₅, howned₅, hlist₅, htree₅, hle₅⟩ := h₄.exact.deleteList link address
    h₄.list fun e => Nat.lt_trans (hlt _ h₄.exact h₄.number e) (by decide)
  have hnumber₅ : ∀ e, s₅.mem.number e ≤ 2 := fun e => Nat.le_trans (hle₅ e) (h₄.number e)
  have hvalid₅ : Op.deleteList.Valid r₄.now := h₄.list
  obtain ⟨hcall₅, hgood₅⟩ := h₄.good.call hvalid₅ hrun₅ (hlt s₅ hexact₅ hnumber₅)
  have hlive₅ : s₅.mem.tree ≠ none := htree₅ ▸ h₄.tree
  obtain ⟨treeAfter, htreeAfter⟩ := hexact₅.print address hlive₅
  obtain ⟨s₆, hrun₆, hexact₆, howned₆, htree₆, hlist₆, hle₆⟩ := hexact₅.deleteTree link address
    hlive₅ fun e => Nat.lt_trans (hlt _ hexact₅ hnumber₅ e) (by decide)
  have hvalid₆ : Op.deleteTree.Valid s₅ := hlive₅
  obtain ⟨hcall₆, hgood₆⟩ := hgood₅.call hvalid₆ hrun₆
    (hlt s₆ hexact₆ fun e => Nat.le_trans (hle₆ e) (hnumber₅ e))
  refine ⟨⟨a, b, tree, ints, strings, treeAfter⟩, _, ?_, hgood₆, hlist₆.trans hlist₅, htree₆,
    howned₆.trans (howned₅.trans h₄.owned)⟩
  unfold main
  refine Option.bind_eq_some_iff.mpr ⟨_, hint, ?_⟩
  refine Option.bind_eq_some_iff.mpr ⟨_, hstr, ?_⟩
  refine Option.bind_eq_some_iff.mpr ⟨_, hparse, ?_⟩
  refine Option.bind_eq_some_iff.mpr ⟨_, hl₃, ?_⟩
  refine Option.bind_eq_some_iff.mpr ⟨_, hinc, ?_⟩
  refine Option.bind_eq_some_iff.mpr ⟨_, htree, ?_⟩
  refine Option.bind_eq_some_iff.mpr ⟨_, hl₄, ?_⟩
  refine Option.bind_eq_some_iff.mpr ⟨_, hints, ?_⟩
  refine Option.bind_eq_some_iff.mpr ⟨_, hstrings, ?_⟩
  refine Option.bind_eq_some_iff.mpr ⟨_, hcall₅, ?_⟩
  refine Option.bind_eq_some_iff.mpr ⟨_, htreeAfter, ?_⟩
  exact Option.bind_eq_some_iff.mpr ⟨_, hcall₆, rfl⟩

/-! ### Exact counters -/

/-- **The counters are exact.** The finalizer of an element runs when there are no more references
to it, and then its block is freed; no call touches what has been freed. -/
structure Counted (link : Link) (address : ℕ → BitVec 64) (s : Program) : Prop where
  refcount : ∀ e x, s.mem.elems.blocks.get e = some x → x.refcount.toInt =
    (if e ∈ s.owned then 1 else 0) + listNumber s.mem.listNodes e + treeNumber s.mem.treeNodes e
  live : ∀ e, s.Live e ↔ e ∈ s.owned ∨ 0 < s.mem.number e
  events : ∀ e < s.mem.elems.blocks.size, s.mem.elems.eventsOf e =
    if e ∈ s.owned ∨ 0 < s.mem.number e then [] else [.finalized e, .freed e]
  nothing_left : s.mem.list = none → s.mem.tree = none → s.owned = [] → (∀ e, ¬s.Live e) ∧
    (∀ p, s.mem.elems.strings.get p = none) ∧
    ∀ e < s.mem.elems.blocks.size, s.mem.elems.eventsOf e = [.finalized e, .freed e]
  run : ∀ op : Op, op.Valid s → ∃ s', op.run link address s = some s'

theorem references_pos {s : Program} : 0 < s.references e ↔ e ∈ s.owned ∨ 0 < s.mem.number e := by
  rw [Program.references, Nat.add_pos_iff_pos_or_pos, List.count_pos_iff]

theorem counted_of_reach {s : Program} (hr : Reach link address s) : Counted link address s := by
  obtain ⟨hexact, hlt⟩ := exact_of_reach hr
  have hevents : ∀ e < s.mem.elems.blocks.size, s.mem.elems.eventsOf e =
      if e ∈ s.owned ∨ 0 < s.mem.number e then [] else [.finalized e, .freed e] := by
    intro e he
    rw [hexact.held.events e]
    by_cases hpos : 0 < s.references e
    · rw [if_neg fun h => Nat.ne_of_gt hpos h.2, if_pos (references_pos.mp hpos)]
    · rw [if_pos ⟨he, Nat.eq_zero_of_not_pos hpos⟩, if_neg (references_pos.not.mp hpos)]
  refine ⟨fun e x hx => ?_, fun e => hexact.live_iff.trans references_pos, hevents,
    fun hlist htree howned => ?_, fun op hv => ?_⟩
  · obtain ⟨y, o, hy, hhas⟩ := hexact.held.live e (hexact.held.pos_iff.mpr ⟨x, hx⟩)
    obtain rfl := Option.some.inj (hx.symm.trans hy)
    rw [hhas.refcount, Counter.toInt_ofNat (hlt e), Program.references, hexact.nodup.count, number]
    split <;> omega
  · obtain ⟨hzero, hblocks, hstrings⟩ := hexact.nothing_left hlist htree howned
    refine ⟨fun e hlive => ?_, hstrings, fun e he => ?_⟩
    · obtain ⟨x, hx⟩ := hlive
      rw [hblocks e] at hx
      cases hx
    · rw [hexact.held.events e, if_pos ⟨he, hzero e⟩]
  · obtain ⟨s', hrun, -⟩ := hexact.run link address (fun e => Nat.lt_trans (hlt e) (by decide)) hv
    exact ⟨s', hrun⟩

/-- **Reference counts are exact** in all runs in which no element has `2 ^ 31` references, and in
all states of `main`, after which nothing is left. -/
theorem references_exact (link : Link) (address : ℕ → BitVec 64) :
    (∀ s, ((sys link address).restrict (Few link address)).Reach s → Counted link address s) ∧
    ∀ includeElement argv, ∃ out r, main link address includeElement argv = some (out, r) ∧
      (∀ s ∈ r.past ++ [r.now], Counted link address s) ∧
      r.now.mem.list = none ∧ r.now.mem.tree = none ∧ r.now.owned = [] := by
  refine ⟨fun s hr => counted_of_reach hr, fun includeElement argv => ?_⟩
  obtain ⟨out, r, hmain, hgood, hend⟩ := main_spec includeElement argv
  refine ⟨out, r, hmain, fun s hs => counted_of_reach ?_, hend⟩
  rcases List.mem_append.mp hs with hs | hs
  · exact hgood.past s hs
  · rw [List.mem_singleton.mp hs]
    exact hgood.now

/-- The list and the creator share one element. -/
def shared : Program where
  mem :=
    { elems := ⟨⟨[some ⟨2, some .int_elem_finalizer, some (.int 5)⟩]⟩, .empty, []⟩
      listNodes := ⟨[some ⟨0, none, none⟩]⟩
      list := some ⟨some 0, some 0⟩
      treeNodes := .empty
      tree := some none }
  owned := [0]

/-- Before it is in the list. -/
def single : Program where
  mem :=
    { elems := ⟨⟨[some ⟨1, some .int_elem_finalizer, some (.int 5)⟩]⟩, .empty, []⟩
      listNodes := .empty
      list := some ⟨none, none⟩
      treeNodes := .empty
      tree := some none }
  owned := [0]

theorem step_single : (sys link address).step .start (.newInt 5) single := ⟨trivial, rfl⟩

theorem step_shared : (sys link address).step single (.add 0) shared := ⟨⟨nofun, _, rfl⟩, rfl⟩

theorem references_exact_shared : Counted mainLink (fun _ => 0) shared := by
  have hfew : ∀ s op s', (sys mainLink fun _ => 0).step s op s' → s'.owned.length = 1 →
      s'.mem.listNodes.size + s'.mem.treeNodes.size ≤ 1 → Few mainLink (fun _ => 0) s op := by
    intro s op s' hstep howned hsize s₁ hrun e
    obtain rfl := Option.some.inj (hstep.2.symm.trans hrun)
    have hcount : s'.owned.count e ≤ s'.owned.length := List.count_le_length
    have hnumber := number_le s'.mem e
    rw [Program.references]
    omega
  have hstart : Reach mainLink (fun _ => 0) .start := .init rfl
  have hsingle := hstart.step_restrict (hfew _ _ _ step_single rfl (by decide)) step_single
  exact (references_exact mainLink fun _ => 0).1 _
    (hsingle.step_restrict (hfew _ _ _ step_shared rfl (by decide)) step_shared)

theorem reach_often (k : ℕ) : ∃ s, (sys link address).Reach s ∧ Exact s ∧ s.mem.list ≠ none ∧
    s.owned = [0] ∧ s.mem.number 0 = k := by
  induction k with
  | zero =>
    have hstep : (sys link address).step .start (.newInt 5) single := step_single
    obtain ⟨s', hrun, hexact⟩ := exact_start.run link address
      (fun e => by rw [references_start]; decide) hstep.1
    obtain rfl := Option.some.inj (hstep.2.symm.trans hrun)
    exact ⟨single, .step (.init rfl) hstep, hexact, nofun, rfl, rfl⟩
  | succ k ih =>
    obtain ⟨s, hr, hexact, hlist, howned, hnumber⟩ := ih
    have hlive : s.Live 0 := hexact.live_of_owned (howned ▸ List.mem_singleton.mpr rfl)
    obtain ⟨s', hrun, hexact', howned', hlist', -, hnumber'⟩ :=
      hexact.add link address hlist hlive
    have hvalid : (Op.add 0).Valid s := ⟨hlist, hlive⟩
    refine ⟨s', hr.step ⟨hvalid, hrun⟩, hexact', hlist', howned'.trans howned, ?_⟩
    rw [hnumber', hnumber, if_pos rfl]

/-- **A counter of 32 bits** cannot count `2 ^ 31` references. -/
theorem too_many_references : ¬∀ s, (sys mainLink fun _ => 0).Reach s → ∀ e x,
    s.mem.elems.blocks.get e = some x → x.refcount.toInt = (if e ∈ s.owned then 1 else 0) +
      listNumber s.mem.listNodes e + treeNumber s.mem.treeNodes e := by
  intro hall
  obtain ⟨s, hr, hexact, -, howned, hnumber⟩ := reach_often (2 ^ 31 - 1)
  have hcount : s.references 0 = 2 ^ 31 := by
    rw [Program.references, howned, hnumber]
    rfl
  obtain ⟨x, o, hx, hhas⟩ := hexact.held.live 0 (by rw [hcount]; decide)
  have hint := hall s hr 0 x hx
  have hmem : 0 ∈ s.owned := howned ▸ List.mem_singleton.mpr rfl
  rw [hhas.refcount, hcount, if_pos hmem] at hint
  have hneg : (BitVec.ofNat 32 (2 ^ 31)).toInt < 0 := by decide
  omega

end IntroSystems.Elements.A7
