import IntroSystems.Lib.Heap

/-!
# Promises

`promise.c` of assignment 9. A pointer is a number, `NULL` is `none`, and `none` as a result is the
use of a `NULL` pointer, or a call of `promise_resolve` that is deeper than the given fuel.

* `promiseNew`, `promiseResolve`, `promiseThen`.
* `run`: calls of `promise_then` on promises that have been returned, and between them the call of
  `promise_resolve` on the first one.
-/

set_option autoImplicit false

namespace IntroSystems.Promises

/-- A block that computes with values. Each evaluation of a block literal makes another one. -/
structure Block (V : Type) where
  tag : ℕ
  body : V → V

/-- `struct promise`. -/
structure Promise (V : Type) where
  is_resolved : Bool
  value : V
  on_fulfilled : Option (Block V)
  fulfilled_promise : Option ℕ
  parent : Option ℕ

/-- The promises, and the tags of the blocks that have been run. -/
structure State (V : Type) where
  heap : Heap (Promise V)
  ran : List ℕ

/-- A call of `promise_then`: the promise, and what its block computes. -/
abbrev Then (V : Type) := ℕ × (V → V)

variable {V : Type} [Zero V]

/-- The value of a new promise is `NULL`, which is `0`. -/
def promiseNew (s : State V) (parent : Option ℕ) : State V × ℕ :=
  ({ s with heap := s.heap.alloc ⟨false, 0, none, none, parent⟩ }, s.heap.size)

omit [Zero V] in
/-- Run a block. -/
def Block.call (f : Block V) (s : State V) (value : V) : State V × V :=
  ({ s with ran := s.ran ++ [f.tag] }, f.body value)

omit [Zero V] in
def promiseResolve : ℕ → State V → Option ℕ → V → Option (State V)
  | 0, _, _, _ => none
  | fuel + 1, s, p, value => do
    let p ← p
    let c ← s.heap.get p
    let heap ← s.heap.set p { c with is_resolved := true, value }
    match c.on_fulfilled with
    | none => some { s with heap }
    | some f =>
      let (s, v) := f.call { s with heap } value
      promiseResolve fuel s c.fulfilled_promise v

/-- The new state, and the promise that is returned. -/
def promiseThen (fuel : ℕ) (s : State V) (p : ℕ) (on_fulfilled : Block V) :
    Option (State V × ℕ) := do
  let (s, tp) := promiseNew s (some p)
  let c ← s.heap.get p
  if c.is_resolved then
    let (s, v) := on_fulfilled.call s c.value
    let s ← promiseResolve fuel s (some tp) v
    some (s, tp)
  else do
    let heap ← s.heap.set p
      { c with on_fulfilled := some on_fulfilled, fulfilled_promise := some tp }
    some ({ s with heap }, tp)

/-! ## Runs -/

/-- `promise_new (NULL)`. -/
def start : State V := (promiseNew ⟨Heap.empty, []⟩ none).1

/-- As many calls as there are promises, and one more, are deep enough. -/
def depth (s : State V) : ℕ := s.heap.size + 1

/-- One call of `promise_then`. The new block gets the number of the promise that is returned. -/
def callThen (s : State V) (t : Then V) : Option (State V) :=
  (promiseThen (depth s) s t.1 ⟨s.heap.size, t.2⟩).map Prod.fst

/-- Calls of `promise_then` before the first promise is resolved, and after that. -/
def run (before after : List (Then V)) (value : V) : Option (State V) := do
  let s ← before.foldlM callThen start
  let s ← promiseResolve (depth s) s (some 0) value
  after.foldlM callThen s

/-- Every call is on a promise that there is by then. -/
def Legal (thens : List (Then V)) : Prop := ∀ (k : ℕ) (t : Then V), thens[k]? = some t → t.1 ≤ k

/-- Every block that was registered with a promise that is resolved has been run once, on the value
of the promise, and has resolved the promise that was returned. -/
def Kept (thens : List (Then V)) (s : State V) : Prop :=
  ∀ (k p : ℕ) (f : V → V) (c : Promise V), thens[k]? = some (p, f) → s.heap.get p = some c →
    c.is_resolved = true → ∃ d, s.heap.get (k + 1) = some d ∧ d.is_resolved = true ∧
      d.value = f c.value ∧ s.ran.count (k + 1) = 1

end IntroSystems.Promises
