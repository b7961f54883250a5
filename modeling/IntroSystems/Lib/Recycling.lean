import IntroSystems.Lib.Heap
import Mathlib.Data.List.Nodup

/-!
# Queues that recycle their records

A queue of records that are linked from the front to the back through `prev`. A record that has been
taken out goes to a free list, linked through `next`, from which new ones are taken first. Old links
stay in records that are in use.

* `Queue`, `acquire`, `enqueue`, `dequeue`, `clearNext`.
* `Path`: the records along a link. `Path.put_of_notMem`, `Path.extend`.
* `Recycles`: the records in line and the free ones are disjoint, and all there are.
* **`Recycles.enqueue`**, **`Recycles.dequeue`**: they are a list to which one adds at one end and
  from which one takes at the other.
-/

set_option autoImplicit false

namespace IntroSystems.Recycling

/-- A record. `NULL` is `none`. -/
structure Cell (α : Type) where
  val : α
  prev : Option ℕ
  next : Option ℕ

/-- All records, and the pointers to three of them. -/
structure Queue (α : Type) where
  cells : Heap (Cell α)
  front : Option ℕ
  back : Option ℕ
  free : Option ℕ

variable {α : Type}

namespace Queue

def empty : Queue α := ⟨Heap.empty, none, none, none⟩

/-- A record off the free list, or else a new one with the contents `new`. -/
def acquire (q : Queue α) (new : Cell α) : Option (Queue α × ℕ) :=
  match q.free with
  | none => some ({ q with cells := q.cells.alloc new }, q.cells.size)
  | some p => (q.cells.get p).map fun c => ({ q with free := c.next }, p)

/-- Put the record `p` at the back. -/
def link (q : Queue α) (p : ℕ) : Option (Queue α) :=
  match q.back with
  | none => some { q with front := some p, back := some p }
  | some b => do
    let c ← q.cells.get b
    let cells ← q.cells.set b { c with prev := some p }
    some { q with cells, back := some p }

/-- A record with `a` in it, and links for the back. -/
def prepare (q : Queue α) (a : α) : Option (Queue α × ℕ) := do
  let (q, p) ← q.acquire ⟨a, none, none⟩
  let cells ← q.cells.set p ⟨a, none, q.back⟩
  some ({ q with cells }, p)

def enqueue (q : Queue α) (a : α) : Option (Queue α) := do
  let (q, p) ← q.prepare a
  q.link p

/-- Move the record at the front to the free list. -/
def dequeue (q : Queue α) : Option (Queue α) :=
  match q.front with
  | none => some q
  | some p => do
    let c ← q.cells.get p
    let cells ← q.cells.set p { c with next := q.free }
    some { cells, front := c.prev, back := if c.prev = none then none else q.back, free := some p }

/-- `front->next = NULL`. -/
def clearNext (q : Queue α) : Option (Queue α) :=
  match q.front with
  | none => some q
  | some p => do
    let c ← q.cells.get p
    let cells ← q.cells.set p { c with next := none }
    some { q with cells }

end Queue

/-! ## Paths -/

/-- The link `f` leads from `p` through the records `ps` to its end. -/
def Path (h : Heap (Cell α)) (f : Cell α → Option ℕ) : Option ℕ → List ℕ → Prop
  | p, [] => p = none
  | p, q :: qs => p = some q ∧ ∃ c, h.get q = some c ∧ Path h f (f c) qs

variable {h : Heap (Cell α)} {f : Cell α → Option ℕ} {p b : ℕ} {start : Option ℕ} {ps : List ℕ}
  {c d : Cell α}

theorem Path.head (hp : Path h f start ps) : start = ps.head? := by
  cases ps with
  | nil => exact hp
  | cons q qs => exact hp.1

theorem Path.congr {h' : Heap (Cell α)} (hp : Path h f start ps)
    (hsame : ∀ q ∈ ps, ∀ c, h.get q = some c → ∃ c', h'.get q = some c' ∧ f c' = f c) :
    Path h' f start ps := by
  induction ps generalizing start with
  | nil => exact hp
  | cons q qs ih =>
    obtain ⟨rfl, c, hc, hrest⟩ := hp
    obtain ⟨c', hc', he⟩ := hsame q List.mem_cons_self c hc
    refine ⟨rfl, c', hc', ?_⟩
    rw [he]
    exact ih hrest fun r hr => hsame r (List.mem_cons_of_mem q hr)

theorem Path.put_of_notMem (hp : Path h f start ps) (hq : p ∉ ps) (x : Option (Cell α)) :
    Path (h.put p x) f start ps := by
  refine hp.congr fun q hmem c hc => ⟨c, ?_, rfl⟩
  have hne : q ≠ p := fun e => hq (e ▸ hmem)
  rw [Heap.get_put_of_ne hne, hc]

theorem Path.put_of_link (hp : Path h f start ps) (hc : h.get p = some c)
    (hl : f d = f c) : Path (h.put p (some d)) f start ps := by
  refine hp.congr fun q _ e he => ?_
  by_cases hqp : q = p
  · subst hqp
    rw [hc] at he
    cases he
    exact ⟨d, Heap.get_put_self hc, hl⟩
  · exact ⟨e, by rw [Heap.get_put_of_ne hqp, he], rfl⟩

theorem Path.alloc (hp : Path h f start ps) : Path (h.alloc c) f start ps :=
  hp.congr fun _ _ _ hc => ⟨_, Heap.get_alloc_of_get hc, rfl⟩

/-- **A longer path**: its last record gets a link to `p`, whose own link is at its end. -/
theorem Path.extend (hp : Path h f start (ps ++ [b])) (hb : b ∉ ps) (hl : f d = some p)
    (hc : h.get p = some c) (hend : f c = none) (hpb : p ≠ b) :
    Path (h.put b (some d)) f start (ps ++ [b] ++ [p]) := by
  induction ps generalizing start with
  | nil =>
    obtain ⟨rfl, e, he, -⟩ := hp
    refine ⟨rfl, d, Heap.get_put_self he, hl, c, ?_, hend⟩
    rw [Heap.get_put_of_ne hpb, hc]
  | cons q qs ih =>
    obtain ⟨rfl, e, he, hrest⟩ := hp
    have hqb : q ≠ b := fun h => hb (by simp [h])
    refine ⟨rfl, e, ?_, ih hrest fun h => hb (by simp [h])⟩
    rw [Heap.get_put_of_ne hqb, he]

/-! ## The records -/

/-- The records in `line`, with what they carry, and those in `spare`. -/
structure Recycles (q : Queue α) (line : List (ℕ × α)) (spare : List ℕ) : Prop where
  front : Path q.cells Cell.prev q.front (line.map Prod.fst)
  back : q.back = (line.map Prod.fst).getLast?
  free : Path q.cells Cell.next q.free spare
  vals : ∀ p a, (p, a) ∈ line → ∃ c, q.cells.get p = some c ∧ c.val = a
  nodup : (line.map Prod.fst ++ spare).Nodup
  all : ∀ p, p ∈ line.map Prod.fst ++ spare ↔ ∃ c, q.cells.get p = some c

/-- As before, but there is also the record `p`, in neither list. -/
structure Ready (q : Queue α) (line : List (ℕ × α)) (spare : List ℕ) (p : ℕ) : Prop where
  front : Path q.cells Cell.prev q.front (line.map Prod.fst)
  back : q.back = (line.map Prod.fst).getLast?
  free : Path q.cells Cell.next q.free spare
  vals : ∀ r b, (r, b) ∈ line → ∃ c, q.cells.get r = some c ∧ c.val = b
  nodup : (p :: (line.map Prod.fst ++ spare)).Nodup
  all : ∀ r, r ∈ p :: (line.map Prod.fst ++ spare) ↔ ∃ c, q.cells.get r = some c

variable {q q' : Queue α} {line : List (ℕ × α)} {spare : List ℕ} {a : α} {x : ℕ × α}

theorem fst_mem (hx : x ∈ line) : x.1 ∈ line.map Prod.fst := List.mem_map_of_mem hx

theorem Ready.put (hr : Ready q line spare p) (d : Cell α) :
    Ready { q with cells := q.cells.put p (some d) } line spare p := by
  obtain ⟨c, hc⟩ := (hr.all p).mp List.mem_cons_self
  obtain ⟨hp, -⟩ := List.nodup_cons.mp hr.nodup
  rw [List.mem_append, not_or] at hp
  refine ⟨hr.front.put_of_notMem hp.1 _, hr.back, hr.free.put_of_notMem hp.2 _, ?_, hr.nodup, ?_⟩
  · intro r b hm
    have hne : r ≠ p := fun e => hp.1 (e ▸ fst_mem hm)
    obtain ⟨e, he, heb⟩ := hr.vals r b hm
    exact ⟨e, by rw [Heap.get_put_of_ne hne, he], heb⟩
  · intro r
    rw [hr.all r]
    exact (Heap.live_put hc).symm

/-- **The record joins the line.** -/
theorem Ready.link (hr : Ready q line spare p) (hc : q.cells.get p = some c)
    (hend : c.prev = none) :
    ∃ q', q.link p = some q' ∧ Recycles q' (line ++ [(p, c.val)]) spare := by
  obtain ⟨hp, hnd⟩ := List.nodup_cons.mp hr.nodup
  have hnd' : ((line ++ [(p, c.val)]).map Prod.fst ++ spare).Nodup := by
    have := List.nodup_middle.mpr hr.nodup
    simpa using this
  have hlast : some p = ((line ++ [(p, c.val)]).map Prod.fst).getLast? := by simp
  have hall : ∀ r, r ∈ (line ++ [(p, c.val)]).map Prod.fst ++ spare ↔
      ∃ c, q.cells.get r = some c := by
    intro r
    rw [← hr.all r]
    simp only [List.map_append, List.map_cons, List.map_nil, List.mem_append, List.mem_cons,
      List.not_mem_nil, or_false]
    tauto
  unfold Queue.link
  rcases List.eq_nil_or_concat line with rfl | ⟨front, ⟨b, x⟩, rfl⟩
  · rw [hr.back]
    refine ⟨_, rfl, ⟨⟨rfl, c, hc, hend⟩, hlast, hr.free, fun r y hm => ?_, hnd', hall⟩⟩
    cases List.mem_singleton.mp hm
    exact ⟨c, hc, rfl⟩
  · -- the record at the back is linked to the new one
    rw [List.concat_eq_append] at *
    have hmem : (b, x) ∈ front ++ [(b, x)] := by simp
    obtain ⟨e, he, hex⟩ := hr.vals b x hmem
    have hpb : p ≠ b := fun h => hp (List.mem_append_left _ (h ▸ fst_mem hmem))
    have hbs : b ∉ spare := fun h => (List.nodup_append.mp hnd).2.2 b (fst_mem hmem) b h rfl
    have hbf : b ∉ front.map Prod.fst := fun h => by
      have hl := (List.nodup_append.mp hnd).1
      rw [List.map_append] at hl
      exact (List.nodup_append.mp hl).2.2 b h b (by simp) rfl
    have hback : q.back = some b := by
      rw [hr.back]
      simp
    have hfront := hr.front
    rw [List.map_append] at hfront
    have hpath := hfront.extend (d := { e with prev := some p }) hbf rfl hc hend hpb
    rw [hback]
    simp only [Option.bind_eq_bind, he, Option.bind_some, Heap.set_eq he]
    refine ⟨_, rfl, ⟨?_, hlast, hr.free.put_of_notMem hbs _, fun r y hm => ?_, hnd', fun r => ?_⟩⟩
    · rw [List.map_append, List.map_append]
      exact hpath
    · rcases List.mem_append.mp hm with hm | hm
      · obtain ⟨e', he', hy⟩ := hr.vals r y hm
        by_cases hrb : r = b
        · subst hrb
          rw [he] at he'
          cases he'
          exact ⟨_, Heap.get_put_self he, hy⟩
        · exact ⟨e', by rw [Heap.get_put_of_ne hrb, he'], hy⟩
      · cases List.mem_singleton.mp hm
        exact ⟨c, by rw [Heap.get_put_of_ne hpb, hc], rfl⟩
    · rw [hall r]
      exact (Heap.live_put he).symm

/-! ## Nothing is freed -/

section Full

open Queue

variable {new : Cell α}

theorem full_acquire (hf : q.cells.Full) (h : q.acquire new = some (q', p)) : q'.cells.Full := by
  unfold acquire at h
  split at h
  · cases h
    exact hf.alloc
  · obtain ⟨c, -, hq⟩ := Option.map_eq_some_iff.mp h
    cases hq
    exact hf

theorem full_link (hf : q.cells.Full) (h : q.link p = some q') : q'.cells.Full := by
  unfold link at h
  split at h
  · cases h
    exact hf
  · obtain ⟨c, -, h⟩ := Option.bind_eq_some_iff.mp h
    obtain ⟨cells, hset, h⟩ := Option.bind_eq_some_iff.mp h
    cases h
    exact hf.set hset

theorem full_enqueue (hf : q.cells.Full) (h : q.enqueue a = some q') : q'.cells.Full := by
  obtain ⟨⟨q₁, p⟩, hprep, hlink⟩ := Option.bind_eq_some_iff.mp h
  obtain ⟨⟨q₂, r⟩, hacq, hprep⟩ := Option.bind_eq_some_iff.mp hprep
  obtain ⟨cells, hset, hprep⟩ := Option.bind_eq_some_iff.mp hprep
  cases hprep
  exact full_link ((full_acquire hf hacq).set hset) hlink

theorem full_dequeue (hf : q.cells.Full) (h : q.dequeue = some q') : q'.cells.Full := by
  unfold dequeue at h
  split at h
  · cases h
    exact hf
  · obtain ⟨c, -, h⟩ := Option.bind_eq_some_iff.mp h
    obtain ⟨cells, hset, h⟩ := Option.bind_eq_some_iff.mp h
    cases h
    exact hf.set hset

theorem full_clearNext (hf : q.cells.Full) (h : q.clearNext = some q') : q'.cells.Full := by
  unfold clearNext at h
  split at h
  · cases h
    exact hf
  · obtain ⟨c, -, h⟩ := Option.bind_eq_some_iff.mp h
    obtain ⟨cells, hset, h⟩ := Option.bind_eq_some_iff.mp h
    cases h
    exact hf.set hset

theorem size_dequeue (h : q.dequeue = some q') : q'.cells.size = q.cells.size := by
  unfold dequeue at h
  split at h
  · cases h
    rfl
  · obtain ⟨c, -, h⟩ := Option.bind_eq_some_iff.mp h
    obtain ⟨cells, hset, h⟩ := Option.bind_eq_some_iff.mp h
    cases h
    exact Heap.size_set hset

theorem size_clearNext (h : q.clearNext = some q') : q'.cells.size = q.cells.size := by
  unfold clearNext at h
  split at h
  · cases h
    rfl
  · obtain ⟨c, -, h⟩ := Option.bind_eq_some_iff.mp h
    obtain ⟨cells, hset, h⟩ := Option.bind_eq_some_iff.mp h
    cases h
    exact Heap.size_set hset

end Full

namespace Recycles

theorem lt_size_iff (hr : Recycles q line spare) (hf : q.cells.Full) :
    p < q.cells.size ↔ p ∈ line.map Prod.fst ++ spare := by
  rw [hr.all]
  refine ⟨hf p, ?_⟩
  rintro ⟨c, hc⟩
  exact Heap.lt_size hc

theorem length_add (hr : Recycles q line spare) (hf : q.cells.Full) :
    line.length + spare.length = q.cells.size := by
  have hperm : (line.map Prod.fst ++ spare).Perm (List.range q.cells.size) :=
    (List.perm_ext_iff_of_nodup hr.nodup List.nodup_range).mpr fun p => by
      rw [List.mem_range, hr.lt_size_iff hf]
  simpa using hperm.length_eq

theorem empty : Recycles (Queue.empty : Queue α) [] [] where
  front := rfl
  back := rfl
  free := rfl
  vals := fun _ _ h => absurd h List.not_mem_nil
  nodup := List.nodup_nil
  all := fun p => by simp [Queue.empty, Heap.empty, Heap.get]

theorem front_eq (hr : Recycles q line spare) : q.front = line.head?.map Prod.fst := by
  rw [hr.front.head, List.head?_map]

theorem front_cell (hr : Recycles q ((p, a) :: line) spare) :
    q.front = some p ∧ ∃ c, q.cells.get p = some c ∧ c.val = a :=
  ⟨hr.front.1, hr.vals p a List.mem_cons_self⟩

theorem acquire (hr : Recycles q line spare) (new : Cell α) :
    ∃ q' p spare', q.acquire new = some (q', p) ∧ Ready q' line spare' p := by
  unfold Queue.acquire
  cases spare with
  | nil =>
    have hfree : q.free = none := hr.free
    have hnew : q.cells.size ∉ line.map Prod.fst ++ [] := fun hm => by
      obtain ⟨c, hc⟩ := (hr.all _).mp hm
      rw [Heap.get_size] at hc
      cases hc
    rw [hfree]
    refine ⟨_, _, [], rfl, hr.front.alloc, hr.back, rfl, fun r b hm => ?_,
      List.nodup_cons.mpr ⟨hnew, hr.nodup⟩, fun r => ?_⟩
    · obtain ⟨c, hc, hcb⟩ := hr.vals r b hm
      exact ⟨c, Heap.get_alloc_of_get hc, hcb⟩
    · by_cases hrp : r = q.cells.size
      · subst hrp
        exact iff_of_true List.mem_cons_self ⟨new, Heap.get_alloc_self⟩
      · rw [List.mem_cons, or_iff_right hrp, hr.all r]
        exact exists_congr fun c => by rw [Heap.get_alloc_of_ne hrp]
  | cons p spare =>
    obtain ⟨hfree, c, hc, hrest⟩ := hr.free
    rw [hfree]
    simp only [hc, Option.map_some]
    refine ⟨_, p, spare, rfl, hr.front, hr.back, hrest, hr.vals, List.nodup_middle.mp hr.nodup,
      fun r => ?_⟩
    rw [← hr.all r]
    simp only [List.mem_append, List.mem_cons]
    tauto

/-- **A new value joins at the back.** -/
theorem enqueue (hr : Recycles q line spare) (a : α) :
    ∃ q' p spare', q.enqueue a = some q' ∧ Recycles q' (line ++ [(p, a)]) spare' := by
  obtain ⟨q₁, p, spare', hacq, hready⟩ := hr.acquire ⟨a, none, none⟩
  obtain ⟨c, hc⟩ := (hready.all p).mp List.mem_cons_self
  obtain ⟨q₂, hlink, hr₂⟩ := (hready.put ⟨a, none, q₁.back⟩).link (Heap.get_put_self hc) rfl
  refine ⟨q₂, p, spare', ?_, hr₂⟩
  unfold Queue.enqueue Queue.prepare
  simp only [Option.bind_eq_bind, hacq, Option.bind_some, Heap.set_eq hc]
  exact hlink

/-- **The value at the front leaves**, and its record is free. -/
theorem dequeue (hr : Recycles q ((p, a) :: line) spare) :
    ∃ q', q.dequeue = some q' ∧ Recycles q' line (p :: spare) := by
  obtain ⟨hfront, c, hc, hrest⟩ := hr.front
  have hnd : (p :: (line.map Prod.fst ++ spare)).Nodup := hr.nodup
  obtain ⟨hp, -⟩ := List.nodup_cons.mp hnd
  rw [List.mem_append, not_or] at hp
  unfold Queue.dequeue
  rw [hfront]
  simp only [Option.bind_eq_bind, hc, Option.bind_some, Heap.set_eq hc]
  refine ⟨_, rfl, hrest.put_of_notMem hp.1 _, ?_, ?_, ?_, List.nodup_middle.mpr hnd, fun r => ?_⟩
  · have hhead := hrest.head
    have hback := hr.back
    cases line with
    | nil => exact if_pos hhead
    | cons x line =>
      rw [if_neg (by rw [hhead]; simp), hback]
      simp
  · exact ⟨rfl, _, Heap.get_put_self hc, hr.free.put_of_notMem hp.2 _⟩
  · intro r b hm
    obtain ⟨e, he, heb⟩ := hr.vals r b (List.mem_cons_of_mem _ hm)
    have hne : r ≠ p := fun h => hp.1 (h ▸ fst_mem hm)
    exact ⟨e, by rw [Heap.get_put_of_ne hne, he], heb⟩
  · rw [Heap.live_put hc, ← hr.all r]
    simp only [List.map_cons, List.cons_append, List.mem_append, List.mem_cons]
    tauto

theorem clearNext (hr : Recycles q line spare) :
    ∃ q', q.clearNext = some q' ∧ Recycles q' line spare := by
  unfold Queue.clearNext
  cases line with
  | nil =>
    rw [hr.front_eq]
    exact ⟨q, rfl, hr⟩
  | cons x line =>
    obtain ⟨hfront, c, hc, -⟩ := hr.front
    have hps : x.1 ∉ spare := fun h =>
      (List.nodup_append.mp hr.nodup).2.2 x.1 (fst_mem List.mem_cons_self) x.1 h rfl
    have hline := hr.front.put_of_link (d := { c with next := none }) hc rfl
    rw [hfront] at hline ⊢
    simp only [Option.bind_eq_bind, hc, Option.bind_some, Heap.set_eq hc]
    refine ⟨_, rfl, hline, hr.back, hr.free.put_of_notMem hps _, ?_, hr.nodup,
      fun r => ?_⟩
    · intro r b hm
      obtain ⟨e, he, heb⟩ := hr.vals r b hm
      by_cases hrx : r = x.1
      · subst hrx
        rw [hc] at he
        cases he
        exact ⟨_, Heap.get_put_self hc, heb⟩
      · exact ⟨e, by rw [Heap.get_put_of_ne hrx, he], heb⟩
    · rw [hr.all r]
      exact (Heap.live_put hc).symm

end Recycles

end IntroSystems.Recycling
