import IntroSystems.Lib.Transition
import Mathlib.Data.List.Count
import Mathlib.Logic.Function.Basic
import Mathlib.Tactic.Common

/-!
# Supersteps

Threads over one memory, phase by phase. In a phase each thread has assignments to make, and makes
them by single reads and writes, interleaved with those of all others. Between the phases there is a
barrier, of which only this is known: who is released has not arrived more often than anybody else.

* `Assign`, `At`, `State`, `Step`, `sys`.
* `Lawful`: in a phase no location is both read and assigned to, and what is assigned is a function of
  the memory; `Lawful.after`: the memory after so many phases.
* `Inv`, `reach_inv`: every location has the value from before the phase or the one from after it.
* **`eq_after`**: once a thread is through, the memory is what the phases make of it, in every run.
  **`exists_step`**: no run gets stuck before.
-/

set_option autoImplicit false

namespace Superstep

/-- Read these locations, one after the other, and store what they give. -/
structure Assign (X V : Type) where
  reads : List X
  target : X
  value : List V → V

/-- Where a thread is. -/
inductive At (X V : Type)
  /-- With these assignments still to make, and what has been read for the first one. -/
  | work (phase : ℕ) (got : List V) (rest : List (Assign X V))
  /-- At the barrier after a phase. -/
  | wait (phase : ℕ)

/-- The barrier knows who has arrived, in order. -/
structure State (T X V : Type) where
  mem : X → V
  pc : T → At X V
  arrivals : List T

variable {T X V : Type} [DecidableEq T]

def State.goto (s : State T X V) (t : T) (p : At X V) : State T X V :=
  { s with pc := Function.update s.pc t p }

variable [DecidableEq X]

inductive Step (prog : T → ℕ → List (Assign X V)) (phases : ℕ) (released : List T → T → Prop) :
    State T X V → T → State T X V → Prop
  | read {s : State T X V} {t : T} {k : ℕ} {got : List V} {a : Assign X V}
      {rest : List (Assign X V)} {x : X} : s.pc t = .work k got (a :: rest) →
      a.reads[got.length]? = some x →
      Step prog phases released s t (s.goto t (.work k (got ++ [s.mem x]) (a :: rest)))
  | write {s : State T X V} {t : T} {k : ℕ} {got : List V} {a : Assign X V}
      {rest : List (Assign X V)} : s.pc t = .work k got (a :: rest) →
      got.length = a.reads.length →
      Step prog phases released s t
        ({ s with mem := Function.update s.mem a.target (a.value got) }.goto t (.work k [] rest))
  | arrive {s : State T X V} {t : T} {k : ℕ} : s.pc t = .work k [] [] → k < phases →
      Step prog phases released s t
        ({ s with arrivals := s.arrivals ++ [t] }.goto t (.wait k))
  | pass {s : State T X V} {t : T} {k : ℕ} : s.pc t = .wait k → released s.arrivals t →
      Step prog phases released s t (s.goto t (.work (k + 1) [] (prog t (k + 1))))

/-- The runs from a memory. -/
def sys (prog : T → ℕ → List (Assign X V)) (phases : ℕ) (released : List T → T → Prop)
    (mem : X → V) : Sys (State T X V) T where
  init s := s = ⟨mem, fun t => .work 0 [] (prog t 0), []⟩
  step := Step prog phases released

omit [DecidableEq T] [DecidableEq X] in
/-- Somebody assigns to the location in this phase. -/
def Assigned (prog : T → ℕ → List (Assign X V)) (k : ℕ) (x : X) : Prop :=
  ∃ t, ∃ a ∈ prog t k, a.target = x

/-- Phase `k` takes a memory to `F k` of it, and there are no others than the first `phases`. -/
structure Lawful (prog : T → ℕ → List (Assign X V)) (phases : ℕ)
    (F : ℕ → (X → V) → X → V) : Prop where
  ends : ∀ t k, phases ≤ k → prog t k = []
  apart : ∀ t k, ∀ a ∈ prog t k, ∀ x ∈ a.reads, ¬Assigned prog k x
  value : ∀ t k, ∀ a ∈ prog t k, ∀ m, a.value (a.reads.map m) = F k m a.target
  keeps : ∀ k x m, ¬Assigned prog k x → F k m x = m x

/-- The memory after `k` phases. -/
def after (F : ℕ → (X → V) → X → V) (mem : X → V) : ℕ → X → V
  | 0 => mem
  | k + 1 => F k (after F mem k)

/-- How often the thread has arrived. -/
def At.arrived : At X V → ℕ
  | .work k _ _ => k
  | .wait k => k + 1

/-- The thread is in phase `k`, or at the barrier before or after it. -/
def At.near (k : ℕ) : At X V → Prop
  | .work j _ _ => j = k
  | .wait j => j = k ∨ j + 1 = k

/-- What the thread has still to do in phase `k`. -/
def At.left (prog : T → ℕ → List (Assign X V)) (k : ℕ) (t : T) : At X V → List (Assign X V)
  | .work _ _ rest => rest
  | .wait j => if j = k then [] else prog t k

/-- What it has read for its next assignment is as it was before the phase. -/
def At.read (base : X → V) : At X V → Prop
  | .work _ got [] => got = []
  | .work _ got (a :: _) => got = (a.reads.take got.length).map base
  | .wait _ => True

variable {prog : T → ℕ → List (Assign X V)} {phases : ℕ} {released : List T → T → Prop}
  {F : ℕ → (X → V) → X → V} {mem : X → V} {s s' : State T X V} {t : T} {k : ℕ} {p : At X V}

/-- The invariant, in phase `k`. -/
structure Inv (prog : T → ℕ → List (Assign X V)) (phases : ℕ) (F : ℕ → (X → V) → X → V)
    (mem : X → V) (k : ℕ) (s : State T X V) : Prop where
  le : k ≤ phases
  near : ∀ t, (s.pc t).near k
  waits : ∀ t j, s.pc t = .wait j → j < phases
  count : ∀ t, s.arrivals.count t = (s.pc t).arrived
  left : ∀ t, ∀ a ∈ (s.pc t).left prog k t, a ∈ prog t k
  read : ∀ t, (s.pc t).read (after F mem k)
  old_or_new : ∀ x, s.mem x = after F mem k x ∨ s.mem x = after F mem (k + 1) x
  new : ∀ x, s.mem x = after F mem (k + 1) x ∨
    ∃ t, ∃ a ∈ (s.pc t).left prog k t, a.target = x

omit [DecidableEq T] [DecidableEq X] in
theorem At.near.le_arrived (h : p.near k) : k ≤ p.arrived := by
  cases p with
  | work j got rest => exact Nat.le_of_eq (Eq.symm h)
  | wait j =>
    change j = k ∨ j + 1 = k at h
    change k ≤ j + 1
    omega

omit [DecidableEq X] in
@[simp] theorem goto_pc_self : (s.goto t p).pc t = p := Function.update_self _ _ _

omit [DecidableEq X] in
theorem goto_pc_of_ne {u : T} (h : u ≠ t) : (s.goto t p).pc u = s.pc u :=
  Function.update_of_ne h _ _

omit [DecidableEq X] in
theorem forall_goto {q : T → At X V → Prop} (h : ∀ u, u ≠ t → q u (s.pc u)) (ht : q t p) (u : T) :
    q u ((s.goto t p).pc u) := by
  by_cases hu : u = t
  · subst hu
    rwa [goto_pc_self]
  · rw [goto_pc_of_ne hu]
    exact h u hu

omit [DecidableEq X] in
theorem Inv.mem_eq (h : Inv prog phases F mem k s) (hF : Lawful prog phases F) {a : Assign X V}
    (ha : a ∈ prog t k) {x : X} (hx : x ∈ a.reads) : s.mem x = after F mem k x := by
  rcases h.old_or_new x with hm | hm
  · exact hm
  · rw [hm]
    exact hF.keeps k x _ (hF.apart t k a ha x hx)

omit [DecidableEq X] in
theorem Inv.read_next (h : Inv prog phases F mem k s) (hF : Lawful prog phases F) {j : ℕ}
    {got : List V} {a : Assign X V} {rest : List (Assign X V)} {x : X}
    (hpc : s.pc t = .work j got (a :: rest)) (hx : a.reads[got.length]? = some x) :
    Inv prog phases F mem k (s.goto t (.work j (got ++ [s.mem x]) (a :: rest))) := by
  have hnear := h.near t
  have hleft := h.left t
  have hread := h.read t
  rw [hpc] at hnear hleft hread
  have hmem := h.mem_eq hF (hleft a List.mem_cons_self) (List.mem_of_getElem? hx)
  have hgot : got ++ [s.mem x] = (a.reads.take (got ++ [s.mem x]).length).map (after F mem k) := by
    change got = (a.reads.take got.length).map _ at hread
    rw [List.length_append, List.length_singleton, List.take_add_one, hx, hmem]
    simpa using hread
  refine ⟨h.le, ?_, ?_, ?_, ?_, ?_, h.old_or_new, fun x => ?_⟩
  · exact forall_goto (q := fun _ p => p.near k) (fun u _ => h.near u) hnear
  · exact forall_goto (q := fun _ p => ∀ j, p = .wait j → j < phases) (fun u _ => h.waits u)
      fun j hj => nomatch hj
  · refine forall_goto (q := fun u p => s.arrivals.count u = p.arrived) (fun u _ => h.count u) ?_
    rw [h.count, hpc]
    rfl
  · exact forall_goto (q := fun u p => ∀ a ∈ p.left prog k u, a ∈ prog u k) (fun u _ => h.left u)
      hleft
  · exact forall_goto (q := fun _ p => p.read (after F mem k)) (fun u _ => h.read u) hgot
  · refine (h.new x).imp id fun ⟨u, b, hb, hbx⟩ => ⟨u, b, ?_, hbx⟩
    by_cases hu : u = t
    · subst hu
      rw [hpc] at hb
      rwa [goto_pc_self]
    · rwa [goto_pc_of_ne hu]

theorem Inv.write (h : Inv prog phases F mem k s) (hF : Lawful prog phases F) {j : ℕ}
    {got : List V} {a : Assign X V} {rest : List (Assign X V)}
    (hpc : s.pc t = .work j got (a :: rest)) (hlen : got.length = a.reads.length) :
    Inv prog phases F mem k
      ({ s with mem := Function.update s.mem a.target (a.value got) }.goto t (.work j [] rest)) := by
  have hnear := h.near t
  have hleft := h.left t
  have hread := h.read t
  rw [hpc] at hnear hleft hread
  have ha := hleft a List.mem_cons_self
  have hvalue : a.value got = after F mem (k + 1) a.target := by
    change got = (a.reads.take got.length).map _ at hread
    rw [hlen, List.take_length] at hread
    rw [hread]
    exact hF.value t k a ha _
  refine ⟨h.le, ?_, ?_, ?_, ?_, ?_, fun x => ?_, fun x => ?_⟩
  · exact forall_goto (q := fun _ p => p.near k) (fun u _ => h.near u) hnear
  · exact forall_goto (q := fun _ p => ∀ j, p = .wait j → j < phases) (fun u _ => h.waits u)
      fun j hj => nomatch hj
  · refine forall_goto (q := fun u p => s.arrivals.count u = p.arrived) (fun u _ => h.count u) ?_
    rw [h.count, hpc]
    rfl
  · exact forall_goto (q := fun u p => ∀ a ∈ p.left prog k u, a ∈ prog u k) (fun u _ => h.left u)
      fun b hb => hleft b (List.mem_cons_of_mem a hb)
  · refine forall_goto (q := fun _ p => p.read (after F mem k)) (fun u _ => h.read u) ?_
    cases rest <;> rfl
  · change Function.update s.mem a.target _ x = _ ∨ Function.update s.mem a.target _ x = _
    by_cases hx : x = a.target
    · subst hx
      rw [Function.update_self]
      exact .inr hvalue
    · rw [Function.update_of_ne hx]
      exact h.old_or_new x
  · change Function.update s.mem a.target _ x = _ ∨ _
    by_cases hx : x = a.target
    · subst hx
      rw [Function.update_self]
      exact .inl hvalue
    · rw [Function.update_of_ne hx]
      refine (h.new x).imp id fun ⟨u, b, hb, hbx⟩ => ⟨u, b, ?_, hbx⟩
      by_cases hu : u = t
      · subst hu
        rw [hpc] at hb
        rw [goto_pc_self]
        exact (List.mem_cons.mp hb).resolve_left fun e => hx (hbx.symm.trans (congrArg _ e))
      · rwa [goto_pc_of_ne hu]

omit [DecidableEq X] in
theorem Inv.arrive (h : Inv prog phases F mem k s) {j : ℕ} (hpc : s.pc t = .work j [] [])
    (hj : j < phases) :
    Inv prog phases F mem k ({ s with arrivals := s.arrivals ++ [t] }.goto t (.wait j)) := by
  have hnear : j = k := by
    have hnear := h.near t
    rwa [hpc] at hnear
  subst hnear
  refine ⟨h.le, ?_, ?_, ?_, ?_, ?_, h.old_or_new, fun x => ?_⟩
  · exact forall_goto (q := fun _ p => p.near j) (fun u _ => h.near u) (.inl rfl)
  · refine forall_goto (q := fun _ p => ∀ j, p = .wait j → j < phases) (fun u _ => h.waits u) ?_
    rintro _ ⟨⟩
    exact hj
  · refine forall_goto (q := fun u p => (s.arrivals ++ [t]).count u = p.arrived) (fun u hu => ?_) ?_
    · rw [List.count_append, h.count, List.count_singleton, if_neg (by simpa using hu.symm)]
      rfl
    · rw [List.count_append, h.count, hpc]
      simp [At.arrived]
  · refine forall_goto (q := fun u p => ∀ a ∈ p.left prog j u, a ∈ prog u j) (fun u _ => h.left u) ?_
    simp [At.left]
  · exact forall_goto (q := fun _ p => p.read (after F mem j)) (fun u _ => h.read u) trivial
  · refine (h.new x).imp id fun ⟨u, b, hb, hbx⟩ => ⟨u, b, ?_, hbx⟩
    by_cases hu : u = t
    · subst hu
      rw [hpc] at hb
      exact absurd hb List.not_mem_nil
    · rwa [goto_pc_of_ne hu]

omit [DecidableEq X] in
theorem Inv.next (h : Inv prog phases F mem k s) (hF : Lawful prog phases F)
    (hall : ∀ t, s.pc t = .wait k) (t : T) : Inv prog phases F mem (k + 1) s := by
  have hmem : s.mem = after F mem (k + 1) := by
    funext x
    refine (h.new x).resolve_right ?_
    rintro ⟨u, b, hb, -⟩
    simp [hall u, At.left] at hb
  refine ⟨h.waits t k (hall t), fun t => ?_, h.waits, h.count, fun t => ?_, fun t => ?_,
    fun x => ?_, fun x => ?_⟩
  · rw [hall t]
    exact .inr rfl
  · simp [hall t, At.left]
  · rw [hall t]
    trivial
  · exact .inl (congrFun hmem x)
  · by_cases hx : Assigned prog (k + 1) x
    · obtain ⟨t, a, ha, hax⟩ := hx
      exact .inr ⟨t, a, by simpa [hall t, At.left] using ha, hax⟩
    · exact .inl ((congrFun hmem x).trans (hF.keeps (k + 1) x _ hx).symm)

omit [DecidableEq X] in
theorem Inv.enter (h : Inv prog phases F mem (k + 1) s) (hpc : s.pc t = .wait k) :
    Inv prog phases F mem (k + 1) (s.goto t (.work (k + 1) [] (prog t (k + 1)))) := by
  refine ⟨h.le, ?_, ?_, ?_, ?_, ?_, h.old_or_new, fun x => ?_⟩
  · exact forall_goto (q := fun _ p => p.near (k + 1)) (fun u _ => h.near u) rfl
  · exact forall_goto (q := fun _ p => ∀ j, p = .wait j → j < phases) (fun u _ => h.waits u)
      fun j hj => nomatch hj
  · refine forall_goto (q := fun u p => s.arrivals.count u = p.arrived) (fun u _ => h.count u) ?_
    rw [h.count, hpc]
    rfl
  · exact forall_goto (q := fun u p => ∀ a ∈ p.left prog (k + 1) u, a ∈ prog u (k + 1))
      (fun u _ => h.left u) fun a ha => ha
  · refine forall_goto (q := fun _ p => p.read (after F mem (k + 1))) (fun u _ => h.read u) ?_
    cases prog t (k + 1) <;> rfl
  · refine (h.new x).imp id fun ⟨u, b, hb, hbx⟩ => ⟨u, b, ?_, hbx⟩
    by_cases hu : u = t
    · subst hu
      rw [hpc] at hb
      rw [goto_pc_self]
      simpa [At.left] using hb
    · rwa [goto_pc_of_ne hu]

omit [DecidableEq X] in
theorem Inv.pass (h : Inv prog phases F mem k s) (hF : Lawful prog phases F) {j : ℕ}
    (hpc : s.pc t = .wait j) (hrel : ∀ u, s.arrivals.count t ≤ s.arrivals.count u) :
    ∃ k', Inv prog phases F mem k' (s.goto t (.work (j + 1) [] (prog t (j + 1)))) := by
  have hnear := h.near t
  rw [hpc] at hnear
  rcases hnear with rfl | rfl
  · refine ⟨j + 1, Inv.enter (h.next hF (fun u => ?_) t) hpc⟩
    have hle := hrel u
    rw [h.count, h.count, hpc] at hle
    have hu := h.near u
    cases hpu : s.pc u with
    | work i got rest =>
      rw [hpu] at hle hu
      change j + 1 ≤ i at hle
      change i = j at hu
      omega
    | wait i =>
      rw [hpu] at hle hu
      change j + 1 ≤ i + 1 at hle
      change i = j ∨ i + 1 = j at hu
      congr 1
      omega
  · exact ⟨j + 1, h.enter hpc⟩

/-- **The invariant holds in every run.** -/
theorem reach_inv (hF : Lawful prog phases F)
    (hrel : ∀ l t u, released l t → l.count t ≤ l.count u)
    (hr : (sys prog phases released mem).Reach s) : ∃ k, Inv prog phases F mem k s := by
  refine hr.invariant (I := fun s => ∃ k, Inv prog phases F mem k s) ?_ ?_
  · rintro s rfl
    refine ⟨0, Nat.zero_le _, fun t => rfl, fun t j hj => ?_, fun t => rfl, fun t a ha => ha,
      fun t => ?_, fun x => .inl rfl, fun x => ?_⟩
    · cases hj
    · cases h : prog t 0 <;> simp [At.read, h]
    · by_cases hx : Assigned prog 0 x
      · exact .inr hx
      · exact .inl (hF.keeps 0 x mem hx).symm
  · rintro s t s' - ⟨k, h⟩ hst
    cases hst with
    | read hpc hx => exact ⟨k, h.read_next hF hpc hx⟩
    | write hpc hlen => exact ⟨k, h.write hF hpc hlen⟩
    | arrive hpc hj => exact ⟨k, h.arrive hpc hj⟩
    | pass hpc hp => exact h.pass hF hpc fun u => hrel _ t u hp

omit [DecidableEq X] in
/-- **The result does not depend on the order**: once a thread is through, the memory is what the
phases make of it. -/
theorem Inv.eq_after (h : Inv prog phases F mem k s) (hF : Lawful prog phases F) {got : List V}
    {rest : List (Assign X V)} (hpc : s.pc t = .work phases got rest) :
    s.mem = after F mem phases := by
  have hk : phases = k := by
    have hnear := h.near t
    rwa [hpc] at hnear
  subst hk
  have hkeep : after F mem (phases + 1) = after F mem phases := by
    funext x
    refine hF.keeps phases x _ ?_
    rintro ⟨u, a, ha, -⟩
    rw [hF.ends u phases (Nat.le_refl _)] at ha
    exact List.not_mem_nil ha
  funext x
  rcases h.old_or_new x with hx | hx
  · exact hx
  · rw [hx, hkeep]

/-- **No run gets stuck** before all threads are through, when the barrier releases those who have not
arrived more often than anybody else. -/
theorem Inv.exists_step (h : Inv prog phases F mem k s) (hF : Lawful prog phases F)
    (hlive : ∀ l t, (∀ u, l.count t ≤ l.count u) → released l t)
    (ht : s.pc t ≠ .work phases [] []) : ∃ u s', Step prog phases released s u s' := by
  -- a thread in a phase can go on
  have hwork : ∀ u j got rest, s.pc u = .work j got rest → s.pc u ≠ .work phases [] [] →
      ∃ s', Step prog phases released s u s' := by
    intro u j got rest hpc hne
    have hread := h.read u
    have hnear := h.near u
    have hleft := h.left u
    rw [hpc] at hread hnear hleft hne
    obtain rfl : j = k := hnear
    cases rest with
    | nil =>
      obtain rfl : got = [] := hread
      refine ⟨_, .arrive hpc (Nat.lt_of_le_of_ne h.le fun e => hne ?_)⟩
      rw [e]
    | cons a rest =>
      change got = (a.reads.take got.length).map _ at hread
      have hlen := congrArg List.length hread
      rw [List.length_map, List.length_take] at hlen
      by_cases hlt : got.length < a.reads.length
      · exact ⟨_, .read hpc (List.getElem?_eq_getElem hlt)⟩
      · exact ⟨_, .write hpc (by omega)⟩
  have hge : ∀ u, k ≤ s.arrivals.count u := fun u => by
    rw [h.count]
    exact (h.near u).le_arrived
  cases hpc : s.pc t with
  | work j got rest => exact ⟨t, hwork t j got rest hpc ht⟩
  | wait j =>
    have hcount := h.count t
    have hnear := h.near t
    have hlt := h.waits t j hpc
    rw [hpc] at hcount hnear
    change s.arrivals.count t = j + 1 at hcount
    change j = k ∨ j + 1 = k at hnear
    by_cases hmin : ∀ u, s.arrivals.count t ≤ s.arrivals.count u
    · exact ⟨t, _, .pass hpc (hlive _ t hmin)⟩
    · -- somebody else has not arrived at this barrier
      obtain ⟨u, hu⟩ := not_forall.mp hmin
      have hgeu := hge u
      have hcu := h.count u
      have hnu := h.near u
      cases hpu : s.pc u with
      | work i got rest =>
        rw [hpu] at hnu
        change i = k at hnu
        refine ⟨u, hwork u i got rest hpu fun e => ?_⟩
        rw [hpu] at e
        obtain ⟨rfl, -, -⟩ := At.work.inj e
        omega
      | wait i =>
        rw [hpu] at hcu
        change s.arrivals.count u = i + 1 at hcu
        exact ⟨u, _, .pass hpu (hlive _ u fun v => by
          have := hge v
          omega)⟩

end Superstep
