import Mathlib.Data.List.Perm.Basic
import Mathlib.Data.Tree.Basic
import Mathlib.Tactic.Common

/-!
# Insertion into a search tree

Trees without balancing, for a comparison of which nothing is known: it may be wrong about the
order, and it may contradict itself.

* `insert`, `ofList`: a new value goes to the left of a node or to its right, down to a leaf.
* `inorder`, **`inorder_ofList_perm`**: nothing is lost.
* `Ordered`, **`ordered_insert`**: every value is where it was sent.
* `valueAt`, **`valueAt_insert`**: no value moves.
* `Placed`, **`sorted_iff`**: when a tree is sorted by an order.
-/

set_option autoImplicit false

namespace IntroSystems.SearchTree

variable {α : Type} (left : α → α → Bool)

/-- `left e a` says that the new `e` goes to the left of `a`. -/
def insert (e : α) : BinaryTree α → BinaryTree α
  | .nil => .node e .nil .nil
  | .node a l r => if left e a then .node a (insert e l) r else .node a l (insert e r)

def inorder : BinaryTree α → List α
  | .nil => []
  | .node a l r => inorder l ++ a :: inorder r

/-- The values of a list, inserted in turn into a tree. -/
def insertAll (t : BinaryTree α) (xs : List α) : BinaryTree α :=
  xs.foldl (fun t e => insert left e t) t

def ofList (xs : List α) : BinaryTree α := insertAll left .nil xs

/-! ### The values of a tree -/

theorem inorder_insert_perm (e : α) (t : BinaryTree α) :
    (inorder (insert left e t)).Perm (e :: inorder t) := by
  induction t with
  | nil => exact .refl _
  | node a l r ihl ihr =>
    rw [insert]
    split
    · exact ihl.append_right _
    · calc inorder l ++ a :: inorder (insert left e r)
          _ |>.Perm (inorder l ++ a :: e :: inorder r) := (ihr.cons a).append_left _
          _ |>.Perm (inorder l ++ e :: a :: inorder r) := (List.Perm.swap e a _).append_left _
          _ |>.Perm (e :: (inorder l ++ a :: inorder r)) := List.perm_middle

theorem inorder_insertAll_perm (t : BinaryTree α) (xs : List α) :
    (inorder (insertAll left t xs)).Perm (inorder t ++ xs) := by
  induction xs generalizing t with
  | nil => rw [List.append_nil]; exact .refl _
  | cons x xs ih =>
    calc inorder (insertAll left (insert left x t) xs)
        _ |>.Perm (inorder (insert left x t) ++ xs) := ih _
        _ |>.Perm (x :: inorder t ++ xs) := (inorder_insert_perm left x t).append_right _
        _ |>.Perm (inorder t ++ x :: xs) := List.perm_middle.symm

/-- **Nothing is lost.** -/
theorem inorder_ofList_perm (xs : List α) : (inorder (ofList left xs)).Perm xs :=
  inorder_insertAll_perm left .nil xs

theorem nodup_node {a : α} {l r : BinaryTree α} (h : (inorder (.node a l r)).Nodup) :
    (inorder l).Nodup ∧ (inorder r).Nodup ∧ a ∉ inorder l ∧ a ∉ inorder r ∧
      ∀ q ∈ inorder l, q ∉ inorder r := by
  obtain ⟨hl, har, hdisj⟩ := List.nodup_append.mp h
  obtain ⟨ha, hr⟩ := List.nodup_cons.mp har
  exact ⟨hl, hr, fun hal => hdisj a hal a List.mem_cons_self rfl, ha,
    fun q hql hqr => hdisj q hql q (List.mem_cons_of_mem a hqr) rfl⟩

theorem height_le_length (t : BinaryTree α) : t.height ≤ (inorder t).length := by
  induction t with
  | nil => exact Nat.le_refl 0
  | node a l r ihl ihr =>
    rw [BinaryTree.height, inorder, List.length_append, List.length_cons]
    omega

/-! ### Trees of other values -/

theorem map_congr {β : Type} {f g : α → β} {t : BinaryTree α} (h : ∀ a ∈ inorder t, f a = g a) :
    t.map f = t.map g := by
  induction t with
  | nil => rfl
  | node a l r ihl ihr =>
    rw [BinaryTree.map, BinaryTree.map, h a (by simp [inorder]),
      ihl fun b hb => h b (by simp [inorder, hb]), ihr fun b hb => h b (by simp [inorder, hb])]

theorem map_insert {β : Type} {left' : β → β → Bool} {f : α → β} {e : α} {t : BinaryTree α}
    (h : ∀ a ∈ inorder t, left e a = left' (f e) (f a)) :
    (insert left e t).map f = insert left' (f e) (t.map f) := by
  induction t with
  | nil => rfl
  | node a l r ihl ihr =>
    have ihl := ihl fun b hb => h b (by simp [inorder, hb])
    have ihr := ihr fun b hb => h b (by simp [inorder, hb])
    rw [insert, BinaryTree.map, insert, ← h a (by simp [inorder])]
    split
    · rw [BinaryTree.map, ihl]
    · rw [BinaryTree.map, ihr]

/-! ### The shape of a tree -/

theorem insertAll_node (a : α) (l r : BinaryTree α) (xs : List α) :
    insertAll left (.node a l r) xs =
      .node a (insertAll left l (xs.filter (left · a)))
        (insertAll left r (xs.filter fun x => !left x a)) := by
  induction xs generalizing l r with
  | nil => rfl
  | cons x xs ih =>
    rw [insertAll, List.foldl_cons, insert]
    cases h : left x a with
    | true =>
      rw [if_pos rfl, List.filter_cons_of_pos (by simp [h]),
        List.filter_cons_of_neg (by simp [h])]
      exact ih _ _
    | false =>
      rw [if_neg Bool.false_ne_true, List.filter_cons_of_neg (by simp [h]),
        List.filter_cons_of_pos (by simp [h])]
      exact ih _ _

theorem ofList_cons (x : α) (xs : List α) :
    ofList left (x :: xs) =
      .node x (ofList left (xs.filter (left · x))) (ofList left (xs.filter fun y => !left y x)) :=
  insertAll_node left x .nil .nil xs

/-! ### Where the values are -/

/-- At each node, what went to the left is on the left and what went to the right is on the right. -/
def Ordered : BinaryTree α → Prop
  | .nil => True
  | .node a l r => (∀ x ∈ inorder l, left x a = true) ∧ (∀ x ∈ inorder r, left x a = false) ∧
      Ordered l ∧ Ordered r

/-- The value at the end of a path from the root; `true` is a step to the left. -/
def valueAt : List Bool → BinaryTree α → Option α
  | _, .nil => none
  | [], .node a _ _ => some a
  | true :: path, .node _ l _ => valueAt path l
  | false :: path, .node _ _ r => valueAt path r

variable {left} in
theorem mem_insert {e x : α} {t : BinaryTree α} :
    x ∈ inorder (insert left e t) ↔ x = e ∨ x ∈ inorder t := by
  rw [(inorder_insert_perm left e t).mem_iff, List.mem_cons]

variable {left} in
theorem insert_congr {left' : α → α → Bool} {e : α} {t : BinaryTree α}
    (h : ∀ a ∈ inorder t, left e a = left' e a) : insert left e t = insert left' e t := by
  induction t with
  | nil => rfl
  | node a l r ihl ihr =>
    rw [insert, insert, h a (by simp [inorder]), ihl fun b hb => h b (by simp [inorder, hb]),
      ihr fun b hb => h b (by simp [inorder, hb])]

variable {left} in
theorem Ordered.congr {left' : α → α → Bool} {t : BinaryTree α}
    (h : ∀ x ∈ inorder t, ∀ a ∈ inorder t, left x a = left' x a) (ho : Ordered left t) :
    Ordered left' t := by
  induction t with
  | nil => trivial
  | node a l r ihl ihr =>
    obtain ⟨hl, hr, hol, hor⟩ := ho
    have hmem : ∀ x, x ∈ inorder l ∨ x = a ∨ x ∈ inorder r → x ∈ inorder (.node a l r) :=
      fun x hx => by simpa [inorder] using hx
    refine ⟨fun x hx => ?_, fun x hx => ?_, ihl (fun x hx b hb => ?_) hol,
      ihr (fun x hx b hb => ?_) hor⟩
    · rw [← h x (hmem x (.inl hx)) a (hmem a (.inr (.inl rfl))), hl x hx]
    · rw [← h x (hmem x (.inr (.inr hx))) a (hmem a (.inr (.inl rfl))), hr x hx]
    · exact h x (hmem x (.inl hx)) b (hmem b (.inl hb))
    · exact h x (hmem x (.inr (.inr hx))) b (hmem b (.inr (.inr hb)))

/-- **Insertion keeps the values where they were sent.** -/
theorem ordered_insert {e : α} {t : BinaryTree α} (ho : Ordered left t) :
    Ordered left (insert left e t) := by
  induction t with
  | nil => exact ⟨by simp [inorder], by simp [inorder], trivial, trivial⟩
  | node a l r ihl ihr =>
    obtain ⟨hl, hr, hol, hor⟩ := ho
    rw [insert]
    split
    case isTrue h =>
      refine ⟨fun x hx => ?_, hr, ihl hol, hor⟩
      rcases mem_insert.mp hx with rfl | hx
      · exact h
      · exact hl x hx
    case isFalse h =>
      refine ⟨hl, fun x hx => ?_, hol, ihr hor⟩
      rcases mem_insert.mp hx with rfl | hx
      · exact Bool.eq_false_iff.mpr h
      · exact hr x hx

theorem ordered_insertAll {t : BinaryTree α} (ho : Ordered left t) (xs : List α) :
    Ordered left (insertAll left t xs) := by
  induction xs generalizing t with
  | nil => exact ho
  | cons x xs ih => exact ih (ordered_insert left ho)

theorem ordered_ofList (xs : List α) : Ordered left (ofList left xs) :=
  ordered_insertAll left (t := .nil) trivial xs

variable {left} in
theorem Ordered.pairwise {le : α → α → Prop} {t : BinaryTree α} (ho : Ordered left t)
    (hl : ∀ x a, left x a = true → le x a) (hr : ∀ x a, left x a = false → le a x)
    (trans : ∀ a b c, le a b → le b c → le a c) : (inorder t).Pairwise le := by
  induction t with
  | nil => exact .nil
  | node a l r ihl ihr =>
    obtain ⟨hla, hra, hol, hor⟩ := ho
    refine List.pairwise_append.mpr ⟨ihl hol, List.pairwise_cons.mpr ⟨fun y hy => ?_, ihr hor⟩,
      fun x hx y hy => ?_⟩
    · exact hr y a (hra y hy)
    · rcases List.mem_cons.mp hy with rfl | hy
      · exact hl x y (hla x hx)
      · exact trans x a y (hl x a (hla x hx)) (hr y a (hra y hy))

/-- **No value moves.** -/
theorem valueAt_insert {e a : α} {t : BinaryTree α} {path : List Bool}
    (h : valueAt path t = some a) : valueAt path (insert left e t) = some a := by
  induction t generalizing path with
  | nil => cases path <;> cases h
  | node b l r ihl ihr =>
    rw [insert]
    rcases path with _ | ⟨_ | _, path⟩
    · split <;> exact h
    · split
      · exact h
      · exact ihr h
    · split
      · exact ihl h
      · exact h

/-! ### Sorted trees -/

/-- The new `e` goes to the side of `a` where the order `le` wants it. -/
def Fits (le : α → α → Prop) (e a : α) : Prop := if left e a then le e a else le a e

/-- The first value is right about all later ones, and, apart, those on its left and those on its
right are placed. -/
inductive Placed (fits : α → α → Prop) : List α → Prop
  | nil : Placed fits []
  | cons {x : α} {xs : List α} (root : ∀ y ∈ xs, fits y x)
    (lefts : Placed fits (xs.filter (left · x)))
    (rights : Placed fits (xs.filter fun y => !left y x)) : Placed fits (x :: xs)

theorem placed_cons {fits : α → α → Prop} {x : α} {xs : List α} :
    Placed left fits (x :: xs) ↔ (∀ y ∈ xs, fits y x) ∧
      Placed left fits (xs.filter (left · x)) ∧ Placed left fits (xs.filter fun y => !left y x) := by
  constructor
  · rintro (_ | ⟨root, lefts, rights⟩)
    exact ⟨root, lefts, rights⟩
  · rintro ⟨root, lefts, rights⟩
    exact .cons root lefts rights

variable {left} in
theorem Placed.congr {left' : α → α → Bool} {fits : α → α → Prop} {xs : List α}
    (h : ∀ y x, fits y x → left y x = left' y x) (hp : Placed left fits xs) :
    Placed left' fits xs := by
  induction hp with
  | nil => exact .nil
  | cons root _ _ ihl ihr =>
    rw [List.filter_congr fun y hy => h y _ (root y hy)] at ihl
    rw [List.filter_congr fun y hy => congrArg not (h y _ (root y hy))] at ihr
    exact .cons root ihl ihr

theorem mem_inorder_ofList {xs : List α} {x : α} : x ∈ inorder (ofList left xs) ↔ x ∈ xs :=
  (inorder_ofList_perm left xs).mem_iff

/-- **When a tree is sorted**: no value has been sent to a wrong side. -/
theorem sorted_iff {le : α → α → Prop} (trans : ∀ a b c, le a b → le b c → le a c) (xs : List α) :
    (inorder (ofList left xs)).Pairwise le ↔ Placed left (Fits left le) xs := by
  induction h : xs.length using Nat.strongRecOn generalizing xs with
  | _ k ih
  cases xs with
  | nil => exact ⟨fun _ => .nil, fun _ => .nil⟩
  | cons x xs =>
    have hlt : ∀ p : α → Bool, (xs.filter p).length < k := fun p =>
      h ▸ Nat.lt_succ_of_le (List.length_filter_le p xs)
    rw [ofList_cons, inorder, List.pairwise_append, List.pairwise_cons,
      ih _ (hlt _) _ rfl, ih _ (hlt _) _ rfl, placed_cons]
    simp only [mem_inorder_ofList, List.mem_cons, List.mem_filter]
    constructor
    · rintro ⟨hl, ⟨hxr, hr⟩, hlr⟩
      refine ⟨fun y hy => ?_, hl, hr⟩
      cases h : left y x with
      | true => exact (if_pos h).mpr (hlr y ⟨hy, h⟩ x (.inl rfl))
      | false => exact (if_neg (by simp [h])).mpr (hxr y ⟨hy, by simp [h]⟩)
    · rintro ⟨hfits, hl, hr⟩
      have hlx : ∀ y, y ∈ xs ∧ left y x = true → le y x :=
        fun y hy => (if_pos hy.2).mp (hfits y hy.1)
      have hxr : ∀ y, y ∈ xs ∧ (!left y x) = true → le x y :=
        fun y hy => (if_neg (by simpa using hy.2)).mp (hfits y hy.1)
      refine ⟨hl, ⟨hxr, hr⟩, fun y hy z hz => ?_⟩
      rcases hz with rfl | hz
      · exact hlx y hy
      · exact trans y x z (hlx y hy) (hxr z hz)

end IntroSystems.SearchTree
