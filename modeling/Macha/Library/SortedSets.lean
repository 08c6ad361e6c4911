import Mathlib

/-!
# Sets as sorted lists

`std::set_union`, `std::set_difference` and `std::set_intersection` over strictly
sorted ranges, as the merges they are: the lemmas say what is in the result and
that it is sorted again.
-/

namespace Macha

open List

variable {α : Type} [LinearOrder α]

def SortedSet (xs : List α) : Prop := xs.Pairwise (· < ·)

instance (xs : List α) : Decidable (SortedSet xs) :=
  inferInstanceAs (Decidable (xs.Pairwise (· < ·)))

/-- The first element of one range against the other range; `rest` merges what follows it. -/
def sortedUnionWith (x : α) (rest : List α → List α) : List α → List α
  | [] => x :: rest []
  | y :: ys =>
    if x < y then x :: rest (y :: ys)
    else if y < x then y :: sortedUnionWith x rest ys
    else x :: rest ys

def sortedUnion : List α → List α → List α
  | [], ys => ys
  | x :: xs, ys => sortedUnionWith x (sortedUnion xs) ys

def sortedDifferenceWith (x : α) (rest : List α → List α) : List α → List α
  | [] => x :: rest []
  | y :: ys =>
    if x < y then x :: rest (y :: ys)
    else if y < x then sortedDifferenceWith x rest ys
    else rest ys

def sortedDifference : List α → List α → List α
  | [], _ => []
  | x :: xs, ys => sortedDifferenceWith x (sortedDifference xs) ys

def sortedIntersectionWith (x : α) (rest : List α → List α) : List α → List α
  | [] => []
  | y :: ys =>
    if x < y then rest (y :: ys)
    else if y < x then sortedIntersectionWith x rest ys
    else x :: rest ys

def sortedIntersection : List α → List α → List α
  | [], _ => []
  | x :: xs, ys => sortedIntersectionWith x (sortedIntersection xs) ys

def sortedUnique (xs : List α) : List α := xs.foldr (fun x out => sortedUnion [x] out) []

/-- The merges compare the first elements of their ranges. -/
theorem merge_induction {P : List α → List α → Prop} (nil : ∀ ys, P [] ys)
    (nil_right : ∀ x xs, P xs [] → P (x :: xs) [])
    (lt : ∀ x xs y ys, x < y → P xs (y :: ys) → P (x :: xs) (y :: ys))
    (gt : ∀ x xs y ys, y < x → P (x :: xs) ys → P (x :: xs) (y :: ys))
    (eq : ∀ x xs ys, P xs ys → P (x :: xs) (x :: ys)) (xs ys : List α) : P xs ys := by
  induction xs generalizing ys with
  | nil => exact nil ys
  | cons x xs ih =>
    induction ys with
    | nil => exact nil_right x xs (ih [])
    | cons y ys ih' =>
      rcases lt_trichotomy x y with hxy | rfl | hyx
      · exact lt x xs y ys hxy (ih _)
      · exact eq x xs ys (ih ys)
      · exact gt x xs y ys hyx ih'

variable {xs ys : List α} {x y z : α}

theorem mem_sortedUnion : z ∈ sortedUnion xs ys ↔ z ∈ xs ∨ z ∈ ys := by
  induction xs, ys using merge_induction with
  | nil ys => simp [sortedUnion]
  | nil_right x xs ih => simpa [sortedUnion, sortedUnionWith] using or_congr_right ih
  | lt x xs y ys hxy ih =>
    rw [sortedUnion, sortedUnionWith, if_pos hxy, mem_cons, ih, mem_cons (l := xs), or_assoc]
  | gt x xs y ys hyx ih =>
    rw [sortedUnion, sortedUnionWith, if_neg hyx.not_gt, if_pos hyx, mem_cons, ← sortedUnion, ih,
      mem_cons (l := ys), or_left_comm]
  | eq x xs ys ih =>
    rw [sortedUnion, sortedUnionWith, if_neg (lt_irrefl x), if_neg (lt_irrefl x), mem_cons, ih,
      mem_cons, mem_cons]
    tauto

theorem SortedSet.of_cons (h : SortedSet (x :: xs)) : SortedSet xs :=
  (pairwise_cons.1 h).2

theorem SortedSet.lt_of_mem (h : SortedSet (x :: xs)) (hz : z ∈ xs) : x < z :=
  (pairwise_cons.1 h).1 z hz

theorem SortedSet.nil : SortedSet ([] : List α) := List.Pairwise.nil

theorem SortedSet.filter (h : SortedSet xs) (p : α → Bool) : SortedSet (xs.filter p) :=
  List.Pairwise.filter p h

theorem SortedSet.lt_sortedUnion (hx : ∀ w ∈ xs, z < w) (hy : ∀ w ∈ ys, z < w)
    (h : SortedSet (sortedUnion xs ys)) : SortedSet (z :: sortedUnion xs ys) :=
  pairwise_cons.2 ⟨fun w hw => (mem_sortedUnion.1 hw).elim (hx w) (hy w), h⟩

theorem sorted_union (hx : SortedSet xs) (hy : SortedSet ys) : SortedSet (sortedUnion xs ys) := by
  induction xs, ys using merge_induction with
  | nil ys => exact hy
  | nil_right x xs ih =>
    exact (ih hx.of_cons hy).lt_sortedUnion (fun _ => hx.lt_of_mem) nofun
  | lt x xs y ys hxy ih =>
    rw [sortedUnion, sortedUnionWith, if_pos hxy]
    refine (ih hx.of_cons hy).lt_sortedUnion (fun _ => hx.lt_of_mem) fun w hw => ?_
    rcases mem_cons.1 hw with rfl | hw
    · exact hxy
    · exact hxy.trans (hy.lt_of_mem hw)
  | gt x xs y ys hyx ih =>
    rw [sortedUnion, sortedUnionWith, if_neg hyx.not_gt, if_pos hyx, ← sortedUnion]
    refine (ih hx hy.of_cons).lt_sortedUnion (fun w hw => ?_) fun _ => hy.lt_of_mem
    rcases mem_cons.1 hw with rfl | hw
    · exact hyx
    · exact hyx.trans (hx.lt_of_mem hw)
  | eq x xs ys ih =>
    rw [sortedUnion, sortedUnionWith, if_neg (lt_irrefl x), if_neg (lt_irrefl x)]
    exact (ih hx.of_cons hy.of_cons).lt_sortedUnion (fun _ => hx.lt_of_mem) fun _ => hy.lt_of_mem

theorem sortedDifference_sublist (xs ys : List α) : (sortedDifference xs ys).Sublist xs := by
  induction xs, ys using merge_induction with
  | nil ys => exact List.Sublist.refl []
  | nil_right x xs ih => exact ih.cons_cons x
  | lt x xs y ys hxy ih =>
    rw [sortedDifference, sortedDifferenceWith, if_pos hxy]
    exact ih.cons_cons x
  | gt x xs y ys hyx ih =>
    rw [sortedDifference, sortedDifferenceWith, if_neg hyx.not_gt, if_pos hyx]
    exact ih
  | eq x xs ys ih =>
    rw [sortedDifference, sortedDifferenceWith, if_neg (lt_irrefl x), if_neg (lt_irrefl x)]
    exact ih.cons x

theorem sortedIntersection_sublist (xs ys : List α) : (sortedIntersection xs ys).Sublist xs := by
  induction xs, ys using merge_induction with
  | nil ys => exact List.Sublist.refl []
  | nil_right x xs ih => exact nil_sublist _
  | lt x xs y ys hxy ih =>
    rw [sortedIntersection, sortedIntersectionWith, if_pos hxy]
    exact ih.cons x
  | gt x xs y ys hyx ih =>
    rw [sortedIntersection, sortedIntersectionWith, if_neg hyx.not_gt, if_pos hyx]
    exact ih
  | eq x xs ys ih =>
    rw [sortedIntersection, sortedIntersectionWith, if_neg (lt_irrefl x), if_neg (lt_irrefl x)]
    exact ih.cons_cons x

theorem SortedSet.sortedDifference (h : SortedSet xs) (ys : List α) :
    SortedSet (sortedDifference xs ys) :=
  List.Pairwise.sublist (sortedDifference_sublist xs ys) h

theorem SortedSet.sortedIntersection (h : SortedSet xs) (ys : List α) :
    SortedSet (sortedIntersection xs ys) :=
  List.Pairwise.sublist (sortedIntersection_sublist xs ys) h

end Macha
