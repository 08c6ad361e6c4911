import Mathlib

/-!
# Sorting by a key

A comparison that compares keys of a linear order, and what follows for a sort
by it: the result is determined by the entries alone once their keys are distinct.
-/

namespace Macha

/-- The comparison puts lesser keys first. -/
def Compares {α κ : Type} [LinearOrder κ] (le : α → α → Bool) (key : α → κ) : Prop :=
  ∀ a b, le a b = true ↔ key a ≤ key b

namespace Compares

variable {α κ : Type} [LinearOrder κ] {le : α → α → Bool} {key : α → κ}

theorem trans (h : Compares le key) (a b c : α) (hab : le a b = true) (hbc : le b c = true) :
    le a c = true := (h a c).2 (((h a b).1 hab).trans ((h b c).1 hbc))

theorem total (h : Compares le key) (a b : α) : (le a b || le b a) = true := by
  rw [Bool.or_eq_true, h, h]
  exact le_total _ _

theorem mergeSort_eq (h : Compares le key) {l l' : List α} (hperm : l.Perm l')
    (hkeys : ∀ a ∈ l, ∀ b ∈ l, key a = key b → a = b) : l.mergeSort le = l'.mergeSort le := by
  have hl := List.mergeSort_perm l le
  have hl' := List.mergeSort_perm l' le
  refine List.Perm.eq_of_pairwise (fun a b ha hb hab hba => ?_)
    (List.pairwise_mergeSort h.trans h.total l) (List.pairwise_mergeSort h.trans h.total l')
    (hl.trans (hperm.trans hl'.symm))
  exact hkeys a (hl.subset ha) b (hperm.symm.subset (hl'.subset hb))
    (le_antisymm ((h a b).1 hab) ((h b a).1 hba))

end Compares

end Macha
