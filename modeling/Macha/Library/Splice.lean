import Mathlib

/-!
# Arrays that grow by a fill value

`resize` cuts an array or extends it with the fill value, `splice` writes a block at an
offset, extending first where the block starts past the end. An array of this kind is its
length and the element at each place, the fill value standing past the end; both operations
are known by these two.
-/

namespace Macha

open List

variable {α : Type} (fill : α)

def resize (n : Nat) (xs : List α) : List α :=
  xs.take n ++ replicate (n - xs.length) fill

def splice (offset : Nat) (data xs : List α) : List α :=
  resize fill offset xs ++ data ++ xs.drop (offset + data.length)

@[simp]
theorem length_resize (n : Nat) (xs : List α) : (resize fill n xs).length = n := by
  simp only [resize, length_append, length_take, length_replicate]
  omega

@[simp]
theorem length_splice (offset : Nat) (data xs : List α) :
    (splice fill offset data xs).length = max xs.length (offset + data.length) := by
  simp only [splice, length_append, length_resize, length_drop]
  omega

theorem getD_resize (n p : Nat) (xs : List α) :
    (resize fill n xs).getD p fill = if p < n then xs.getD p fill else fill := by
  simp only [resize, getD_eq_getElem?_getD, getElem?_append, length_take,
    getElem?_take, getElem?_replicate]
  by_cases hn : p < n <;> by_cases hx : p < xs.length
  · rw [if_pos (by omega), if_pos hn, if_pos hn]
  · rw [if_neg (by omega), if_pos (by omega), if_pos hn, getElem?_eq_none (by omega)]
    rfl
  · rw [if_neg (by omega), if_neg (by omega), if_neg hn]
    rfl
  · rw [if_neg (by omega), if_neg (by omega), if_neg hn]
    rfl

theorem getD_splice (offset p : Nat) (data xs : List α) : (splice fill offset data xs).getD p fill =
      if offset ≤ p ∧ p < offset + data.length then data.getD (p - offset) fill
      else xs.getD p fill := by
  have hresize := getD_resize fill offset p xs
  simp only [getD_eq_getElem?_getD] at hresize ⊢
  simp only [splice, getElem?_append, length_append, length_resize, getElem?_drop]
  by_cases hbefore : p < offset
  · rw [if_pos (by omega), if_pos hbefore, if_neg (by omega), hresize, if_pos hbefore]
  · by_cases hinside : p < offset + data.length
    · rw [if_pos hinside, if_neg hbefore, if_pos ⟨by omega, hinside⟩]
    · rw [if_neg hinside, if_neg (by omega)]
      congr 2
      omega

theorem eq_of_getD {xs ys : List α} (hlength : xs.length = ys.length)
    (h : ∀ p, p < xs.length → xs.getD p fill = ys.getD p fill) : xs = ys := by
  refine ext_getElem hlength fun p hx hy => ?_
  have hp := h p hx
  rwa [getD_eq_getElem _ _ hx, getD_eq_getElem _ _ hy] at hp

theorem splice_append (offset : Nat) (first second xs : List α) :
    splice fill offset (first ++ second) xs =
      splice fill (offset + first.length) second (splice fill offset first xs) := by
  refine eq_of_getD fill (by simp only [length_splice, length_append]; omega) fun p _ => ?_
  simp only [getD_splice, length_append]
  by_cases hp : offset ≤ p ∧ p < offset + first.length
  · rw [if_pos ⟨hp.1, by omega⟩, if_neg (by omega), if_pos hp, getD_append _ _ _ _ (by omega)]
  · by_cases hq : offset + first.length ≤ p ∧ p < offset + first.length + second.length
    · rw [if_pos ⟨by omega, by omega⟩, if_pos hq, getD_append_right _ _ _ _ (by omega),
        Nat.sub_add_eq]
    · rw [if_neg (by omega), if_neg hq, if_neg hp]

end Macha
