import Mathlib

/-!
# Collecting over lists in `Option`

A walk that may fail or run out of fuel at each element: what the collected
list has, when it exists, and one bound for all elements.
-/

namespace Macha

open List

variable {p : Prop} {α β : Type} {xs : List α}

theorem guard_of [Decidable p] (h : p) : (guard p : Option Unit) = some () :=
  if_pos h

theorem guard_eq_some [Decidable p] {u : Unit} (h : (guard p : Option Unit) = some u) : p := by
  unfold guard at h
  split at h
  · next hp => exact hp
  · cases h

theorem guard_bind_eq_some [Decidable p] {f : Unit → Option α} {a : α}
    (h : (guard p : Option Unit).bind f = some a) : p ∧ f () = some a := by
  by_cases hp : p
  · rw [guard_of hp] at h
    exact ⟨hp, h⟩
  · rw [show (guard p : Option Unit) = none from if_neg hp] at h
    cases h

variable {f : α → Option (List β)}

theorem mem_flatten_of_mapM {out : List (List β)} (h : xs.mapM f = some out) {x : α} (hx : x ∈ xs) :
    ∃ ys, f x = some ys ∧ ∀ y ∈ ys, y ∈ out.flatten := by
  induction xs generalizing out with
  | nil => cases hx
  | cons a xs ih =>
    rw [mapM_cons] at h
    obtain ⟨ys, hys, h⟩ := Option.bind_eq_some_iff.1 h
    obtain ⟨rest, hrest, h⟩ := Option.bind_eq_some_iff.1 h
    cases h
    rcases mem_cons.1 hx with rfl | hx
    · exact ⟨ys, hys, fun y hy => mem_append_left _ hy⟩
    · obtain ⟨zs, hzs, hmem⟩ := ih hrest hx
      exact ⟨zs, hzs, fun y hy => mem_append_right _ (hmem y hy)⟩

theorem mapM_isSome {f : α → Option β} (h : ∀ x ∈ xs, (f x).isSome = true) :
    (xs.mapM f).isSome = true := by
  induction xs with
  | nil => rfl
  | cons a xs ih =>
    obtain ⟨y, hy⟩ := Option.isSome_iff_exists.1 (h a mem_cons_self)
    obtain ⟨ys, hys⟩ :=
      Option.isSome_iff_exists.1 (ih fun x hx => h x (mem_cons_of_mem _ hx))
    rw [mapM_cons, hy, hys]
    rfl

theorem mapM_eq_map {f : α → Option β} {g : α → β} (h : ∀ x ∈ xs, f x = some (g x)) :
    xs.mapM f = some (xs.map g) := by
  induction xs with
  | nil => rfl
  | cons a xs ih =>
    rw [mapM_cons, h a mem_cons_self, ih fun x hx => h x (mem_cons_of_mem _ hx)]
    rfl

theorem exists_first_of_exists {P : α → Prop} (h : ∃ x ∈ xs, P x) :
    ∃ before x after, xs = before ++ x :: after ∧ P x ∧ ∀ y ∈ before, ¬ P y := by
  induction xs with
  | nil =>
    obtain ⟨x, hx, -⟩ := h
    cases hx
  | cons a xs ih =>
    by_cases ha : P a
    · exact ⟨[], a, xs, rfl, ha, nofun⟩
    · have hrest : ∃ x ∈ xs, P x := by
        obtain ⟨x, hx, hP⟩ := h
        rcases mem_cons.1 hx with rfl | hx
        · exact absurd hP ha
        · exact ⟨x, hx, hP⟩
      obtain ⟨before, x, after, rfl, hx, hbefore⟩ := ih hrest
      refine ⟨a :: before, x, after, rfl, hx, fun y hy => ?_⟩
      rcases mem_cons.1 hy with rfl | hy
      · exact ha
      · exact hbefore y hy

theorem exists_last_of_exists {P : α → Prop} (h : ∃ x ∈ xs, P x) :
    ∃ before x after, xs = before ++ x :: after ∧ P x ∧ ∀ y ∈ after, ¬ P y := by
  induction xs with
  | nil =>
    obtain ⟨x, hx, -⟩ := h
    cases hx
  | cons a xs ih =>
    by_cases hrest : ∃ x ∈ xs, P x
    · obtain ⟨before, x, after, rfl, hx, hafter⟩ := ih hrest
      exact ⟨a :: before, x, after, rfl, hx, hafter⟩
    · have hnone : ∀ y ∈ xs, ¬ P y := fun y hy hP => hrest ⟨y, hy, hP⟩
      obtain ⟨x, hx, hP⟩ := h
      rcases mem_cons.1 hx with rfl | hx
      · exact ⟨[], x, xs, rfl, hP, hnone⟩
      · exact absurd hP (hnone x hx)

theorem exists_bound {P : α → Nat → Prop} (h : ∀ x ∈ xs, ∃ bound, ∀ fuel ≥ bound, P x fuel) :
    ∃ bound, ∀ fuel ≥ bound, ∀ x ∈ xs, P x fuel := by
  induction xs with
  | nil => exact ⟨0, fun _ _ => nofun⟩
  | cons a xs ih =>
    obtain ⟨b, hb⟩ := h a mem_cons_self
    obtain ⟨c, hc⟩ := ih fun x hx => h x (mem_cons_of_mem _ hx)
    refine ⟨max b c, fun fuel hfuel x hx => ?_⟩
    rcases mem_cons.1 hx with rfl | hx
    · exact hb fuel (by omega)
    · exact hc fuel (by omega) x hx

theorem foldlM_append_eq {g : α → List β} (h : ∀ x ∈ xs, f x = some (g x)) (out : List β) :
    xs.foldlM (fun out x => do some (out ++ (← f x))) out = some (out ++ xs.flatMap g) := by
  induction xs generalizing out with
  | nil => simp
  | cons x xs ih =>
    rw [foldlM_cons, h x mem_cons_self]
    show xs.foldlM (fun out x => do some (out ++ (← f x))) (out ++ g x) = _
    rw [ih (fun y hy => h y (mem_cons_of_mem _ hy)), flatMap_cons, append_assoc]

end Macha
