import Mathlib

/-!
# Runs of equal keys

A list whose keys ascend falls into runs, one for each key that occurs: the
elements of that key. A loop that goes from run to run and assigns each run's
slot assigns every key its own elements.
-/

namespace Macha

open List

section

variable {α β κ : Type} [LinearOrder κ] (key : α → κ)

def ofKey (k : κ) (xs : List α) : List α := xs.filter fun x => key x = k

/-- The runs of a list, of the runs there can be. -/
def runsIn : Nat → List α → List (κ × List α)
  | 0, _ => []
  | _ + 1, [] => []
  | fuel + 1, x :: xs =>
    (key x, (x :: xs).takeWhile fun y => key y = key x) ::
      runsIn fuel ((x :: xs).dropWhile fun y => key y = key x)

def runs (xs : List α) : List (κ × List α) := runsIn key xs.length xs

/-- The slot of each run assigned in turn, from what it held and from the run. -/
def assignRuns (assign : κ → β → List α → Option β) (slots : κ → β)
    (parts : List (κ × List α)) : Option (κ → β) :=
  parts.foldlM
    (fun slots part => do
      let value ← assign part.1 (slots part.1) part.2
      some (Function.update slots part.1 value))
    slots

def Ascending (xs : List α) : Prop := xs.Pairwise fun x y => key x ≤ key y

end

section

variable {α β κ : Type} [LinearOrder κ] {key : α → κ}

theorem Ascending.sublist {xs ys : List α} (h : Ascending key ys) (hsub : xs.Sublist ys) :
    Ascending key xs :=
  List.Pairwise.sublist hsub h

theorem ofKey_ofKey_ne {k other : κ} (hne : other ≠ k) (xs : List α) :
    ofKey key other (xs.filter fun x => key x ≠ k) = ofKey key other xs := by
  unfold ofKey
  rw [List.filter_filter]
  refine filter_congr fun x _ => ?_
  by_cases h : key x = other
  · simp [h, hne]
  · simp [h]

variable {xs : List α}

theorem takeWhile_eq_ofKey {k : κ} (h : Ascending key xs) (hle : ∀ x ∈ xs, k ≤ key x) :
    (xs.takeWhile fun y => key y = k) = ofKey key k xs := by
  induction xs with
  | nil => rfl
  | cons x xs ih =>
    obtain ⟨hx, hxs⟩ := pairwise_cons.1 h
    by_cases hk : key x = k
    · simp only [ofKey, takeWhile_cons, filter_cons, hk, decide_true, if_true]
      rw [ih hxs fun y hy => hle y (mem_cons_of_mem _ hy)]
      rfl
    · have hlt : k < key x := lt_of_le_of_ne (hle x mem_cons_self) (Ne.symm hk)
      have hnone : ofKey key k xs = [] := by
        simp only [ofKey, filter_eq_nil_iff, decide_eq_true_eq]
        intro y hy heq
        exact absurd (hx y hy) (not_le.2 (heq ▸ hlt))
      simp only [ofKey, takeWhile_cons, filter_cons, hk, decide_false] at hnone ⊢
      simp [hnone]

theorem dropWhile_eq_filter {k : κ} (h : Ascending key xs) (hle : ∀ x ∈ xs, k ≤ key x) :
    (xs.dropWhile fun y => key y = k) = xs.filter fun x => key x ≠ k := by
  induction xs with
  | nil => rfl
  | cons x xs ih =>
    obtain ⟨hx, hxs⟩ := pairwise_cons.1 h
    by_cases hk : key x = k
    · simp only [dropWhile_cons, filter_cons, hk, decide_true, if_true]
      rw [ih hxs fun y hy => hle y (mem_cons_of_mem _ hy)]
      simp
    · have hlt : k < key x := lt_of_le_of_ne (hle x mem_cons_self) (Ne.symm hk)
      have hall : (x :: xs).filter (fun x => key x ≠ k) = x :: xs := by
        rw [filter_eq_self]
        intro y hy
        have hne : key y ≠ k := by
          rcases mem_cons.1 hy with rfl | hy
          · exact hk
          · exact fun heq => absurd (hx y hy) (not_le.2 (heq ▸ hlt))
        simp [hne]
      rw [hall]
      simp [hk]

theorem flatMap_ofKey {ks : List κ} (hks : ks.Pairwise (· < ·)) (h : Ascending key xs)
    (hall : ∀ x ∈ xs, key x ∈ ks) :
    (ks.flatMap fun k => ofKey key k xs) = xs := by
  induction ks generalizing xs with
  | nil =>
    cases xs with
    | nil => rfl
    | cons x xs => simpa using hall x mem_cons_self
  | cons k ks ih =>
    obtain ⟨hk, hks⟩ := pairwise_cons.1 hks
    have hle : ∀ x ∈ xs, k ≤ key x := by
      intro x hx
      rcases mem_cons.1 (hall x hx) with heq | hmem
      · exact heq.ge
      · exact (hk _ hmem).le
    have hrest : (ks.flatMap fun k' => ofKey key k' xs) = xs.filter fun x => key x ≠ k := by
      have hih := ih hks (h.sublist (filter_sublist (p := fun x => decide (key x ≠ k))))
        (by
          intro x hx
          simp only [mem_filter, decide_eq_true_eq] at hx
          exact (mem_cons.1 (hall x hx.1)).resolve_left hx.2)
      rw [← hih]
      refine flatMap_congr fun k' hk' => ?_
      exact (ofKey_ofKey_ne (hk k' hk').ne' xs).symm
    rw [flatMap_cons, hrest, ← takeWhile_eq_ofKey h hle, ← dropWhile_eq_filter h hle,
      takeWhile_append_dropWhile]

theorem assignRuns_runsIn {assign : κ → β → List α → Option β} {value : κ → β} {fuel : Nat}
    (hfuel : xs.length ≤ fuel) (h : Ascending key xs) {slots : κ → β}
    (hassign : ∀ k, ofKey key k xs ≠ [] → assign k (slots k) (ofKey key k xs) = some (value k)) :
    assignRuns assign slots (runsIn key fuel xs) =
      some fun k => if ofKey key k xs = [] then slots k else value k := by
  induction fuel generalizing xs slots with
  | zero =>
    rw [length_eq_zero_iff.1 (Nat.le_zero.1 hfuel)]
    rfl
  | succ fuel ih =>
    cases xs with
    | nil => rfl
    | cons x xs =>
      have hle : ∀ y ∈ x :: xs, key x ≤ key y := by
        intro y hy
        rcases mem_cons.1 hy with rfl | hy
        · exact le_rfl
        · exact (pairwise_cons.1 h).1 y hy
      have hmine : ofKey key (key x) (x :: xs) ≠ [] := by simp [ofKey]
      have hothers k hk :
          ofKey key k ((x :: xs).filter fun y => key y ≠ key x) = ofKey key k (x :: xs) :=
        ofKey_ofKey_ne hk _
      have hself : ofKey key (key x) ((x :: xs).filter fun y => key y ≠ key x) = [] := by
        simp [ofKey, List.filter_filter]
      show assignRuns assign slots ((key x, (x :: xs).takeWhile fun y => key y = key x) ::
        runsIn key fuel ((x :: xs).dropWhile fun y => key y = key x)) = _
      rw [takeWhile_eq_ofKey h hle, dropWhile_eq_filter h hle]
      unfold assignRuns
      rw [foldlM_cons, hassign _ hmine]
      show assignRuns assign (Function.update slots (key x) (value (key x)))
        (runsIn key fuel ((x :: xs).filter fun y => key y ≠ key x)) = _
      rw [ih]
      · congr 1
        funext k
        by_cases hk : k = key x
        · subst hk
          simp [hmine]
        · rw [hothers k hk, Function.update_of_ne hk]
      · have hlength := length_filter_le (fun y => decide (key y ≠ key x)) xs
        simp only [filter_cons, ne_eq, not_true_eq_false, decide_false,
          Bool.false_eq_true, if_false, length_cons] at hfuel ⊢
        exact hlength.trans (by omega)
      · exact h.sublist filter_sublist
      · intro k hk
        have hne : k ≠ key x := by
          intro heq
          rw [heq, hself] at hk
          exact hk rfl
        rw [hothers k hne] at hk ⊢
        rw [Function.update_of_ne hne]
        exact hassign k hk

theorem assignRuns_runs (assign : κ → β → List α → Option β) (slots value : κ → β)
    (h : Ascending key xs)
    (hassign : ∀ k, ofKey key k xs ≠ [] → assign k (slots k) (ofKey key k xs) = some (value k)) :
    assignRuns assign slots (runs key xs) =
      some fun k => if ofKey key k xs = [] then slots k else value k :=
  assignRuns_runsIn le_rfl h hassign

end

section

variable {β κ : Type} [DecidableEq κ] {assign : κ → Option β}

theorem foldlM_update_eq {value : κ → β} (h : ∀ k, assign k = some (value k)) (keys : List κ)
    (slots : κ → β) (hnot : ∀ k ∉ keys, slots k = value k) :
    keys.foldlM (fun slots k => do some (Function.update slots k (← assign k))) slots =
      some value := by
  induction keys generalizing slots with
  | nil =>
    have hall : slots = value := funext fun k => hnot k not_mem_nil
    rw [hall]
    rfl
  | cons k keys ih =>
    rw [foldlM_cons, h k]
    refine ih _ fun other hother => ?_
    by_cases heq : other = k
    · rw [heq, Function.update_self]
    · rw [Function.update_of_ne heq]
      refine hnot other fun hmem => ?_
      rcases mem_cons.1 hmem with hmem | hmem
      · exact heq hmem
      · exact hother hmem

theorem foldlM_update_none {k : κ} (h : assign k = none) {keys : List κ} (hk : k ∈ keys)
    (slots : κ → β) :
    keys.foldlM (fun slots k => do some (Function.update slots k (← assign k))) slots = none := by
  induction keys generalizing slots with
  | nil => cases hk
  | cons first keys ih =>
    rw [foldlM_cons]
    rcases mem_cons.1 hk with rfl | hk
    · rw [h]
      rfl
    · cases assign first with
      | none => rfl
      | some value => exact ih hk _

end

end Macha
