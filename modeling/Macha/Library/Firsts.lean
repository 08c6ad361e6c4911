import Mathlib

/-!
# The first of each key

Of the entries of a list those that are the first with their key, the keys of
`seen` counting as seen before, and how a leading part of these changes with
`seen` and with one more entry.
-/

namespace Macha

open List

variable {α κ : Type} [DecidableEq κ] (f : α → κ)

def firstsBy : List κ → List α → List α
  | _, [] => []
  | seen, a :: rest =>
    if f a ∈ seen then firstsBy seen rest else a :: firstsBy (f a :: seen) rest

variable {f} {seen : List κ} {a b : α} {l l' : List α}

theorem firstsBy_of_seen {rest : List α} (h : f a ∈ seen) :
    firstsBy f seen (a :: rest) = firstsBy f seen rest := if_pos h

theorem firstsBy_of_new {rest : List α} (h : f a ∉ seen) :
    firstsBy f seen (a :: rest) = a :: firstsBy f (f a :: seen) rest := if_neg h

theorem firstsBy_congr {seen seen' : List κ} (h : ∀ a ∈ l, f a ∈ seen ↔ f a ∈ seen') :
    firstsBy f seen l = firstsBy f seen' l := by
  induction l generalizing seen seen' with
  | nil => rfl
  | cons a rest ih =>
    have hrest := fun b hb => h b (mem_cons_of_mem a hb)
    by_cases ha : f a ∈ seen
    · rw [firstsBy_of_seen ha, firstsBy_of_seen ((h a mem_cons_self).1 ha), ih hrest]
    · rw [firstsBy_of_new ha, firstsBy_of_new (mt (h a mem_cons_self).2 ha)]
      congr 1
      refine ih fun b hb => ?_
      rw [mem_cons, mem_cons, hrest b hb]

theorem firstsBy_swap (key key' : κ) (seen : List κ) (l : List α) :
    firstsBy f (key :: key' :: seen) l = firstsBy f (key' :: key :: seen) l :=
  firstsBy_congr fun a _ => by simp [or_left_comm]

theorem firstsBy_append (seen : List κ) (l l' : List α) :
    firstsBy f seen (l ++ l') = firstsBy f seen l ++ firstsBy f (l.map f ++ seen) l' := by
  induction l generalizing seen with
  | nil => rfl
  | cons a rest ih =>
    by_cases ha : f a ∈ seen
    · rw [cons_append, firstsBy_of_seen ha, firstsBy_of_seen ha, ih]
      congr 1
      refine firstsBy_congr fun b _ => ?_
      simp only [map_cons, cons_append, mem_cons, mem_append]
      constructor
      · exact Or.inr
      · rintro (h | h)
        · exact Or.inr (h ▸ ha)
        · exact h
    · rw [cons_append, firstsBy_of_new ha, firstsBy_of_new ha, ih, cons_append]
      congr 2
      refine firstsBy_congr fun b _ => ?_
      simp only [map_cons, cons_append, mem_cons, mem_append]
      tauto

theorem firstsBy_sublist (seen : List κ) (l : List α) : (firstsBy f seen l).Sublist l := by
  induction l generalizing seen with
  | nil => exact .slnil
  | cons a rest ih =>
    by_cases ha : f a ∈ seen
    · rw [firstsBy_of_seen ha]
      exact (ih seen).cons a
    · rw [firstsBy_of_new ha]
      exact (ih _).cons_cons a

theorem not_mem_of_mem_firstsBy (h : b ∈ firstsBy f seen l) : f b ∉ seen := by
  induction l generalizing seen with
  | nil => cases h
  | cons a rest ih =>
    by_cases ha : f a ∈ seen
    · rw [firstsBy_of_seen ha] at h
      exact ih h
    · rw [firstsBy_of_new ha] at h
      rcases mem_cons.1 h with rfl | h
      · exact ha
      · exact fun hb => ih h (mem_cons_of_mem _ hb)

theorem firstsBy_eq_filter (h : (l.map f).Nodup) (seen : List κ) :
    firstsBy f seen l = l.filter fun a => decide (f a ∉ seen) := by
  induction l generalizing seen with
  | nil => rfl
  | cons a rest ih =>
    rw [map_cons, nodup_cons] at h
    by_cases ha : f a ∈ seen
    · rw [firstsBy_of_seen ha, ih h.2, filter_cons_of_neg (by simpa using ha)]
    · rw [firstsBy_of_new ha, filter_cons_of_pos (by simpa using ha), ← ih h.2]
      congr 1
      refine firstsBy_congr fun b hb => ?_
      rw [mem_cons]
      constructor
      · rintro (heq | h')
        · exact absurd (heq ▸ List.mem_map_of_mem hb) h.1
        · exact h'
      · exact Or.inr

theorem mem_take_of_le {m n : Nat} (h : m ≤ n) (ha : a ∈ l.take m) :
    a ∈ l.take n := (take_prefix_take_left h).subset ha

variable {n : Nat}

/-- One more key seen moves the others up by one place at most. -/
theorem mem_take_firstsBy_succ {key : κ} (h : b ∈ (firstsBy f (key :: seen) l).take n) :
    b ∈ (firstsBy f seen l).take (n + 1) := by
  induction l generalizing seen n with
  | nil => cases n <;> cases h
  | cons a rest ih =>
    by_cases ha : f a ∈ seen
    · rw [firstsBy_of_seen (mem_cons_of_mem _ ha)] at h
      rw [firstsBy_of_seen ha]
      exact ih h
    · rw [firstsBy_of_new ha]
      by_cases hkey : f a = key
      · rw [firstsBy_of_seen (hkey ▸ mem_cons_self)] at h
        rw [hkey, take_succ_cons]
        exact mem_cons_of_mem _ h
      · rw [firstsBy_of_new (by simp [hkey, ha])] at h
        cases n with
        | zero => cases h
        | succ n =>
          rcases mem_cons.1 h with rfl | h
          · exact mem_cons_self
          · rw [firstsBy_swap] at h
            exact mem_cons_of_mem _ (ih h)

theorem length_firstsBy_le_succ (seen : List κ) (key : κ) (l : List α) :
    (firstsBy f seen l).length ≤ (firstsBy f (key :: seen) l).length + 1 := by
  induction l generalizing seen with
  | nil => exact Nat.zero_le _
  | cons a rest ih =>
    by_cases ha : f a ∈ seen
    · rw [firstsBy_of_seen ha, firstsBy_of_seen (mem_cons_of_mem _ ha)]
      exact ih seen
    · rw [firstsBy_of_new ha, length_cons]
      by_cases hkey : f a = key
      · rw [firstsBy_of_seen (hkey ▸ mem_cons_self), hkey]
      · rw [firstsBy_of_new (by simp [hkey, ha]), length_cons, firstsBy_swap]
        exact Nat.succ_le_succ (ih (f a :: seen))

/-- What was not seen keeps its place when less counts as seen. -/
theorem mem_take_firstsBy_mono {seen seen' : List κ} (hseen : ∀ a ∈ l, f a ∈ seen' → f a ∈ seen)
    (hb : f b ∉ seen) (h : b ∈ (firstsBy f seen' l).take n) : b ∈ (firstsBy f seen l).take n := by
  induction l generalizing seen seen' n with
  | nil => cases n <;> cases h
  | cons a rest ih =>
    have hrest := fun c hc => hseen c (mem_cons_of_mem a hc)
    by_cases ha' : f a ∈ seen'
    · rw [firstsBy_of_seen ha'] at h
      rw [firstsBy_of_seen (hseen a mem_cons_self ha')]
      exact ih hrest hb h
    · rw [firstsBy_of_new ha'] at h
      cases n with
      | zero => cases h
      | succ n =>
        by_cases ha : f a ∈ seen
        · rw [firstsBy_of_seen ha]
          rcases mem_cons.1 h with rfl | h
          · exact absurd ha hb
          · refine mem_take_of_le (Nat.le_succ n) (ih (fun c hc hmem => ?_) hb h)
            rcases mem_cons.1 hmem with heq | hmem
            · exact heq ▸ ha
            · exact hrest c hc hmem
        · rw [firstsBy_of_new ha, take_succ_cons]
          rcases mem_cons.1 h with rfl | h
          · exact mem_cons_self
          · by_cases hba : f b = f a
            · exact absurd mem_cons_self
                (hba ▸ not_mem_of_mem_firstsBy (mem_of_mem_take h))
            · refine mem_cons_of_mem _ (ih (fun c hc hmem => ?_) (by simp [hba, hb]) h)
              rcases mem_cons.1 hmem with heq | hmem
              · exact heq ▸ mem_cons_self
              · exact mem_cons_of_mem _ (hrest c hc hmem)

theorem firstsBy_insert (ha : f a ∉ seen) (hl : f a ∉ (l ++ l').map f) :
    ∃ before after, firstsBy f seen (l ++ a :: l') = before ++ a :: after ∧
      firstsBy f seen (l ++ l') = before ++ after := by
  rw [map_append, mem_append, not_or] at hl
  refine ⟨firstsBy f seen l, firstsBy f (l.map f ++ seen) l', ?_, firstsBy_append seen l l'⟩
  rw [firstsBy_append, firstsBy_of_new (by simp [ha]; simpa using hl.1)]
  congr 2
  refine firstsBy_congr fun b hb => ?_
  rw [mem_cons]
  constructor
  · rintro (heq | h)
    · exact absurd (heq ▸ List.mem_map_of_mem hb) hl.2
    · exact h
  · exact Or.inr

theorem firstsBy_insert_seen (ha : f a ∈ seen) :
    firstsBy f seen (l ++ a :: l') = firstsBy f seen (l ++ l') := by
  rw [firstsBy_append, firstsBy_append, firstsBy_of_seen (mem_append_right _ ha)]

theorem mem_take_insert (h : b ∈ (l ++ a :: l').take n) : b = a ∨ b ∈ (l ++ l').take n := by
  rw [take_append] at h
  rw [take_append]
  rcases mem_append.1 h with h | h
  · exact Or.inr (mem_append_left _ h)
  · cases hleft : n - l.length with
    | zero =>
      rw [hleft] at h
      cases h
    | succ left =>
      rw [hleft, take_succ_cons] at h
      rcases mem_cons.1 h with rfl | h
      · exact Or.inl rfl
      · exact Or.inr (mem_append_right _ (mem_take_of_le (Nat.le_succ left) h))

theorem le_length_of_not_mem_take (h : a ∉ (l ++ a :: l').take n) : n ≤ l.length := by
  by_contra hlt
  obtain ⟨left, hleft⟩ : ∃ left, n - l.length = left + 1 := ⟨n - l.length - 1, by omega⟩
  rw [take_append, hleft, take_succ_cons] at h
  exact h (mem_append_right _ mem_cons_self)

end Macha
