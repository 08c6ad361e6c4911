import Mathlib

/-!
# Depth-first search

A search with a stack and the nodes seen, over a graph with finitely many edges.
It looks for a node that passes a test, and finds one exactly when one can be
reached: every turn takes a node off the stack, and the edges of a node are put on
it once.
-/

namespace Macha

open List

section

variable {κ : Type} [DecidableEq κ] (follow : κ → List κ) (hit : κ → Bool)

/-- Takes nodes off the stack until one passes the test; the last that is put on it is
the first taken. -/
def search : Nat → List κ → List κ → Bool
  | 0, _, _ => false
  | _ + 1, [], _ => false
  | fuel + 1, x :: pending, seen =>
    if x ∈ seen then search fuel pending seen
    else hit x || search fuel ((follow x).reverse ++ pending) (x :: seen)

/-- The edges of the nodes that have not been seen. -/
def edgesLeft (nodes seen : List κ) : Nat :=
  ((nodes.filter fun x => decide (x ∉ seen)).map fun x => (follow x).length).sum

/-- The search from a node, with a turn for every edge of the graph. -/
def searchFrom (nodes : List κ) (start : κ) : Bool :=
  search follow hit (edgesLeft follow nodes [] + 2) [start] []

/-- One node is reached from the other. -/
abbrev LeadsTo : κ → κ → Prop := Relation.ReflTransGen fun x y => y ∈ follow x

end

section

variable {κ : Type} [DecidableEq κ] {follow : κ → List κ} {hit : κ → Bool}

variable {pending seen nodes : List κ}

theorem exists_of_search {fuel : Nat} (h : search follow hit fuel pending seen = true) :
    ∃ x ∈ pending, ∃ y, LeadsTo follow x y ∧ hit y = true := by
  induction fuel generalizing pending seen with
  | zero => cases h
  | succ fuel ih =>
    cases pending with
    | nil => cases h
    | cons x pending =>
      unfold search at h
      split at h
      · obtain ⟨z, hz, hfound⟩ := ih h
        exact ⟨z, mem_cons_of_mem _ hz, hfound⟩
      · rcases (Bool.or_eq_true _ _).mp h with hhit | h
        · exact ⟨x, mem_cons_self, x, .refl, hhit⟩
        · obtain ⟨z, hz, y, hreached, hhit⟩ := ih h
          rcases mem_append.1 hz with hz | hz
          · exact ⟨x, mem_cons_self, y, .head (mem_reverse.1 hz) hreached, hhit⟩
          · exact ⟨z, mem_cons_of_mem _ hz, y, hreached, hhit⟩

theorem edgesLeft_cons {x : κ} (hx : x ∉ seen) (hnode : follow x ≠ [] → x ∈ nodes) :
    edgesLeft follow nodes (x :: seen) + (follow x).length ≤ edgesLeft follow nodes seen := by
  have hle : ∀ ns : List κ, edgesLeft follow ns (x :: seen) ≤ edgesLeft follow ns seen := by
    intro ns
    refine List.Sublist.sum_le_sum ((monotone_filter_right ns fun y hy => ?_).map _) fun _ _ =>
      Nat.zero_le _
    have hnew := of_decide_eq_true hy
    exact decide_eq_true fun hmem => hnew (mem_cons_of_mem _ hmem)
  by_cases hempty : follow x = []
  · rw [hempty]
    exact hle nodes
  · obtain ⟨front, back, rfl⟩ := append_of_mem (hnode hempty)
    have hfront := hle front
    have hback := hle back
    unfold edgesLeft at hfront hback ⊢
    rw [filter_append, filter_append, filter_cons_of_neg (by simp),
      filter_cons_of_pos (p := fun x => decide (x ∉ seen)) (decide_eq_true hx), map_append, map_append, map_cons,
      sum_append, sum_append, sum_cons]
    omega

theorem not_hit_of_search (hnodes : ∀ x, follow x ≠ [] → x ∈ nodes) {fuel : Nat}
    (hfuel : pending.length + edgesLeft follow nodes seen < fuel)
    (hseen : ∀ x ∈ seen, hit x = false ∧ ∀ y ∈ follow x, y ∈ seen ∨ y ∈ pending)
    (h : search follow hit fuel pending seen = false) {x y : κ} (hx : x ∈ seen ∨ x ∈ pending)
    (hreached : LeadsTo follow x y) : hit y = false := by
  induction fuel generalizing pending seen with
  | zero => omega
  | succ fuel ih =>
    cases pending with
    | nil =>
      have hin : y ∈ seen := by
        clear ih
        induction hreached with
        | refl => exact hx.resolve_right not_mem_nil
        | tail _ hstep hprevious =>
          exact ((hseen _ hprevious).2 _ hstep).resolve_right not_mem_nil
      exact (hseen y hin).1
    | cons z pending =>
      rw [length_cons] at hfuel
      unfold search at h
      split at h
      · next hz =>
        refine ih (by omega) (fun w hw => ⟨(hseen w hw).1, fun v hv => ?_⟩) h ?_
        · rcases (hseen w hw).2 v hv with hv | hv
          · exact .inl hv
          · rcases mem_cons.1 hv with rfl | hv
            · exact .inl hz
            · exact .inr hv
        · rcases hx with hx | hx
          · exact .inl hx
          · rcases mem_cons.1 hx with rfl | hx
            · exact .inl hz
            · exact .inr hx
      · next hz =>
        obtain ⟨hmiss, h⟩ := (Bool.or_eq_false_iff).1 h
        have hedges := edgesLeft_cons hz (hnodes z)
        refine ih ?_ (fun w hw => ?_) h ?_
        · rw [length_append, length_reverse]
          omega
        · rcases mem_cons.1 hw with rfl | hw
          · exact ⟨hmiss, fun v hv => .inr (mem_append_left _ (mem_reverse.2 hv))⟩
          · refine ⟨(hseen w hw).1, fun v hv => ?_⟩
            rcases (hseen w hw).2 v hv with hv | hv
            · exact .inl (mem_cons_of_mem _ hv)
            · rcases mem_cons.1 hv with rfl | hv
              · exact .inl mem_cons_self
              · exact .inr (mem_append_right _ hv)
        · rcases hx with hx | hx
          · exact .inl (mem_cons_of_mem _ hx)
          · rcases mem_cons.1 hx with rfl | hx
            · exact .inl mem_cons_self
            · exact .inr (mem_append_right _ hx)

theorem searchFrom_iff (hnodes : ∀ x, follow x ≠ [] → x ∈ nodes) {start : κ} :
    searchFrom follow hit nodes start = true ↔ ∃ y, LeadsTo follow start y ∧ hit y = true := by
  constructor
  · intro h
    obtain ⟨x, hx, hfound⟩ := exists_of_search h
    rw [mem_singleton.1 hx] at hfound
    exact hfound
  · rintro ⟨y, hreached, hhit⟩
    by_contra hmiss
    have hsearch : search follow hit (edgesLeft follow nodes [] + 2) [start] [] = false :=
      Bool.eq_false_iff.2 hmiss
    have hfuel : [start].length + edgesLeft follow nodes [] < edgesLeft follow nodes [] + 2 := by
      rw [length_singleton]
      omega
    have hnone := not_hit_of_search hnodes hfuel nofun hsearch (.inr (mem_singleton.2 rfl))
      hreached
    rw [hhit] at hnone
    cases hnone

end

end Macha
