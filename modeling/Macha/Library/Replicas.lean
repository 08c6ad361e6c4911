import Mathlib

/-!
# Copies along a ranking

Nodes in the order of a ranking, some of which hold a copy. A node is covered
when it holds one or enough nodes before it do. Giving a copy, and dropping one
whose holder has enough before it, keep every node covered and never lower the
number of copies among the first nodes, counted up to the number wanted.
-/

namespace Macha

open List

variable {α : Type}

def copies (nodes : List α) (holds : α → Bool) : Nat := nodes.countP holds

theorem copies_mono {holds holds' : α → Bool} (h : ∀ z, holds z = true → holds' z = true)
    (nodes : List α) : copies nodes holds ≤ copies nodes holds' :=
  countP_mono_left fun z _ hz => h z hz

theorem copies_le_of_prefixed {nodes nodes' : List α} (h : nodes <+: nodes') (holds : α → Bool) :
    copies nodes holds ≤ copies nodes' holds :=
  h.sublist.countP_le

variable [DecidableEq α]

/-- The nodes ranked before `x`; all of them when `x` is not ranked. -/
def before (nodes : List α) (x : α) : List α := nodes.takeWhile (· ≠ x)

/-- The node holds a copy, or `k` nodes before it do. -/
def Covered (k : Nat) (nodes : List α) (holds : α → Bool) (x : α) : Prop :=
  holds x = true ∨ k ≤ copies (before nodes x) holds

section

variable {nodes nodes' : List α} {holds holds' : α → Bool} {x y : α} {k : Nat}

theorem before_le (nodes : List α) (x : α) : before nodes x <+: nodes :=
  takeWhile_prefix _

theorem not_mem_before (nodes : List α) (x : α) : x ∉ before nodes x := by
  intro h
  have hne := mem_takeWhile_imp h
  simp at hne

theorem before_length_lt (h : x ∈ nodes) : (before nodes x).length < nodes.length := by
  have hle := (before_le nodes x).length_le
  by_contra hge
  have heq : before nodes x = nodes := (before_le nodes x).eq_of_length (by omega)
  have hnot := not_mem_before nodes x
  rw [heq] at hnot
  exact hnot h

theorem before_le_before (h : y ∈ before nodes x) : before nodes y <+: before nodes x := by
  rcases prefix_or_prefix_of_prefix (before_le nodes y) (before_le nodes x) with
    hp | hp
  · exact hp
  · exact (not_mem_before nodes y (hp.subset h)).elim

theorem copies_drop (holds : α → Bool) (h : x ∉ nodes) :
    copies nodes (Function.update holds x false) = copies nodes holds := by
  refine countP_congr fun z hz => ?_
  have hne : z ≠ x := fun heq => h (heq ▸ hz)
  rw [Function.update_of_ne hne]

theorem Covered.mono (h : Covered k nodes holds x) (hmono : ∀ z, holds z = true → holds' z = true) :
    Covered k nodes holds' x := by
  rcases h with h | h
  · exact .inl (hmono x h)
  · exact .inr (h.trans (copies_mono hmono _))

theorem enough_of_covered {s : Finset α} (hcard : k ≤ s.card) (hbefore : ∀ z ∈ s, z ∈ before nodes x)
    (hcovered : ∀ z ∈ s, Covered k nodes holds z) : k ≤ copies (before nodes x) holds := by
  by_cases hall : ∀ z ∈ s, holds z = true
  · have hsubset : s ⊆ ((before nodes x).filter holds).toFinset := by
      intro z hz
      rw [List.mem_toFinset, mem_filter]
      exact ⟨hbefore z hz, hall z hz⟩
    have hcount : ((before nodes x).filter holds).toFinset.card ≤ copies (before nodes x) holds := by
      unfold copies
      rw [countP_eq_length_filter]
      exact toFinset_card_le _
    have hle := Finset.card_le_card hsubset
    omega
  · push Not at hall
    obtain ⟨z, hz, hnot⟩ := hall
    rcases hcovered z hz with hholds | henough
    · exact (hnot hholds).elim
    · exact henough.trans (copies_le_of_prefixed (before_le_before (hbefore z hz)) _)

/-- A list that is a prefix of the ranking keeps its copies, up to `k`, when a
node with `k` copies before it drops its own. -/
theorem min_copies_drop (hp : nodes' <+: nodes)
    (henough : x ∈ nodes → k ≤ copies (before nodes x) holds) :
    min k (copies nodes' holds) ≤ min k (copies nodes' (Function.update holds x false)) := by
  by_cases hx : x ∈ nodes'
  · have hsame := copies_drop holds (not_mem_before nodes x)
    have hshorter : before nodes x <+: nodes' := by
      rcases prefix_or_prefix_of_prefix (before_le nodes x) hp with h | h
      · exact h
      · exact (not_mem_before nodes x (h.subset hx)).elim
    have hk := henough (hp.subset hx)
    have hle := copies_le_of_prefixed hshorter (Function.update holds x false)
    omega
  · rw [copies_drop _ hx]

theorem Covered.drop (h : Covered k nodes holds y) (hy : y ∈ nodes)
    (henough : x ∈ nodes → k ≤ copies (before nodes x) holds) :
    Covered k nodes (Function.update holds x false) y := by
  by_cases hyx : y = x
  · subst hyx
    right
    rw [copies_drop _ (not_mem_before nodes y)]
    exact henough hy
  · rcases h with h | h
    · left
      rw [Function.update_of_ne hyx]
      exact h
    · right
      have hmin := min_copies_drop (before_le nodes y) henough
      omega

theorem Covered.exists_holder (h : Covered k nodes holds y) (hy : y ∈ nodes) (hk : 0 < k) :
    ∃ z ∈ nodes, holds z = true := by
  rcases h with h | h
  · exact ⟨y, hy, h⟩
  · have hpos : 0 < copies (before nodes y) holds := by omega
    obtain ⟨z, hz, hholds⟩ := countP_pos_iff.1 hpos
    exact ⟨z, (before_le nodes y).subset hz, hholds⟩

end

end Macha
