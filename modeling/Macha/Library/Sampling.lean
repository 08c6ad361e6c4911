import Mathlib

/-!
# Systematic sampling

Quotas laid end to end cut a line into intervals. One point in every `slots`
places, the first at `shard`, meets an interval no longer than `slots` at most
once, and a line of `copies * slots` places exactly `copies` times; over all
first points an interval is met as often as it is long.
-/

namespace Macha

open List

/-- The points of one sample. -/
def samplePoint (slots shard copy : Nat) : Nat := shard + copy * slots

/-- The entries whose interval, beginning at `start`, holds a point. -/
def sampleFrom (slots copies shard : Nat) : Nat → Nat → List Nat → List Nat
  | _, _, [] => []
  | index, start, quota :: quotas =>
    let stop := start + quota
    if (range copies).any fun copy =>
        decide (start ≤ samplePoint slots shard copy ∧ samplePoint slots shard copy < stop) then
      index :: sampleFrom slots copies shard (index + 1) stop quotas
    else sampleFrom slots copies shard (index + 1) stop quotas

def pointsIn (slots copies shard start stop : Nat) : Nat :=
  ((Finset.range copies).filter fun copy =>
    start ≤ samplePoint slots shard copy ∧ samplePoint slots shard copy < stop).card

section

variable {slots copies shard : Nat}

theorem pointsIn_add {start middle stop : Nat} (h₁ : start ≤ middle) (h₂ : middle ≤ stop) :
    pointsIn slots copies shard start stop =
      pointsIn slots copies shard start middle + pointsIn slots copies shard middle stop := by
  unfold pointsIn
  rw [← Finset.card_union_of_disjoint]
  · congr 1
    ext copy
    simp only [Finset.mem_filter, Finset.mem_union, Finset.mem_range]
    omega
  · rw [Finset.disjoint_left]
    intro copy h h'
    simp only [Finset.mem_filter] at h h'
    omega

theorem pointsIn_le_one {start quota : Nat} (h : quota ≤ slots) :
    pointsIn slots copies shard start (start + quota) ≤ 1 := by
  unfold pointsIn
  rw [Finset.card_le_one]
  intro a ha b hb
  have ha := (Finset.mem_filter.1 ha).2
  have hb := (Finset.mem_filter.1 hb).2
  unfold samplePoint at ha hb
  by_contra hne
  rcases Nat.lt_or_gt_of_ne hne with hlt | hlt
  · have hmul : (a + 1) * slots ≤ b * slots := Nat.mul_le_mul_right _ hlt
    rw [Nat.succ_mul] at hmul
    omega
  · have hmul : (b + 1) * slots ≤ a * slots := Nat.mul_le_mul_right _ hlt
    rw [Nat.succ_mul] at hmul
    omega

theorem pointsIn_pos_iff {start stop : Nat} : 0 < pointsIn slots copies shard start stop ↔
      ∃ copy < copies, start ≤ samplePoint slots shard copy ∧
        samplePoint slots shard copy < stop := by
  unfold pointsIn
  rw [Finset.card_pos]
  constructor
  · rintro ⟨copy, h⟩
    simp only [Finset.mem_filter, Finset.mem_range] at h
    exact ⟨copy, h.1, h.2⟩
  · rintro ⟨copy, hcopy, h⟩
    exact ⟨copy, by simp only [Finset.mem_filter, Finset.mem_range]; exact ⟨hcopy, h⟩⟩

theorem pointsIn_line (h : shard < slots) :
    pointsIn slots copies shard 0 (copies * slots) = copies := by
  unfold pointsIn
  rw [Finset.filter_true_of_mem, Finset.card_range]
  intro copy hcopy
  have hmul : (copy + 1) * slots ≤ copies * slots :=
    Nat.mul_le_mul_right _ (Finset.mem_range.1 hcopy)
  rw [Nat.succ_mul] at hmul
  unfold samplePoint
  omega

theorem pointsIn_le_copies {start stop : Nat} : pointsIn slots copies shard start stop ≤ copies :=
  (Finset.card_filter_le _ _).trans (Finset.card_range copies).le

theorem sampleFrom_cons (index start quota : Nat) (quotas : List Nat) :
    sampleFrom slots copies shard index start (quota :: quotas) =
      (if 0 < pointsIn slots copies shard start (start + quota) then [index] else []) ++
        sampleFrom slots copies shard (index + 1) (start + quota) quotas := by
  have hiff : ((range copies).any fun copy =>
      decide (start ≤ samplePoint slots shard copy ∧
        samplePoint slots shard copy < start + quota)) = true ↔
      0 < pointsIn slots copies shard start (start + quota) := by
    rw [pointsIn_pos_iff]
    simp only [List.any_eq_true, mem_range, decide_eq_true_eq]
  rw [sampleFrom]
  by_cases h : 0 < pointsIn slots copies shard start (start + quota)
  · simp only [hiff.2 h, h, if_true, singleton_append]
  · simp only [mt hiff.1 h, h, if_false, nil_append]
    rfl

theorem sampleFrom_ascending (index start : Nat) (quotas : List Nat) :
    (sampleFrom slots copies shard index start quotas).Pairwise (· < ·) ∧
      ∀ i ∈ sampleFrom slots copies shard index start quotas,
        index ≤ i ∧ i < index + quotas.length := by
  induction quotas generalizing index start with
  | nil => exact ⟨List.Pairwise.nil, fun i hi => nomatch hi⟩
  | cons quota quotas ih =>
    obtain ⟨hsorted, hbound⟩ := ih (index + 1) (start + quota)
    rw [sampleFrom_cons]
    split
    · refine ⟨pairwise_cons.2 ⟨fun i hi => ?_, hsorted⟩, fun i hi => ?_⟩
      · have := hbound i hi
        omega
      · rw [length_cons]
        rcases mem_cons.1 hi with rfl | hi
        · omega
        · have := hbound i hi
          omega
    · refine ⟨hsorted, fun i hi => ?_⟩
      have := hbound i hi
      rw [length_cons]
      omega

theorem length_sampleFrom_le (index start : Nat) (quotas : List Nat) :
    (sampleFrom slots copies shard index start quotas).length ≤
      pointsIn slots copies shard start (start + quotas.sum) := by
  induction quotas generalizing index start with
  | nil => exact Nat.zero_le _
  | cons quota quotas ih =>
    have htail := ih (index + 1) (start + quota)
    have hsplit : pointsIn slots copies shard start (start + (quota + quotas.sum)) = _ :=
      pointsIn_add (Nat.le_add_right start quota) (by omega)
    rw [sampleFrom_cons, sum_cons, hsplit, ← Nat.add_assoc, length_append]
    split
    · simp only [length_singleton]
      omega
    · simp only [length_nil]
      omega

variable {quotas : List Nat}

section

variable (hquotas : ∀ quota ∈ quotas, quota ≤ slots)

include hquotas

/-- Intervals no longer than the distance of the points are met once for each
point in them. -/
theorem length_sampleFrom (index start : Nat) :
    (sampleFrom slots copies shard index start quotas).length =
      pointsIn slots copies shard start (start + quotas.sum) := by
  induction quotas generalizing index start with
  | nil =>
    have hnone : pointsIn slots copies shard start (start + 0) ≤ 0 := by
      unfold pointsIn
      rw [Nat.le_zero, Finset.card_eq_zero, Finset.filter_eq_empty_iff]
      omega
    exact (Nat.le_zero.1 hnone).symm
  | cons quota quotas ih =>
    have htail := ih (fun q hq => hquotas q (mem_cons_of_mem _ hq)) (index + 1)
      (start + quota)
    have hone : pointsIn slots copies shard start (start + quota) ≤ 1 :=
      pointsIn_le_one (hquotas quota mem_cons_self)
    have hsplit : pointsIn slots copies shard start (start + (quota + quotas.sum)) = _ :=
      pointsIn_add (Nat.le_add_right start quota) (by omega)
    rw [sampleFrom_cons, sum_cons, hsplit, ← Nat.add_assoc, length_append, htail]
    split
    · simp only [length_singleton]
      omega
    · simp only [length_nil]
      omega

/-- Quotas that fill the line give a sample of as many entries as there are points. -/
theorem length_sampleFrom_line (hsum : quotas.sum = copies * slots) (hshard : shard < slots) :
    (sampleFrom slots copies shard 0 0 quotas).length = copies := by
  rw [length_sampleFrom hquotas, Nat.zero_add, hsum, pointsIn_line hshard]

omit hquotas in
theorem card_mem_sampleFrom {n : Nat} (hn : quotas.length = n) :
    (Finset.univ.filter fun i : Fin n => i.val ∈ sampleFrom slots copies shard 0 0 quotas).card =
      (sampleFrom slots copies shard 0 0 quotas).length := by
  obtain ⟨hascending, hbound⟩ := @sampleFrom_ascending slots copies shard 0 0 quotas
  rw [← toFinset_card_of_nodup hascending.nodup, ← Finset.card_map Fin.valEmbedding]
  congr 1
  ext i
  simp only [Finset.mem_map, Finset.mem_filter, Finset.mem_univ, true_and, Fin.valEmbedding_apply,
    List.mem_toFinset]
  constructor
  · rintro ⟨j, hj, rfl⟩
    exact hj
  · intro hi
    exact ⟨⟨i, by have := hbound i hi; omega⟩, hi, rfl⟩

omit hquotas in
/-- An interval on the line is met by as many first points as it is long. -/
theorem card_meets {start quota : Nat} (hquota : quota ≤ slots)
    (hline : start + quota ≤ copies * slots) :
    ((Finset.range slots).filter fun shard =>
      0 < pointsIn slots copies shard start (start + quota)).card = quota := by
  have himage : (Finset.range slots).filter (fun shard =>
      0 < pointsIn slots copies shard start (start + quota)) =
      (Finset.Ico start (start + quota)).image (· % slots) := by
    ext shard
    simp only [Finset.mem_filter, Finset.mem_range, Finset.mem_image, Finset.mem_Ico,
      pointsIn_pos_iff, samplePoint]
    constructor
    · rintro ⟨hshard, copy, _, hin⟩
      exact ⟨_, hin, by rw [Nat.add_mul_mod_self_right, Nat.mod_eq_of_lt hshard]⟩
    · rintro ⟨place, hplace, rfl⟩
      have hslots : 0 < slots := by omega
      have heq : place % slots + place / slots * slots = place := by
        rw [Nat.mul_comm]
        exact Nat.mod_add_div place slots
      refine ⟨Nat.mod_lt _ hslots, place / slots, ?_, by rw [heq]; exact hplace⟩
      rw [Nat.div_lt_iff_lt_mul hslots]
      omega
  rw [himage, Finset.card_image_of_injOn, Nat.card_Ico, Nat.add_sub_cancel_left]
  intro a ha b hb heq
  simp only [Finset.coe_Ico, Set.mem_Ico] at ha hb
  have hmod : a ≡ b [MOD slots] := heq
  refine hmod.eq_of_abs_lt ?_
  rw [abs_lt]
  omega

/-- Over all first points an entry is in the sample as often as its quota says. -/
theorem card_sampleFrom (index start : Nat) (hline : start + quotas.sum ≤ copies * slots) (i : Nat)
    (hi : i < quotas.length) :
    ((Finset.range slots).filter fun shard =>
      index + i ∈ sampleFrom slots copies shard index start quotas).card = quotas[i] := by
  induction quotas generalizing index start i with
  | nil => exact absurd hi (Nat.not_lt_zero i)
  | cons quota quotas ih =>
    rw [sum_cons] at hline
    cases i with
    | zero =>
      have hmem : ∀ shard, index + 0 ∈ sampleFrom slots copies shard index start
          (quota :: quotas) ↔ 0 < pointsIn slots copies shard start (start + quota) := by
        intro shard
        have hnot : index ∉ sampleFrom slots copies shard (index + 1) (start + quota)
            quotas := by
          intro h
          have := (sampleFrom_ascending (index + 1) (start + quota) quotas).2 index h
          omega
        rw [sampleFrom_cons]
        by_cases h : 0 < pointsIn slots copies shard start (start + quota)
        · simp [h]
        · simp [h, hnot]
      simp only [hmem]
      exact card_meets (hquotas quota mem_cons_self) (by omega)
    | succ i =>
      have hmem : ∀ shard, index + (i + 1) ∈ sampleFrom slots copies shard index start
          (quota :: quotas) ↔ index + 1 + i ∈ sampleFrom slots copies shard (index + 1)
            (start + quota) quotas := by
        intro shard
        rw [sampleFrom_cons, Nat.add_assoc, Nat.add_comm 1 i, mem_append]
        constructor
        · rintro (h | h)
          · split at h
            · have := mem_singleton.1 h
              omega
            · cases h
          · exact h
        · exact Or.inr
      simp only [hmem]
      exact ih (fun q hq => hquotas q (mem_cons_of_mem _ hq)) (index + 1)
        (start + quota) (by omega) i (by simpa using hi)

end

end

end Macha
