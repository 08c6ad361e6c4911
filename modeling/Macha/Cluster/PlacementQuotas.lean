import Macha.Cluster.WaterLevel

/-!
# Systematic placement

The ideal quota of an entity is the part of the shards its capacity, cut off at
the water level, is of the level. The ideal quotas add up to the shards of all
copies; flooring them loses less than one slot for each entity that has not all
of them, so one more slot each makes up the total. Sampled systematically,
quotas with that total give every shard its copies.
-/

namespace Macha.Placement

open List

/-- What a loop of `raiseQuota` does: slots are only added, as many as are
counted, never past the total or the shards; and if the total is not reached
every entity the loop came by has one more or all. -/
structure Raised (required : Nat) (before after : List Nat × Nat) (visited : List Nat) : Prop where
  length : after.1.length = before.1.length
  counted : before.1.sum + after.2 = after.1.sum + before.2
  grows : before.2 ≤ after.2
  bounded : before.2 ≤ required → after.2 ≤ required
  most : (∀ q ∈ before.1, q ≤ placementShards) → ∀ q ∈ after.1, q ≤ placementShards
  least : ∀ i, before.1.getD i 0 ≤ after.1.getD i 0
  short : after.2 < required → ∀ i ∈ visited, i < before.1.length →
    min placementShards (before.1.getD i 0 + 1) ≤ after.1.getD i 0

theorem sum_set_succ {l : List Nat} {i : Nat} (h : i < l.length) :
    (l.set i (l.getD i 0 + 1)).sum = l.sum + 1 := by
  have hself := congrArg sum (set_getElem_self h)
  rw [sum_set, if_pos h] at hself ⊢
  rw [getD_eq_getElem _ _ h]
  omega

theorem getD_le_getD_set_succ (l : List Nat) (i j : Nat) :
    l.getD j 0 ≤ (l.set i (l.getD i 0 + 1)).getD j 0 := by
  rcases Nat.lt_or_ge j l.length with hj | hj
  · rw [getD_eq_getElem (l.set i _) _ (by simpa using hj), getElem_set, getD_eq_getElem l _ hj]
    split
    · next heq =>
      subst heq
      rw [getD_eq_getElem l _ hj]
      omega
    · exact le_rfl
  · rw [getD_eq_default _ _ hj]
    exact Nat.zero_le _

theorem raised_raiseQuota (required : Nat) (state : List Nat × Nat) {i : Nat}
    (hi : i < state.1.length) : Raised required state (raiseQuota required state i) [i] := by
  unfold raiseQuota
  split
  · next hraise =>
    have hset : (state.1.set i (state.1.getD i 0 + 1)).getD i 0 = state.1.getD i 0 + 1 := by
      rw [getD_eq_getElem _ _ (by simpa using hi), getElem_set_self]
    refine ⟨length_set, ?_, Nat.le_succ _, fun _ => hraise.1, fun hmost q hq => ?_,
      getD_le_getD_set_succ _ _, fun _ j hj _ => ?_⟩
    · rw [sum_set_succ hi]
      omega
    · rcases mem_or_eq_of_mem_set hq with hq | rfl
      · exact hmost q hq
      · exact hraise.2
    · rw [mem_singleton.1 hj, hset]
      exact min_le_right _ _
  · next hnot =>
    refine ⟨rfl, rfl, le_rfl, id, id, fun _ => le_rfl, fun hshort j hj _ => ?_⟩
    rw [mem_singleton.1 hj]
    omega

variable {visited capacities low high : List Nat} {state : List Nat × Nat} {level : WaterLevel}

theorem raised_foldl (required : Nat) (hvisited : ∀ i ∈ visited, i < state.1.length) :
    Raised required state (visited.foldl (raiseQuota required) state) visited := by
  induction visited generalizing state with
  | nil => exact ⟨rfl, rfl, le_rfl, id, id, fun _ => le_rfl, fun _ i hi => nomatch hi⟩
  | cons i visited ih =>
    have hone := raised_raiseQuota required state (hvisited i mem_cons_self)
    have hbounds : ∀ j ∈ visited, j < (raiseQuota required state i).1.length := by
      intro j hj
      rw [hone.length]
      exact hvisited j (mem_cons_of_mem _ hj)
    have hrest := ih hbounds
    rw [foldl_cons]
    refine ⟨hrest.length.trans hone.length, ?_, hone.grows.trans hrest.grows, fun h => hrest.bounded (hone.bounded h),
      fun h => hrest.most (hone.most h), fun j => (hone.least j).trans (hrest.least j),
      fun hshort j hj hlt => ?_⟩
    · have h₁ := hone.counted
      have h₂ := hrest.counted
      omega
    · have hleast := hrest.least j
      rcases mem_cons.1 hj with rfl | hj
      · have := hone.short (hrest.grows.trans_lt hshort) j mem_cons_self hlt
        omega
      · have := hrest.short hshort j hj (by rw [hone.length]; exact hlt)
        have := hone.least j
        omega

theorem foldl_raiseQuota_full {required : Nat} (h : required ≤ state.2) (visited : List Nat) :
    visited.foldl (raiseQuota required) state = state := by
  induction visited with
  | nil => rfl
  | cons i visited ih =>
    have hsame : raiseQuota required state i = state := if_neg fun h' => by omega
    rw [foldl_cons, hsame, ih]

/-- Before the correction a quota is its ideal rounded down; with one more slot
it is not under it. -/
theorem baseQuota_spec (hpos : 0 < level.numerator)
    (hsmall : level.numerator * placementShards ≤ 2 ^ 128) (capacity : Nat) :
    (baseQuota level capacity).1 ≤ placementShards ∧
    level.numerator * (baseQuota level capacity).1 ≤
      min (capacity * level.denominator) level.numerator * placementShards ∧
    min (capacity * level.denominator) level.numerator * placementShards ≤
      level.numerator * min placementShards ((baseQuota level capacity).1 + 1) := by
  unfold baseQuota
  dsimp only
  split
  · next hover =>
    rw [min_eq_right hover, min_eq_left (Nat.le_succ _)]
    exact ⟨le_rfl, le_rfl, le_rfl⟩
  · next hunder =>
    have hlt : capacity * level.denominator < level.numerator := Nat.lt_of_not_le hunder
    have hshards : 0 < placementShards := Nat.pow_pos (by decide)
    have hexact : capacity * level.denominator * placementShards <
        level.numerator * placementShards := Nat.mul_lt_mul_of_pos_right hlt hshards
    have hquota : capacity * level.denominator * placementShards / level.numerator <
        placementShards := Nat.div_lt_of_lt_mul hexact
    have h64 : placementShards ≤ 2 ^ 64 := Nat.pow_le_pow_right (by decide) (by decide)
    rw [Nat.mod_eq_of_lt (hexact.trans_le hsmall), Nat.mod_eq_of_lt (hquota.trans_le h64),
      min_eq_left hlt.le, min_eq_right hquota]
    refine ⟨hquota.le, Nat.mul_div_le _ _, ?_⟩
    exact (Nat.lt_mul_div_succ _ hpos).le

theorem waterLevel_small {replicas : Nat} (h : level.Splits capacities replicas low high)
    (hlength : capacities.length ≤ 2 ^ 31) (hcapacities : ∀ c ∈ capacities, c < 2 ^ 64) :
    level.numerator * placementShards ≤ 2 ^ 128 := by
  have hle : low.sum ≤ low.length * 2 ^ 64 := by
    have := sum_le_card_nsmul low (2 ^ 64) fun c hc =>
      (hcapacities c (h.perm.subset (mem_append_left _ hc))).le
    simpa using this
  have hlow : low.length ≤ 2 ^ 31 := by
    have := h.perm.length_eq
    rw [length_append] at this
    omega
  have hnumerator : level.numerator ≤ 2 ^ 31 * 2 ^ 64 := by
    rw [← h.used]
    exact hle.trans (Nat.mul_le_mul_right _ hlow)
  calc level.numerator * placementShards ≤ 2 ^ 31 * 2 ^ 64 * 2 ^ 32 :=
        Nat.mul_le_mul_right _ hnumerator
    _ ≤ 2 ^ 128 := by norm_num

/-- Quotas that can be sampled: none above the shards, the shards of all copies in all. -/
structure ExactQuotas (n copies : Nat) (quotas : List Nat) : Prop where
  length : quotas.length = n
  most : ∀ q ∈ quotas, q ≤ placementShards
  total : quotas.sum = copies * placementShards

theorem exactQuotas_even {n copies : Nat} (hn : 0 < n) (hcopies : copies ≤ n) :
    ExactQuotas n copies ((range n).map fun i =>
      copies * placementShards / n + if i < copies * placementShards % n then 1 else 0) := by
  obtain ⟨required, hrequired⟩ : ∃ r, copies * placementShards = r := ⟨_, rfl⟩
  rw [hrequired]
  have hdiv := Nat.div_add_mod required n
  have hmod := Nat.mod_lt required hn
  refine ⟨by simp, fun q hq => ?_, ?_⟩
  · obtain ⟨i, _, rfl⟩ := List.mem_map.1 hq
    have hle : required ≤ n * placementShards := by
      rw [← hrequired]
      exact Nat.mul_le_mul_right _ hcopies
    have hbase : required / n ≤ placementShards := Nat.div_le_of_le_mul hle
    rcases hbase.lt_or_eq with hlt | heq
    · split <;> omega
    · rw [heq] at hdiv ⊢
      rw [if_neg (by omega)]
      exact le_rfl
  · have hcard : ((Finset.range n).filter (· < required % n)).card = required % n := by
      have heq : (Finset.range n).filter (· < required % n) = Finset.range (required % n) := by
        ext i
        simp only [Finset.mem_filter, Finset.mem_range]
        omega
      rw [heq, Finset.card_range]
    calc ((range n).map fun i => required / n + if i < required % n then 1 else 0).sum
        = ∑ i ∈ Finset.range n, (required / n + if i < required % n then 1 else 0) := rfl
      _ = n * (required / n) + required % n := by
          rw [Finset.sum_add_distrib, Finset.sum_const, Finset.card_range, smul_eq_mul,
            ← Finset.card_filter, hcard]
      _ = copies * placementShards := by rw [hdiv, hrequired]

theorem exactQuotas_corrected {copies : Nat} (h : level.Splits capacities copies low high)
    (hpos : 0 < level.numerator) (hsmall : level.numerator * placementShards ≤ 2 ^ 128)
    (hvisited : visited.Perm (range capacities.length)) :
    let quota := (capacities.map (baseQuota level)).map Prod.fst
    let corrected := visited.foldl (raiseQuota (copies * placementShards)) (quota, quota.sum)
    ExactQuotas capacities.length copies corrected.1 ∧ corrected.2 = copies * placementShards := by
  intro quota corrected
  have hspec := baseQuota_spec hpos hsmall
  have hideal : (capacities.map fun c =>
      min (c * level.denominator) level.numerator * placementShards).sum =
      level.numerator * (copies * placementShards) := by
    rw [sum_map_mul_right, h.sum_cut]
    ring
  have hquota : quota = capacities.map fun c => (baseQuota level c).1 := List.map_map
  have hlength : quota.length = capacities.length := by rw [hquota, length_map]
  have hraised : Raised (copies * placementShards) (quota, quota.sum) corrected visited :=
    raised_foldl _ fun i hi => by
      rw [hlength]
      exact mem_range.1 (hvisited.subset hi)
  have hfloor : quota.sum ≤ copies * placementShards := by
    refine Nat.le_of_mul_le_mul_left ?_ hpos
    rw [← hideal, hquota, ← sum_map_mul_left]
    exact sum_le_sum fun c _ => (hspec c).2.1
  have hcounted : corrected.2 = corrected.1.sum := by
    have := hraised.counted
    dsimp only at this
    omega
  have hreached : corrected.2 = copies * placementShards := by
    refine le_antisymm (hraised.bounded hfloor) (Nat.le_of_not_lt fun hshort => ?_)
    -- Then every entity was raised, and the raised quotas are not under the ideal ones.
    have heach : List.Forall₂ (· ≤ ·)
        (capacities.map fun c => min placementShards ((baseQuota level c).1 + 1)) corrected.1 := by
      refine List.forall₂_iff_get.2 ⟨by rw [length_map, hraised.length, hlength], ?_⟩
      intro i hi hi'
      have hin : i < capacities.length := by simpa using hi
      have hleast := hraised.short hshort i (hvisited.symm.subset (mem_range.2 hin))
        (by rw [hlength]; exact hin)
      rw [getD_eq_getElem _ _ (by rw [hlength]; exact hin), getD_eq_getElem _ _ hi'] at hleast
      simpa [hquota] using hleast
    have hsum : level.numerator * (copies * placementShards) ≤
        level.numerator * corrected.1.sum := by
      rw [← hideal]
      refine le_trans ?_ (Nat.mul_le_mul_left _ heach.sum_le_sum)
      rw [← sum_map_mul_left]
      exact sum_le_sum fun c _ => (hspec c).2.2
    have := Nat.le_of_mul_le_mul_left hsum hpos
    omega
  refine ⟨⟨hraised.length.trans hlength, hraised.most fun q hq => ?_, ?_⟩, hreached⟩
  · rw [hquota] at hq
    obtain ⟨c, _, rfl⟩ := List.mem_map.1 hq
    exact (hspec c).1
  · rw [← hcounted, hreached]

theorem shardQuotas_exact (hne : capacities ≠ []) (hlength : capacities.length ≤ 2 ^ 31)
    (hcapacities : ∀ c ∈ capacities, c < 2 ^ 64) (replicas : Nat) :
    ExactQuotas capacities.length (min replicas capacities.length)
      (shardQuotas capacities replicas) := by
  have hn : 0 < capacities.length := length_pos_iff.2 hne
  unfold shardQuotas
  dsimp only
  split
  · next hnone =>
    have hzero : replicas = 0 := by omega
    subst hzero
    refine ⟨by simp, fun q hq => ?_, by simp⟩
    rw [(mem_replicate.1 hq).2]
    exact Nat.zero_le _
  · next hsome =>
    have hreplicas : 0 < min replicas capacities.length := by omega
    split
    · exact exactQuotas_even hn (min_le_right _ _)
    · next hpos =>
      obtain ⟨low, high, h⟩ := waterLevel_splits hne hreplicas
      rw [min_assoc, min_self] at h
      have hvisited : ((((capacities.map (baseQuota (waterLevel capacities
          (min replicas capacities.length)))).zipIdx.map fun x =>
            (x.2, x.1.2)).mergeSort fractionBefore).map Prod.fst).Perm
          (range capacities.length) := by
        refine ((mergeSort_perm _ _).map _).trans (List.Perm.of_eq ?_)
        rw [List.map_map, range_eq_range']
        exact (zipIdx_map_snd 0 _).trans (by rw [length_map])
      obtain ⟨hexact, hfull⟩ := exactQuotas_corrected h (Nat.pos_of_ne_zero hpos)
        (waterLevel_small h hlength hcapacities) hvisited
      rw [foldl_raiseQuota_full hfull.ge]
      exact hexact

theorem fillSample_of_full {count replicas : Nat} {selected : List Nat}
    (h : replicas ≤ selected.length) : fillSample count replicas selected = selected := by
  unfold fillSample
  generalize range count = indices
  induction indices with
  | nil => rfl
  | cons i indices ih => rw [foldl_cons, if_neg (by omega), ih]

theorem shardQuotas_min (hne : capacities ≠ []) (replicas : Nat) :
    shardQuotas capacities (min replicas capacities.length) = shardQuotas capacities replicas := by
  have hn : 0 < capacities.length := length_pos_iff.2 hne
  have hiff : (capacities.length = 0 ∨ min replicas capacities.length = 0) =
      (capacities.length = 0 ∨ replicas = 0) := propext (by omega)
  unfold shardQuotas
  simp only [min_assoc, min_self, hiff]

/-- Quotas and samples are exact: no entity has more slots than there are shards,
all have those of the copies, every shard is given its number of distinct
entities without the fill, and an entity is given as many shards as it has slots. -/
theorem systematic_placement_exact (capacities : List Nat) (replicas : Nat)
    (hne : capacities ≠ []) (hlength : capacities.length ≤ 2 ^ 31)
    (hcapacities : ∀ c ∈ capacities, c < 2 ^ 64) :
    ((shardQuotas capacities replicas).length = capacities.length ∧
      (∀ q ∈ shardQuotas capacities replicas, q ≤ placementShards) ∧
      (shardQuotas capacities replicas).sum = min replicas capacities.length * placementShards) ∧
    (∀ shard < placementShards,
      (visitedEntities shard capacities replicas).length = min replicas capacities.length ∧
      (visitedEntities shard capacities replicas).Nodup ∧
      (∀ i ∈ visitedEntities shard capacities replicas, i < capacities.length) ∧
      shardSample shard capacities replicas = visitedEntities shard capacities replicas) ∧
    ∀ i, ∀ hi : i < (shardQuotas capacities replicas).length,
      ((Finset.range placementShards).filter fun shard =>
        i ∈ shardSample shard capacities replicas).card = (shardQuotas capacities replicas)[i] := by
  have hexact := shardQuotas_exact hne hlength hcapacities replicas
  have hvisited : ∀ shard, visitedEntities shard capacities replicas =
      sampleFrom placementShards (min replicas capacities.length) shard 0 0
        (shardQuotas capacities replicas) := by
    intro shard
    unfold visitedEntities
    dsimp only
    rw [shardQuotas_min hne]
  have hsample : ∀ shard < placementShards,
      (visitedEntities shard capacities replicas).length = min replicas capacities.length ∧
      shardSample shard capacities replicas = visitedEntities shard capacities replicas := by
    intro shard hshard
    have hcount := length_sampleFrom_line hexact.most hexact.total hshard
    rw [← hvisited] at hcount
    refine ⟨hcount, ?_⟩
    unfold shardSample
    split
    · next hnone =>
      have hzero : replicas = 0 := by simpa [hne] using hnone
      rw [hzero, Nat.zero_min] at hcount
      rw [hzero, eq_nil_of_length_eq_zero hcount]
    · exact fillSample_of_full hcount.ge
  refine ⟨⟨hexact.length, hexact.most, hexact.total⟩, fun shard hshard => ?_, fun i hi => ?_⟩
  · obtain ⟨hascending, hbound⟩ := sampleFrom_ascending 0 0 (shardQuotas capacities replicas)
    rw [← hvisited] at hascending hbound
    refine ⟨(hsample shard hshard).1, hascending.nodup, fun j hj => ?_, (hsample shard hshard).2⟩
    have := hbound j hj
    rw [hexact.length] at this
    omega
  · have hline : 0 + (shardQuotas capacities replicas).sum ≤
        min replicas capacities.length * placementShards := by
      rw [Nat.zero_add, hexact.total]
    rw [← card_sampleFrom hexact.most 0 0 hline i hi]
    refine congrArg Finset.card (Finset.filter_congr fun shard hshard => ?_)
    rw [(hsample shard (Finset.mem_range.1 hshard)).2, hvisited, Nat.zero_add]

theorem systematic_placement_two_of_three : (shardQuotas [3, 1, 2] 2).sum = 2 * placementShards :=
  (systematic_placement_exact [3, 1, 2] 2 (by decide) (by decide) (by decide)).1.2.2

end Macha.Placement
