import Macha.Cluster.Placement

/-!
# The water level

The level at which the capacities, cut off there, hold exactly as many copies
as are wanted. The loop stops at the first prefix of the sorted capacities whose
level does not reach over the next one; that this level splits them rightly is
the invariant of the loop.
-/

namespace Macha.Placement

open List

/-- The capacities fall into those under the level, which are used up, and those
over it, which carry a copy of everything. -/
structure WaterLevel.Splits (level : WaterLevel) (capacities : List Nat) (replicas : Nat)
    (low high : List Nat) : Prop where
  perm : (low ++ high).Perm capacities
  used : low.sum = level.numerator
  copies : level.denominator + high.length = replicas
  positive : 0 < level.denominator
  under : ∀ c ∈ low, c * level.denominator ≤ level.numerator
  above : ∀ c ∈ high, level.numerator ≤ c * level.denominator

namespace WaterLevel.Splits

variable {level : WaterLevel} {capacities : List Nat} {replicas : Nat} {low high : List Nat}

section

variable (h : level.Splits capacities replicas low high)

include h

theorem sum_map_perm (f : Nat → Nat) :
    (capacities.map f).sum = (low.map f).sum + (high.map f).sum := by
  rw [← (h.perm.map f).sum_eq, map_append, sum_append]

theorem sum_cut : (capacities.map fun c => min (c * level.denominator) level.numerator).sum =
      replicas * level.numerator := by
  have hlow : (low.map fun c => min (c * level.denominator) level.numerator).sum =
      level.denominator * level.numerator := by
    have heq : low.map (fun c => min (c * level.denominator) level.numerator) =
        low.map (· * level.denominator) :=
      map_congr_left fun c hc => min_eq_left (h.under c hc)
    rw [heq, sum_map_mul_right, List.map_id', h.used, Nat.mul_comm]
  have hhigh : (high.map fun c => min (c * level.denominator) level.numerator).sum =
      high.length * level.numerator := by
    have heq : high.map (fun c => min (c * level.denominator) level.numerator) =
        high.map fun _ => level.numerator :=
      map_congr_left fun c hc => min_eq_right (h.above c hc)
    rw [heq, map_const', sum_replicate, smul_eq_mul]
  rw [h.sum_map_perm, hlow, hhigh, ← Nat.add_mul, h.copies]

theorem denominator_mul_le {value : Nat} (hvalue : value * level.denominator ≤ level.numerator) :
    level.denominator * value ≤ (low.map fun c => min c value).sum := by
  rcases Nat.eq_zero_or_pos level.numerator with hzero | hpos
  · have hnone : value = 0 := by
      have hpositive := h.positive
      rcases Nat.eq_zero_or_pos value with hnone | hsome
      · exact hnone
      · have := Nat.mul_pos hsome hpositive
        omega
    rw [hnone, Nat.mul_zero]
    exact Nat.zero_le _
  · have heach : ∀ c ∈ low, c * (value * level.denominator) ≤ min c value * level.numerator := by
      intro c hc
      rcases Nat.le_total c value with hle | hle
      · rw [Nat.min_eq_left hle]
        exact Nat.mul_le_mul_left c hvalue
      · rw [Nat.min_eq_right hle]
        calc c * (value * level.denominator) = value * (c * level.denominator) := by ring
          _ ≤ value * level.numerator := Nat.mul_le_mul_left value (h.under c hc)
    have hsum := sum_le_sum heach
    rw [sum_map_mul_right, sum_map_mul_right, List.map_id', h.used] at hsum
    refine Nat.le_of_mul_le_mul_right (hsum.trans' (le_of_eq ?_)) hpos
    ring

theorem fits_iff (value : Nat) : replicas * value ≤ (capacities.map fun c => min c value).sum ↔
      value * level.denominator ≤ level.numerator := by
  rw [h.sum_map_perm, ← h.copies, Nat.add_mul]
  constructor
  · intro hfits
    by_contra hover
    have hlow : (low.map fun c => min c value).sum ≤ level.numerator := by
      rw [← h.used]
      simpa using sum_le_sum (l := low) fun c _ => min_le_left c value
    have hhigh : (high.map fun c => min c value).sum ≤ high.length * value := by
      have hle := sum_le_sum (l := high) fun c _ => min_le_right c value
      rwa [map_const', sum_replicate, smul_eq_mul] at hle
    rw [Nat.mul_comm value] at hover
    omega
  · intro hvalue
    have hlow := h.denominator_mul_le hvalue
    have heq : high.map (fun c => min c value) = high.map fun _ => value :=
      map_congr_left fun c hc => min_eq_right
        (Nat.le_of_mul_le_mul_right (hvalue.trans (h.above c hc)) h.positive)
    rw [heq, map_const', sum_replicate, smul_eq_mul]
    omega

end

end WaterLevel.Splits

/-- With `done` behind it the loop has passed every level that lies under the
next capacity. -/
theorem waterLoop_splits {replicas size : Nat} (hreplicas : 0 < replicas)
    {done rest : List Nat} (hsize : done.length + rest.length = size) (hrest : rest ≠ [])
    (hsorted : (done ++ rest).Pairwise (· ≤ ·))
    (hpassed : ∀ capacity ∈ rest.head?, (replicas + done.length - size) * capacity ≤ done.sum) :
    ∃ low high, (waterLoop replicas size done.length done.sum rest).Splits (done ++ rest)
      replicas low high := by
  induction rest generalizing done with
  | nil => exact absurd rfl hrest
  | cons capacity rest ih =>
    have hpassed := hpassed capacity rfl
    have hdone : (done ++ [capacity]).length = done.length + 1 := by simp
    have hsum : (done ++ [capacity]).sum = done.sum + capacity := by simp
    have happend : done ++ capacity :: rest = (done ++ [capacity]) ++ rest := by simp
    rw [length_cons] at hsize
    -- What the loop goes on with, and where it stops.
    have hnext : rest ≠ [] → (∀ next ∈ rest.head?,
        (replicas + (done.length + 1) - size) * next ≤ done.sum + capacity) →
        ∃ low high, (waterLoop replicas size (done.length + 1) (done.sum + capacity)
          rest).Splits (done ++ capacity :: rest) replicas low high := by
      intro hne hcut
      rw [happend] at hsorted ⊢
      have hcut' : ∀ next ∈ rest.head?, (replicas + (done ++ [capacity]).length - size) * next ≤
          (done ++ [capacity]).sum := by
        rw [hdone, hsum]
        exact hcut
      have hih := ih (by omega) hne hsorted hcut'
      rwa [hdone, hsum] at hih
    have hstop : ∀ d : Nat, 0 < d → d + rest.length = replicas →
        (∀ next ∈ rest.head?, done.sum + capacity ≤ d * next) →
        (⟨done.sum + capacity, d⟩ : WaterLevel).Splits (done ++ capacity :: rest) replicas
          (done ++ [capacity]) rest := by
      intro d hd hcopies hnext
      have hlast : capacity * d ≤ done.sum + capacity := by
        obtain ⟨e, rfl⟩ : ∃ e, d = e + 1 := ⟨d - 1, by omega⟩
        have he : replicas + done.length - size = e := by omega
        rw [he] at hpassed
        rw [Nat.mul_succ, Nat.mul_comm]
        omega
      rw [happend, pairwise_append] at hsorted
      obtain ⟨hbehind, hahead, _⟩ := hsorted
      refine ⟨by rw [happend], hsum, hcopies, hd, fun c hc => ?_, fun c hc => ?_⟩
      · have hc : c ≤ capacity := by
          rw [pairwise_append] at hbehind
          rcases mem_append.1 hc with hc | hc
          · exact hbehind.2.2 c hc capacity mem_cons_self
          · exact (mem_singleton.1 hc).le
        exact (Nat.mul_le_mul_right d hc).trans hlast
      · cases rest with
        | nil => cases hc
        | cons next rest =>
          have hnextc : next ≤ c := by
            rcases mem_cons.1 hc with rfl | hc
            · exact le_rfl
            · exact (pairwise_cons.1 hahead).1 c hc
          refine (hnext next rfl).trans ?_
          rw [Nat.mul_comm]
          exact Nat.mul_le_mul_right d hnextc
    unfold waterLoop
    dsimp only
    split
    · next hd =>
      have hne : rest ≠ [] := by
        rintro rfl
        simp only [length_nil] at hsize
        omega
      refine hnext hne fun next _ => ?_
      have hzero : replicas + (done.length + 1) - size = 0 := by omega
      rw [hzero, Nat.zero_mul]
      exact Nat.zero_le _
    · next hd =>
      obtain ⟨d, hdeq⟩ : ∃ d : Nat, ((replicas : Int) - size + done.length + 1).toNat = d :=
        ⟨_, rfl⟩
      rw [hdeq]
      cases rest with
      | nil =>
        exact ⟨_, _, hstop d (by omega) (by simp at hsize ⊢; omega) fun next h => nomatch h⟩
      | cons next rest =>
        rw [length_cons] at hsize
        dsimp only
        split
        · next hcut =>
          refine ⟨_, _, hstop d (by omega) (by rw [length_cons]; omega)
            fun x hx => ?_⟩
          cases hx
          exact hcut
        · next hcut =>
          refine hnext (cons_ne_nil _ _) fun x hx => ?_
          cases hx
          have heq : replicas + (done.length + 1) - size = d := by omega
          rw [heq]
          omega

theorem waterLevel_splits {capacities : List Nat} {replicas : Nat} (hne : capacities ≠ [])
    (hreplicas : 0 < replicas) :
    ∃ low high, (waterLevel capacities replicas).Splits capacities
      (min replicas capacities.length) low high := by
  have hlength : 0 < capacities.length := length_pos_iff.2 hne
  have hperm := mergeSort_perm capacities (· ≤ ·)
  have hsorted : ([] ++ capacities.mergeSort (· ≤ ·)).Pairwise (· ≤ ·) := by
    simpa using capacities.pairwise_mergeSort' (r := (· ≤ ·))
  have hrest : capacities.mergeSort (· ≤ ·) ≠ [] := by
    rw [← length_pos_iff, hperm.length_eq]
    exact hlength
  have hsize : ([] : List Nat).length + (capacities.mergeSort (· ≤ ·)).length =
      capacities.length := by
    rw [hperm.length_eq, length_nil, Nat.zero_add]
  obtain ⟨low, high, h⟩ := waterLoop_splits (lt_min hreplicas hlength) hsize hrest hsorted
    fun c _ => by simp
  have hlevel : waterLevel capacities replicas = waterLoop (min replicas capacities.length)
      capacities.length 0 0 (capacities.mergeSort (· ≤ ·)) := by
    unfold waterLevel
    rw [if_neg (by simp [hne]; omega)]
  rw [hlevel]
  exact ⟨low, high, h.perm.trans hperm, h.used, h.copies, h.positive, h.under, h.above⟩

/-- Each of `value` units has `replicas` entities of its own to keep it, and no
entity keeps more than its capacity. -/
def Storable (capacities : List Nat) (replicas value : Nat) : Prop :=
  ∃ place : Nat → Finset (Fin capacities.length), (∀ unit < value, (place unit).card = replicas) ∧
      ∀ i : Fin capacities.length,
        ((Finset.range value).filter fun unit => i ∈ place unit).card ≤ capacities[i]

theorem exists_sum_eq_of_le {limits : List Nat} {total : Nat} (h : total ≤ limits.sum) :
    ∃ quotas : List Nat, List.Forall₂ (· ≤ ·) quotas limits ∧ quotas.sum = total := by
  induction limits generalizing total with
  | nil => exact ⟨[], .nil, (Nat.le_zero.1 h).symm⟩
  | cons limit limits ih =>
    rw [sum_cons] at h
    obtain ⟨quotas, hquotas, hsum⟩ := ih (show total - min total limit ≤ limits.sum by omega)
    refine ⟨min total limit :: quotas, .cons (min_le_right _ _) hquotas, ?_⟩
    rw [sum_cons, hsum]
    omega

theorem Storable.le_sum {capacities : List Nat} {replicas value : Nat}
    (h : Storable capacities replicas value) :
    replicas * value ≤ (capacities.map fun c => min c value).sum := by
  obtain ⟨place, hcard, huse⟩ := h
  have hcount : ∑ i, ((Finset.range value).filter fun unit => i ∈ place unit).card =
      replicas * value := by
    have hswap := Finset.sum_card_bipartiteAbove_eq_sum_card_bipartiteBelow
      (s := Finset.range value) (t := Finset.univ) fun unit i => i ∈ place unit
    unfold Finset.bipartiteAbove Finset.bipartiteBelow at hswap
    simp only [Finset.filter_univ_mem] at hswap
    rw [← hswap, Finset.sum_congr rfl fun unit hunit => hcard unit (Finset.mem_range.1 hunit),
      Finset.sum_const, Finset.card_range, smul_eq_mul, Nat.mul_comm]
  have hlist : ∑ i : Fin capacities.length, min capacities[i] value =
      (capacities.map fun c => min c value).sum := by
    rw [← sum_ofFn]
    exact congrArg sum (ofFn_getElem_eq_map capacities fun c => min c value)
  rw [← hcount, ← hlist]
  refine Finset.sum_le_sum fun i _ => le_min (huse i) ?_
  exact (Finset.card_filter_le _ _).trans (Finset.card_range value).le

theorem storable_of_le_sum {capacities : List Nat} {replicas value : Nat}
    (h : replicas * value ≤ (capacities.map fun c => min c value).sum) :
    Storable capacities replicas value := by
  obtain ⟨quotas, hquotas, hsum⟩ := exists_sum_eq_of_le h
  have hlength : quotas.length = capacities.length := by
    rw [hquotas.length_eq, length_map]
  have hle : ∀ i (hi : i < quotas.length) (hi' : i < capacities.length),
      quotas[i] ≤ min capacities[i] value := by
    intro i hi hi'
    simpa using hquotas.get hi (by simpa using hi')
  have hslots : ∀ quota ∈ quotas, quota ≤ value := by
    intro quota hquota
    obtain ⟨i, hi, rfl⟩ := mem_iff_getElem.1 hquota
    exact (hle i hi (by omega)).trans (min_le_right _ _)
  refine ⟨fun unit => Finset.univ.filter fun i : Fin capacities.length =>
    i.val ∈ sampleFrom value replicas unit 0 0 quotas, fun unit hunit => ?_, fun i => ?_⟩
  · rw [card_mem_sampleFrom hlength]
    exact length_sampleFrom_line hslots hsum hunit
  · have hi : i.val < quotas.length := by omega
    have hline : 0 + quotas.sum ≤ replicas * value := by omega
    have huse := card_sampleFrom hslots 0 0 hline i.val hi
    simp only [Nat.zero_add] at huse
    simp only [Finset.mem_filter, Finset.mem_univ, true_and]
    rw [huse]
    exact (hle i hi i.isLt).trans (min_le_left _ _)

theorem storable_iff (capacities : List Nat) (replicas value : Nat) :
    Storable capacities replicas value ↔
      replicas * value ≤ (capacities.map fun c => min c value).sum :=
  ⟨Storable.le_sum, storable_of_le_sum⟩

/-- Without entities or replicas nothing is advertised; otherwise the largest
amount of which so many copies fit on distinct entities, in 64 bits. -/
theorem maxLogicalCapacity_optimum (capacities : List Nat) (replicas : Nat) :
    (capacities = [] ∨ replicas = 0 → maxLogicalCapacity capacities replicas = 0) ∧
    (capacities ≠ [] ∧ replicas ≠ 0 → ∃ value,
      IsGreatest {v | min replicas capacities.length * v ≤ (capacities.map fun c => min c v).sum}
        value ∧
      IsGreatest {v | Storable capacities (min replicas capacities.length) v} value ∧
      maxLogicalCapacity capacities replicas = min value maxU64) := by
  constructor
  · intro hnone
    have hlevel : waterLevel capacities replicas = {} := by
      unfold waterLevel
      rw [if_pos (by simpa using hnone)]
    unfold maxLogicalCapacity
    rw [hlevel]
    rfl
  · rintro ⟨hne, hreplicas⟩
    obtain ⟨low, high, h⟩ := waterLevel_splits hne (Nat.pos_of_ne_zero hreplicas)
    have hgreatest : IsGreatest {v | min replicas capacities.length * v ≤
        (capacities.map fun c => min c v).sum}
        ((waterLevel capacities replicas).numerator /
          (waterLevel capacities replicas).denominator) := by
      constructor
      · exact (h.fits_iff _).2 (Nat.div_mul_le_self _ _)
      · intro v hv
        exact (Nat.le_div_iff_mul_le h.positive).2 ((h.fits_iff v).1 hv)
    refine ⟨_, hgreatest, ?_, ?_⟩
    · simpa only [storable_iff] using hgreatest
    · unfold maxLogicalCapacity
      dsimp only
      split
      · next hzero => rw [hzero, Nat.zero_div, Nat.zero_min]
      · split <;> omega

/-- Of no copies there is no largest amount, and the code answers zero. -/
theorem maxLogicalCapacity_no_replicas : maxLogicalCapacity [5] 0 = 0 ∧
      ∀ v, min 0 [5].length * v ≤ ([5].map fun c => min c v).sum := by
  refine ⟨by decide, fun v => ?_⟩
  rw [Nat.zero_min, Nat.zero_mul]
  exact Nat.zero_le _

end Macha.Placement
