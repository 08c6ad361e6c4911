import Macha.Cluster.Placement
import Macha.Library.SortBy

/-!
# The order of data placement

The preferred owners are put together from a sample of the failure domains, a
choice within each, and a sample of the nodes left over; the rest follow as
fallbacks. Whatever the capacities and the digests, every node stands in the
order once, the domains are spread as far as they go, and nothing depends on the
order the nodes were listed in.
-/

namespace Macha.Placement

open List Option

/-- A choice of `count` of the first `n` numbers. -/
structure Picks (n count : Nat) (picked : List Nat) : Prop where
  nodup : picked.Nodup
  bound : ∀ i ∈ picked, i < n
  length : picked.length = count

theorem length_foldl_raiseQuota (required : Nat) (visited : List Nat) (state : List Nat × Nat) :
    (visited.foldl (raiseQuota required) state).1.length = state.1.length := by
  induction visited generalizing state with
  | nil => rfl
  | cons i visited ih =>
    have hone : (raiseQuota required state i).1.length = state.1.length := by
      unfold raiseQuota
      split
      · exact length_set
      · rfl
    rw [foldl_cons, ih, hone]

theorem length_shardQuotas (capacities : List Nat) (replicas : Nat) :
    (shardQuotas capacities replicas).length = capacities.length := by
  unfold shardQuotas
  dsimp only
  split
  · exact length_replicate
  · split
    · rw [length_map, length_range]
    · rw [length_foldl_raiseQuota, length_foldl_raiseQuota, length_map, length_map]

theorem fillSample_picks {n count : Nat} (hcount : count ≤ n) {selected : List Nat}
    (hnodup : selected.Nodup) (hbound : ∀ i ∈ selected, i < n) (hle : selected.length ≤ count) :
    Picks n count (fillSample n count selected) := by
  have hloop : ∀ indices : List Nat, (∀ i ∈ indices, i < n) → ∀ selected : List Nat,
      selected.Nodup → (∀ i ∈ selected, i < n) → selected.length ≤ count →
      let filled := indices.foldl (fun selected i =>
        if selected.length < count ∧ i ∉ selected then selected ++ [i] else selected) selected
      filled.Nodup ∧ (∀ i ∈ filled, i < n) ∧ filled.length ≤ count ∧ selected ⊆ filled ∧
        (filled.length < count → ∀ i ∈ indices, i ∈ filled) := by
    intro indices
    induction indices with
    | nil => exact fun _ _ hnodup hbound hle =>
      ⟨hnodup, hbound, hle, List.Subset.refl _, fun _ i hi => nomatch hi⟩
    | cons i indices ih =>
      intro hindices selected hnodup hbound hle
      have hrest := fun j hj => hindices j (mem_cons_of_mem i hj)
      rw [foldl_cons]
      split
      · next hadd =>
        obtain ⟨h₁, h₂, h₃, h₄, h₅⟩ := ih hrest (selected ++ [i])
          (nodup_append.2 ⟨hnodup, nodup_singleton i, fun a ha b hb heq =>
            hadd.2 (mem_singleton.1 hb ▸ heq ▸ ha)⟩)
          (fun j hj => by
            rcases mem_append.1 hj with hj | hj
            · exact hbound j hj
            · exact hindices j (mem_singleton.1 hj ▸ mem_cons_self))
          (by rw [length_append, length_singleton]; omega)
        refine ⟨h₁, h₂, h₃, fun j hj => h₄ (mem_append_left _ hj), fun hlt j hj => ?_⟩
        rcases mem_cons.1 hj with rfl | hj
        · exact h₄ (mem_append_right _ mem_cons_self)
        · exact h₅ hlt j hj
      · next hskip =>
        obtain ⟨h₁, h₂, h₃, h₄, h₅⟩ := ih hrest selected hnodup hbound hle
        refine ⟨h₁, h₂, h₃, h₄, fun hlt j hj => ?_⟩
        rcases mem_cons.1 hj with rfl | hj
        · refine h₄ (by_contra fun hnot => hskip ⟨?_, hnot⟩)
          exact (hnodup.subperm h₄).length_le.trans_lt hlt
        · exact h₅ hlt j hj
  obtain ⟨h₁, h₂, h₃, _, h₅⟩ := hloop (range n) (fun i hi => mem_range.1 hi) selected
    hnodup hbound hle
  refine ⟨h₁, h₂, le_antisymm h₃ (Nat.le_of_not_lt fun hlt => ?_)⟩
  have hall := (nodup_range.subperm (h₅ hlt)).length_le
  rw [length_range] at hall
  exact absurd (hcount.trans hall) (Nat.not_le.2 hlt)

theorem shardSample_picks (shard : Nat) (capacities : List Nat) (replicas : Nat) :
    Picks capacities.length (min replicas capacities.length)
      (shardSample shard capacities replicas) := by
  unfold shardSample
  split
  · next hnone =>
    have hzero : min replicas capacities.length = 0 := by
      rcases Bool.or_eq_true _ _ ▸ hnone with h | h
      · rw [List.isEmpty_iff.1 h, length_nil, Nat.min_zero]
      · rw [beq_iff_eq.1 h, Nat.zero_min]
    rw [hzero]
    exact ⟨nodup_nil, fun i hi => (nomatch hi), rfl⟩
  · obtain ⟨hascending, hbound⟩ := @sampleFrom_ascending placementShards
      (min replicas capacities.length) shard 0 0
      (shardQuotas capacities (min replicas capacities.length))
    rw [length_shardQuotas] at hbound
    refine fillSample_picks (min_le_right _ _) hascending.nodup (fun i hi => ?_)
      ((length_sampleFrom_le _ _ _).trans pointsIn_le_copies)
    have := hbound i hi
    omega

variable {picked capacities : List Nat}

theorem Picks.all {n : Nat} (h : Picks n n picked) {i : Nat} (hi : i < n) : i ∈ picked := by
  have hsub : picked ⊆ range n := fun j hj => mem_range.2 (h.bound j hj)
  have hperm := (h.nodup.subperm hsub).perm_of_length_le (by rw [length_range, h.length])
  exact hperm.symm.subset (mem_range.2 hi)

theorem idText_injective : Function.Injective idText := by
  have hdigit : Function.Injective hexDigit := by
    intro a b h
    unfold hexDigit at h
    split at h <;> split at h <;> omega
  intro a b h
  have hdigits := map_injective_iff.2 hdigit (reverse_injective h)
  have hvalue := congrArg (Nat.ofDigits 16) hdigits
  simpa [Nat.ofDigits_append, Nat.ofDigits_digits] using hvalue

/-- Two nodes share a failure domain when they name the same, or are the same
node and name none. -/
def SameDomain (a b : NodeInfo) : Prop :=
  a.failureDomain = b.failureDomain ∧ (a.failureDomain = [] → a.id = b.id)

variable {node : NodeInfo}

theorem domain_of_unnamed (h : node.failureDomain = []) :
    domain node = bytes "node:" ++ idText node.id := by
  unfold domain
  rw [h]
  rfl

theorem domain_of_named (h : node.failureDomain ≠ []) :
    domain node = bytes "domain:" ++ node.failureDomain := by
  unfold domain
  rw [if_neg (mt List.isEmpty_iff.1 h)]

theorem domain_eq_iff (a b : NodeInfo) : domain a = domain b ↔ SameDomain a b := by
  have hmixed : ∀ s t : ByteString, bytes "node:" ++ s ≠ bytes "domain:" ++ t :=
    fun s t h => absurd (head_eq_of_cons_eq h) (by decide)
  unfold SameDomain
  by_cases ha : a.failureDomain = []
  · by_cases hb : b.failureDomain = []
    · rw [domain_of_unnamed ha, domain_of_unnamed hb, append_cancel_left_eq,
        idText_injective.eq_iff, ha, hb]
      simp
    · rw [domain_of_unnamed ha, domain_of_named hb]
      exact ⟨fun h => absurd h (hmixed _ _), fun h => absurd (h.1 ▸ ha) hb⟩
  · by_cases hb : b.failureDomain = []
    · rw [domain_of_named ha, domain_of_unnamed hb]
      exact ⟨fun h => absurd h.symm (hmixed _ _), fun h => absurd (h.1.trans hb) ha⟩
    · rw [domain_of_named ha, domain_of_named hb, append_cancel_left_eq]
      exact ⟨fun h => ⟨h, fun hnone => absurd hnone ha⟩, And.left⟩

/-- The capacities of a group added up in 64 bits; that of a single node as it is. -/
def groupCapacity : List Nat → Nat
  | [] => 0
  | capacity :: rest => rest.foldl saturatedAdd capacity

theorem groupCapacity_concat (h : capacities ≠ []) (capacity : Nat) :
    groupCapacity (capacities ++ [capacity]) = saturatedAdd (groupCapacity capacities) capacity := by
  cases capacities with
  | nil => exact absurd rfl h
  | cons first rest => exact foldl_append

theorem foldl_saturatedAdd (h : capacities ≠ []) (capacity : Nat) :
    capacities.foldl saturatedAdd capacity = min (capacity + capacities.sum) maxU64 := by
  induction capacities generalizing capacity with
  | nil => exact absurd rfl h
  | cons first rest ih =>
    have hadd : saturatedAdd capacity first = min (capacity + first) maxU64 := by
      unfold saturatedAdd
      split <;> omega
    rw [foldl_cons, sum_cons]
    by_cases hrest : rest = []
    · rw [hrest, foldl_nil, sum_nil, hadd, Nat.add_zero]
    · rw [ih hrest, hadd]
      omega

theorem groupCapacity_perm {capacities capacities' : List Nat} (h : capacities.Perm capacities') :
    groupCapacity capacities = groupCapacity capacities' := by
  have hsum := h.sum_eq
  have hlength := h.length_eq
  match capacities, capacities' with
  | [], [] => rfl
  | [a], [b] =>
    simp only [sum_singleton] at hsum
    rw [hsum]
  | a :: a' :: rest, b :: b' :: rest' =>
    rw [sum_cons, sum_cons (a := b)] at hsum
    rw [groupCapacity, groupCapacity, foldl_saturatedAdd (cons_ne_nil _ _),
      foldl_saturatedAdd (cons_ne_nil _ _), hsum]

def members (nodes : List NodeInfo) (d : ByteString) : List NodeInfo :=
  nodes.filter fun node => decide (domain node = d)

def groupOf (nodes : List NodeInfo) (d : ByteString) : CapacityEntity :=
  ⟨d, groupCapacity ((members nodes d).map (·.capacity)), members nodes d⟩

variable {nodes order preferred : List NodeInfo} {count : Nat} {σ : Type}

theorem mem_members {d : ByteString} : node ∈ members nodes d ↔ node ∈ nodes ∧ domain node = d := by
  unfold members
  rw [mem_filter, decide_eq_true_iff]

theorem members_eq_nil_iff {d : ByteString} : members nodes d = [] ↔ d ∉ nodes.map domain := by
  unfold members
  simp [filter_eq_nil_iff]

theorem members_concat (nodes : List NodeInfo) (node : NodeInfo) (d : ByteString) :
    members (nodes ++ [node]) d = members nodes d ++ if domain node = d then [node] else [] := by
  unfold members
  by_cases h : domain node = d <;> simp [h]

/-- The loop has one group for each domain it came by. -/
structure Grouped (nodes : List NodeInfo) (groups : List CapacityEntity) : Prop where
  distinct : (groups.map (·.stableId)).Nodup
  mem_iff : ∀ d, d ∈ groups.map (·.stableId) ↔ d ∈ nodes.map domain
  each : ∀ group ∈ groups, group = groupOf nodes group.stableId

theorem Grouped.join {groups : List CapacityEntity} (h : Grouped nodes groups) (node : NodeInfo) :
    Grouped (nodes ++ [node]) (joinGroup groups node) := by
  have hother : ∀ group ∈ groups, group.stableId ≠ domain node →
      group = groupOf (nodes ++ [node]) group.stableId := by
    intro group hgroup hne
    unfold groupOf
    rw [members_concat, if_neg hne.symm, append_nil]
    exact h.each group hgroup
  unfold joinGroup
  split
  · next hknown =>
    have hknown : domain node ∈ groups.map (·.stableId) := by simpa using hknown
    have hids : (groups.map fun group =>
        if group.stableId = domain node then
          { group with
            capacity := saturatedAdd group.capacity node.capacity
            nodes := group.nodes ++ [node] }
        else group).map (·.stableId) = groups.map (·.stableId) := by
      rw [List.map_map]
      refine map_congr_left fun group _ => ?_
      show CapacityEntity.stableId (if _ then _ else _) = _
      split <;> rfl
    refine ⟨by rw [hids]; exact h.distinct, fun d => ?_, fun group hgroup => ?_⟩
    · rw [hids, h.mem_iff, map_append, mem_append]
      constructor
      · exact Or.inl
      · rintro (hd | hd)
        · exact hd
        · exact mem_singleton.1 hd ▸ (h.mem_iff _).1 hknown
    · obtain ⟨old, hold, rfl⟩ := List.mem_map.1 hgroup
      split
      · next heq =>
        have hgroup := h.each old hold
        have hne : members nodes (domain node) ≠ [] :=
          fun hnil => members_eq_nil_iff.1 hnil ((h.mem_iff _).1 hknown)
        rw [heq] at hgroup
        unfold groupOf at hgroup ⊢
        rw [hgroup, members_concat, if_pos rfl, map_append, map_singleton,
          groupCapacity_concat (by simpa using hne)]
      · next hne => exact hother old hold hne
  · next hnew =>
    have hnew : domain node ∉ groups.map (·.stableId) := by simpa using hnew
    refine ⟨?_, fun d => ?_, fun group hgroup => ?_⟩
    · rw [map_append, nodup_append]
      refine ⟨h.distinct, nodup_singleton _, fun a ha b hb heq => ?_⟩
      rw [heq, mem_singleton.1 hb] at ha
      exact hnew ha
    · rw [map_append, map_append, mem_append, mem_append, h.mem_iff]
      rfl
    · rcases mem_append.1 hgroup with hold | hlast
      · exact hother group hold fun heq => hnew (heq ▸ List.mem_map_of_mem hold)
      · have hnil := members_eq_nil_iff.2 (mt (h.mem_iff _).2 hnew)
        rw [mem_singleton.1 hlast]
        unfold groupOf
        rw [members_concat, if_pos rfl, hnil]
        rfl

theorem grouped_foldl (nodes : List NodeInfo) : Grouped nodes (nodes.foldl joinGroup []) := by
  induction nodes using reverseRecOn with
  | nil => exact ⟨nodup_nil, fun d => Iff.rfl, fun group hgroup => nomatch hgroup⟩
  | append_singleton nodes node ih =>
    rw [foldl_append]
    exact ih.join node

def sortedGroup (nodes : List NodeInfo) (d : ByteString) : CapacityEntity :=
  { groupOf nodes d with nodes := (members nodes d).mergeSort (·.id ≤ ·.id) }

theorem failureDomains_eq (nodes : List NodeInfo) : failureDomains nodes =
      ((nodes.map domain).dedup.mergeSort (· ≤ ·)).map (sortedGroup nodes) := by
  have h := grouped_foldl nodes
  unfold failureDomains
  generalize nodes.foldl joinGroup [] = groups at h
  have hgroups : groups = (groups.map (·.stableId)).map (groupOf nodes) := by
    rw [List.map_map]
    conv_lhs => rw [← List.map_id groups]
    exact map_congr_left h.each
  have hperm : (groups.map (·.stableId)).Perm (nodes.map domain).dedup :=
    (perm_ext_iff_of_nodup h.distinct (nodup_dedup _)).2 fun d => by
      rw [h.mem_iff, mem_dedup]
  have hcompares : Compares (fun a b : ByteString => decide (a ≤ b)) id := fun a b => by simp
  rw [← hcompares.mergeSort_eq hperm fun a _ b _ => id]
  conv_lhs => rw [hgroups]
  rw [← map_mergeSort (r := fun a b : ByteString => decide (a ≤ b)) fun a _ b _ => rfl,
    List.map_map]
  rfl

theorem compares_id : Compares (fun a b : NodeInfo => decide (a.id ≤ b.id)) NodeInfo.id :=
  fun a b => by simp

section

variable (sha256 : ByteString → Hash256) [LinearOrder σ] (fallbackScore : ByteString → NodeInfo → σ)
  (key : ByteString) (hids : (nodes.map NodeInfo.id).Nodup)

include hids in
theorem id_injOn : ∀ a ∈ nodes, ∀ b ∈ nodes, a.id = b.id → a = b :=
  fun _ ha _ hb => inj_on_of_nodup_map hids ha hb

include hids in
theorem failureDomains_perm (h : nodes.Perm order) :
    failureDomains nodes = failureDomains order := by
  have hcompares : Compares (fun a b : ByteString => decide (a ≤ b)) id := fun a b => by simp
  have hsort := hcompares.mergeSort_eq (h.map domain).dedup fun a _ b _ => id
  rw [failureDomains_eq, failureDomains_eq, hsort]
  refine map_congr_left fun d _ => ?_
  have hmembers : (members nodes d).Perm (members order d) := h.filter _
  unfold sortedGroup groupOf
  rw [groupCapacity_perm (hmembers.map _), compares_id.mergeSort_eq hmembers fun a ha b hb =>
    id_injOn hids a (mem_members.1 ha).1 b (mem_members.1 hb).1]

theorem chooseWithinGroup_some {group : CapacityEntity} (h : group.nodes ≠ []) :
    ∃ node ∈ group.nodes, chooseWithinGroup sha256 key group = some node := by
  have hlength : 0 < group.nodes.length := length_pos_iff.2 h
  unfold chooseWithinGroup
  split
  · cases hnodes : group.nodes with
    | nil => exact absurd hnodes h
    | cons node rest => exact ⟨node, mem_cons_self, rfl⟩
  · have hpicks := shardSample_picks
      (shardFor sha256 (sha256 (key ++ group.stableId))) (group.nodes.map (·.capacity)) 1
    rw [length_map] at hpicks
    dsimp only
    unfold systematicShardSample
    generalize shardSample _ (group.nodes.map (·.capacity)) 1 = picked at hpicks ⊢
    have hindex : picked.headD 0 < group.nodes.length := by
      cases picked with
      | nil => exact hlength
      | cons i rest => exact hpicks.bound i mem_cons_self
    exact ⟨_, getElem_mem hindex, getElem?_eq_getElem hindex⟩

theorem foldl_prefer {preferred added : List NodeInfo}
    (h : ((preferred ++ added).map NodeInfo.id).Nodup) :
    added.foldl prefer preferred = preferred ++ added := by
  induction added generalizing preferred with
  | nil => rw [foldl_nil, append_nil]
  | cons node rest ih =>
    have hsplit : preferred ++ node :: rest = (preferred ++ [node]) ++ rest := by simp
    have hnew : node.id ∉ preferred.map NodeInfo.id := by
      rw [map_append, map_cons, nodup_append] at h
      exact fun hmem => h.2.2 _ hmem _ mem_cons_self rfl
    rw [foldl_cons, prefer, if_neg hnew, ih (hsplit ▸ h), hsplit]

theorem filterMap_picks {α κ : Type} {f : Nat → Option α} {key : α → κ} {keys : List κ}
    (hpicks : Picks keys.length count picked) (hkeys : keys.Nodup)
    (hf : ∀ i, (f i).map key = keys[i]?) :
    (picked.filterMap f).length = count ∧ ((picked.filterMap f).map key).Nodup ∧
      ∀ i ∈ picked, ∀ k, keys[i]? = some k → k ∈ (picked.filterMap f).map key := by
  have hmap : (picked.filterMap f).map key = picked.filterMap fun i => keys[i]? := by
    rw [map_filterMap]
    exact congrArg (filterMap · picked) (funext hf)
  refine ⟨?_, ?_, fun i hi k hk => ?_⟩
  · rw [← hpicks.length, ← length_map key, hmap, filterMap_length_eq_length]
    exact fun i hi => by simpa using hpicks.bound i hi
  · rw [hmap]
    refine hpicks.nodup.filterMap fun i j k hi hj => ?_
    have hi : keys[i]? = some k := hi
    have hj : keys[j]? = some k := hj
    exact (getElem?_inj (List.getElem?_eq_some_iff.1 hi).1 hkeys).1 (hi.trans hj.symm)
  · rw [hmap]
    exact mem_filterMap.2 ⟨i, hi, hk⟩

def domainNames (nodes : List NodeInfo) : List ByteString :=
  (nodes.map domain).dedup.mergeSort (· ≤ ·)

theorem domainNames_perm_dedup (nodes : List NodeInfo) :
    (domainNames nodes).Perm (nodes.map domain).dedup := mergeSort_perm _ _

include hids in
theorem preferredOfDomains_spec {diverse : Nat} (hdiverse : diverse ≤ (domainNames nodes).length) :
    let preferred := preferredOfDomains sha256 key (failureDomains nodes) diverse
    preferred ⊆ nodes ∧ preferred.length = diverse ∧ (preferred.map domain).Nodup ∧
      (diverse = (domainNames nodes).length → ∀ node ∈ nodes, domain node ∈ preferred.map domain) := by
  have hnames : (domainNames nodes).Nodup :=
    (domainNames_perm_dedup nodes).nodup_iff.2 (nodup_dedup _)
  have hgroups : failureDomains nodes = (domainNames nodes).map (sortedGroup nodes) :=
    failureDomains_eq nodes
  have hchoose : ∀ d ∈ domainNames nodes, ∃ node ∈ nodes, domain node = d ∧
      chooseWithinGroup sha256 key (sortedGroup nodes d) = some node := by
    intro d hd
    have hd : d ∈ nodes.map domain :=
      mem_dedup.1 ((domainNames_perm_dedup nodes).subset hd)
    have hperm : (sortedGroup nodes d).nodes.Perm (members nodes d) := mergeSort_perm _ _
    have hne : (sortedGroup nodes d).nodes ≠ [] := by
      intro hnil
      rw [hnil] at hperm
      exact members_eq_nil_iff.1 hperm.symm.eq_nil hd
    obtain ⟨node, hnode, hsome⟩ := chooseWithinGroup_some sha256 key hne
    obtain ⟨hin, hdomain⟩ := mem_members.1 (hperm.subset hnode)
    exact ⟨node, hin, hdomain, hsome⟩
  have hpicks := shardSample_picks (shardFor sha256 key) (capacitiesOf (failureDomains nodes))
    diverse
  have hcount : (capacitiesOf (failureDomains nodes)).length = (domainNames nodes).length := by
    unfold capacitiesOf
    rw [length_map, hgroups, length_map]
  rw [hcount, min_eq_left hdiverse] at hpicks
  let choice (index : Nat) : Option NodeInfo :=
    (failureDomains nodes)[index]?.bind (chooseWithinGroup sha256 key)
  have hchoice : ∀ i, (choice i).map domain = (domainNames nodes)[i]? ∧
      ∀ node, choice i = some node → node ∈ nodes := by
    intro i
    simp only [choice]
    rw [hgroups, List.getElem?_map]
    cases hname : (domainNames nodes)[i]? with
    | none => exact ⟨rfl, fun node h => nomatch h⟩
    | some d =>
      obtain ⟨node, hnode, hdomain, hsome⟩ := hchoose d (mem_of_getElem? hname)
      rw [map_some, bind_some, hsome, map_some, hdomain]
      exact ⟨rfl, fun other h => some.inj h ▸ hnode⟩
  obtain ⟨hlength, hdomains, hall⟩ := filterMap_picks hpicks hnames fun i => (hchoice i).1
  generalize hpicked : (shardSample (shardFor sha256 key) (capacitiesOf (failureDomains nodes))
    diverse).filterMap choice = picked at hlength hdomains hall
  have hsub : picked ⊆ nodes := by
    intro node hnode
    rw [← hpicked] at hnode
    obtain ⟨i, _, hi⟩ := mem_filterMap.1 hnode
    exact (hchoice i).2 node hi
  have heq : preferredOfDomains sha256 key (failureDomains nodes) diverse = picked := by
    have hdistinct : (([] ++ picked).map NodeInfo.id).Nodup :=
      (List.Nodup.of_map _ hdomains).map_on fun a ha b hb =>
        id_injOn hids a (hsub ha) b (hsub hb)
    exact (congrArg (List.foldl prefer []) hpicked).trans (foldl_prefer hdistinct)
  rw [heq]
  refine ⟨hsub, hlength, hdomains, fun hfull node hnode => ?_⟩
  have hname : domain node ∈ domainNames nodes :=
    (domainNames_perm_dedup nodes).symm.subset (mem_dedup.2 (List.mem_map_of_mem hnode))
  obtain ⟨i, hi, hget⟩ := mem_iff_getElem.1 hname
  subst hfull
  exact hall i (hpicks.all hi) _ (List.getElem?_eq_some_iff.2 ⟨hi, hget⟩)

theorem mem_unchosen :
    node ∈ unchosen nodes preferred ↔ node ∈ nodes ∧ node.id ∉ preferred.map NodeInfo.id := by
  unfold unchosen
  rw [mem_filter, decide_eq_true_iff]

/-- Nodes of the list, each once. -/
structure Chosen (nodes preferred : List NodeInfo) : Prop where
  subset : preferred ⊆ nodes
  distinct : (preferred.map NodeInfo.id).Nodup

include hids in
theorem Chosen.perm (h : Chosen nodes preferred) :
    (preferred ++ unchosen nodes preferred).Perm nodes := by
  have hnodes := List.Nodup.of_map _ hids
  refine (perm_ext_iff_of_nodup ?_ hnodes).2 fun node => ?_
  · refine nodup_append.2 ⟨List.Nodup.of_map _ h.distinct, hnodes.filter _, fun a ha b hb heq => ?_⟩
    exact (mem_unchosen.1 hb).2 (heq ▸ List.mem_map_of_mem ha)
  · rw [mem_append, mem_unchosen]
    constructor
    · rintro (hp | hu)
      · exact h.subset hp
      · exact hu.1
    · intro hnode
      by_cases hid : node.id ∈ preferred.map NodeInfo.id
      · obtain ⟨same, hsame, heq⟩ := List.mem_map.1 hid
        exact Or.inl (id_injOn hids same (h.subset hsame) node hnode heq ▸ hsame)
      · exact Or.inr ⟨hnode, hid⟩

include hids in
theorem preferredExtra_spec (h : Chosen nodes preferred) (hcount : count ≤ nodes.length)
    (hle : preferred.length ≤ count) :
    ∃ extra, preferredExtra sha256 key nodes count preferred = preferred ++ extra ∧
      Chosen nodes (preferred ++ extra) ∧ (preferred ++ extra).length = count := by
  unfold preferredExtra
  split
  · next hlt =>
    dsimp only
    have hperm := mergeSort_perm (unchosen nodes preferred)
      fun a b => decide (a.id ≤ b.id)
    generalize (unchosen nodes preferred).mergeSort (fun a b => decide (a.id ≤ b.id)) =
      remaining at hperm
    have hremaining : (remaining.map NodeInfo.id).Nodup :=
      (hperm.map _).nodup_iff.2 (hids.sublist (filter_sublist.map _))
    have hlength := (h.perm hids).length_eq
    rw [length_append, ← hperm.length_eq] at hlength
    have hpicks := shardSample_picks
      (shardFor sha256 (sha256 (key ++ bytes "macha/data-extra-domain/v7")))
      (remaining.map (·.capacity)) (count - preferred.length)
    have hkeys : (remaining.map NodeInfo.id).length = remaining.length := length_map _
    rw [length_map, min_eq_left (by omega), ← hkeys] at hpicks
    obtain ⟨hcounted, hdistinct, _⟩ := filterMap_picks (f := fun i => remaining[i]?) hpicks
      hremaining fun i => List.getElem?_map.symm
    unfold systematicShardSample
    generalize hextra : (shardSample _ (remaining.map (·.capacity))
      (count - preferred.length)).filterMap (fun i => remaining[i]?) = extra
      at hcounted hdistinct ⊢
    have hsub : extra ⊆ unchosen nodes preferred := by
      intro node hnode
      rw [← hextra] at hnode
      obtain ⟨i, _, hi⟩ := mem_filterMap.1 hnode
      exact hperm.subset (mem_of_getElem? hi)
    have hnodup : ((preferred ++ extra).map NodeInfo.id).Nodup := by
      rw [map_append]
      refine nodup_append.2 ⟨h.distinct, hdistinct, fun a ha b hb heq => ?_⟩
      obtain ⟨node, hnode, rfl⟩ := List.mem_map.1 hb
      exact (mem_unchosen.1 (hsub hnode)).2 (heq ▸ ha)
    refine ⟨extra, foldl_prefer hnodup, ⟨fun node hnode => ?_, hnodup⟩, ?_⟩
    · rcases mem_append.1 hnode with hnode | hnode
      · exact h.subset hnode
      · exact (mem_unchosen.1 (hsub hnode)).1
    · rw [length_append, hcounted]
      omega
  · next hfull =>
    exact ⟨[], by rw [append_nil], by rwa [append_nil], by
      rw [append_nil]; omega⟩

theorem compares_fallbackBefore (score : NodeInfo → σ) :
    Compares (fallbackBefore score) fun node => toLex (score node, node.id) := by
  intro a b
  unfold fallbackBefore
  rw [Prod.Lex.toLex_le_toLex]
  split
  · next hne => simp [hne]
  · next heq =>
    simp only [ne_eq, not_not] at heq
    simp [heq]

include hids in
theorem mergeSort_fallbackBefore (score : NodeInfo → σ) (h : nodes.Perm order) :
    nodes.mergeSort (fallbackBefore score) = order.mergeSort (fallbackBefore score) :=
  (compares_fallbackBefore score).mergeSort_eq h fun a ha b hb heq =>
    id_injOn hids a ha b hb (congrArg (fun k => (ofLex k).2) heq)

include hids in
theorem preferred_spec (hcount : count ≤ nodes.length) :
    let preferred := preferredExtra sha256 key nodes count
      (preferredOfDomains sha256 key (failureDomains nodes)
        (min count (failureDomains nodes).length))
    Chosen nodes preferred ∧ preferred.length = count ∧
      (count ≤ (nodes.map domain).dedup.length → (preferred.map domain).Nodup) ∧
      ((nodes.map domain).dedup.length < count →
        ∀ node ∈ nodes, domain node ∈ preferred.map domain) := by
  have hnames := (domainNames_perm_dedup nodes).length_eq
  have hgroups : (failureDomains nodes).length = (domainNames nodes).length := by
    rw [failureDomains_eq, length_map]
    rfl
  rw [hgroups]
  obtain ⟨hsub, hlength, hdomains, hall⟩ := preferredOfDomains_spec sha256 key hids
    (min_le_right count (domainNames nodes).length)
  generalize preferredOfDomains sha256 key (failureDomains nodes)
    (min count (domainNames nodes).length) = spread at hsub hlength hdomains hall ⊢
  have hspread : Chosen nodes spread :=
    ⟨hsub, (List.Nodup.of_map _ hdomains).map_on fun a ha b hb =>
      id_injOn hids a (hsub ha) b (hsub hb)⟩
  obtain ⟨extra, heq, hchosen, hcounted⟩ := preferredExtra_spec sha256 key hids hspread hcount
    (hlength.trans_le (min_le_left _ _))
  rw [heq]
  refine ⟨hchosen, hcounted, fun hmany => ?_, fun hfew node hnode => ?_⟩
  · have hnone : extra = [] := by
      rw [length_append] at hcounted
      exact eq_nil_of_length_eq_zero (by omega)
    rwa [hnone, append_nil]
  · rw [map_append]
    exact mem_append_left _ (hall (by omega) node hnode)

theorem unchosen_perm (h : nodes.Perm order) (preferred : List NodeInfo) :
    (unchosen nodes preferred).Perm (unchosen order preferred) :=
  h.filter _

include hids in
theorem ids_unchosen (preferred : List NodeInfo) :
    ((unchosen nodes preferred).map NodeInfo.id).Nodup :=
  hids.sublist (filter_sublist.map _)

include hids in
theorem capacityPlacementNodes_perm (h : nodes.Perm order) :
    capacityPlacementNodes sha256 fallbackScore key order count =
      capacityPlacementNodes sha256 fallbackScore key nodes count := by
  have hempty : order.isEmpty = nodes.isEmpty := by
    rw [Bool.eq_iff_iff, List.isEmpty_iff, List.isEmpty_iff]
    exact ⟨fun hnil => (hnil ▸ h).eq_nil, fun hnil => (hnil ▸ h).symm.eq_nil⟩
  have hextra : ∀ count preferred, preferredExtra sha256 key order count preferred =
      preferredExtra sha256 key nodes count preferred := by
    intro count preferred
    unfold preferredExtra
    rw [compares_id.mergeSort_eq (unchosen_perm h preferred)
      (id_injOn (ids_unchosen hids preferred))]
  unfold capacityPlacementNodes
  dsimp only
  rw [hempty, ← h.length_eq, ← failureDomains_perm hids h, ← mergeSort_fallbackBefore hids _ h,
    hextra]
  congr 3
  exact (mergeSort_fallbackBefore (ids_unchosen hids _) _ (unchosen_perm h _)).symm

theorem placed_eq (h : 1 < min count nodes.length) :
    let preferred := preferredExtra sha256 key nodes (min count nodes.length)
      (preferredOfDomains sha256 key (failureDomains nodes)
        (min (min count nodes.length) (failureDomains nodes).length))
    capacityPlacementNodes sha256 fallbackScore key nodes count =
      preferred ++ (unchosen nodes preferred).mergeSort (fallbackBefore (fallbackScore key)) := by
  have hsome : ¬ (nodes.isEmpty || count == 0) = true := by
    rw [Bool.or_eq_true, List.isEmpty_iff, beq_iff_eq]
    rintro (hnil | hzero)
    · rw [hnil, length_nil] at h
      omega
    · omega
  intro preferred
  unfold capacityPlacementNodes
  rw [if_neg hsome, if_neg (by omega)]

include hids in
theorem placed_perm (hcount : count ≠ 0) :
    (capacityPlacementNodes sha256 fallbackScore key nodes count).Perm nodes := by
  rcases Nat.lt_or_ge 1 (min count nodes.length) with hmany | hone
  · have hchosen := (preferred_spec sha256 key hids (min_le_right count nodes.length)).1
    rw [placed_eq sha256 fallbackScore key hmany]
    exact (List.Perm.append_left _ (mergeSort_perm _ _)).trans (hchosen.perm hids)
  · unfold capacityPlacementNodes
    split
    · next hnone =>
      rw [Bool.or_eq_true, List.isEmpty_iff, beq_iff_eq] at hnone
      rw [hnone.resolve_right hcount]
    · next hsome =>
      rw [Bool.or_eq_true, List.isEmpty_iff, beq_iff_eq, not_or] at hsome
      have hlength : 0 < nodes.length := length_pos_iff.2 hsome.1
      rw [if_pos (by omega)]
      exact mergeSort_perm _ _

end

/-- With distinct ids the placement order has every node once (none for a count
of zero), does not depend on the order of the list, and begins with nodes of
distinct failure domains if there are enough, else with one of every domain. -/
theorem capacityPlacementNodes_wellFormed {σ : Type} [LinearOrder σ]
    (sha256 : ByteString → Hash256) (fallbackScore : ByteString → NodeInfo → σ)
    (key : ByteString) (nodes : List NodeInfo) (count : Nat)
    (hids : (nodes.map NodeInfo.id).Nodup) :
    let placed := capacityPlacementNodes sha256 fallbackScore key nodes count
    let first := placed.take (min count nodes.length)
    (count ≠ 0 → placed.Perm nodes) ∧ (count = 0 → placed = []) ∧
    (∀ order, nodes.Perm order →
      capacityPlacementNodes sha256 fallbackScore key order count = placed) ∧
    (2 ≤ count → (min count nodes.length ≤ (nodes.map domain).dedup.length →
        first.Pairwise fun a b => ¬ SameDomain a b) ∧
      ((nodes.map domain).dedup.length < min count nodes.length →
        ∀ node ∈ nodes, ∃ kept ∈ first, SameDomain kept node)) := by
  intro placed first
  refine ⟨fun hcount => ?_, fun hcount => ?_,
    fun order horder => capacityPlacementNodes_perm _ _ _ hids horder, fun hcount => ?_⟩
  · exact placed_perm sha256 fallbackScore key hids hcount
  · show capacityPlacementNodes _ _ _ _ _ = _
    unfold capacityPlacementNodes
    rw [hcount, beq_self_eq_true, Bool.or_true, if_pos rfl]
  · rcases Nat.lt_or_ge 1 nodes.length with hmany | hone
    · obtain ⟨_, hlength, hdistinct, hall⟩ :=
        preferred_spec sha256 key hids (min_le_right count nodes.length)
      have hfirst : first = preferredExtra sha256 key nodes (min count nodes.length)
          (preferredOfDomains sha256 key (failureDomains nodes)
            (min (min count nodes.length) (failureDomains nodes).length)) := by
        show (capacityPlacementNodes _ _ _ _ _).take _ = _
        rw [placed_eq sha256 fallbackScore key (lt_min hcount hmany)]
        exact take_left' hlength
      rw [← hfirst] at hdistinct hall
      refine ⟨fun hle => ?_, fun hlt node hnode => ?_⟩
      · have h := hdistinct hle
        rw [List.Nodup, pairwise_map] at h
        exact h.imp fun {a b} hne => mt (domain_eq_iff a b).2 hne
      · obtain ⟨kept, hkept, heq⟩ := List.mem_map.1 (hall hlt node hnode)
        exact ⟨kept, hkept, (domain_eq_iff kept node).1 heq⟩
    · have hshort : first.length ≤ 1 := (length_take_le _ _).trans (by omega)
      refine ⟨fun _ => ?_, fun hlt node hnode => ?_⟩
      · match first, hshort with
        | [], _ => exact List.Pairwise.nil
        | [a], _ => exact pairwise_singleton _ a
      · have hmem : domain node ∈ (nodes.map domain).dedup :=
          mem_dedup.2 (List.mem_map_of_mem hnode)
        have := length_pos_of_mem hmem
        omega

/-- Two nodes in one rack and one in another. -/
def racked : List NodeInfo :=
  [{ id := 1, failureDomain := bytes "a", capacity := 5 },
    { id := 2, failureDomain := bytes "a", capacity := 5 },
    { id := 3, failureDomain := bytes "b", capacity := 5 }]

theorem capacityPlacementNodes_no_count :
    ¬ (capacityPlacementNodes (fun _ => []) (fun _ node => node.id) [] racked 0).Perm racked := by
  decide

theorem capacityPlacementNodes_two_racks :
    let placed := capacityPlacementNodes (fun _ => []) (fun _ node => node.id) [] racked 2
    placed.Perm racked ∧ (placed.take 2).Pairwise fun a b => ¬ SameDomain a b := by
  have h := capacityPlacementNodes_wellFormed (fun _ => []) (fun _ node => node.id) [] racked 2
    (by decide)
  exact ⟨h.1 (by decide), (h.2.2.2 (by decide)).1 (by decide)⟩

end Macha.Placement
