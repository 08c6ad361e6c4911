import Macha.Cluster.Placement
import Macha.Library.Firsts
import Macha.Library.SortBy

/-!
# Rendezvous placement

The two passes over the nodes in descending score: first the best node of each
failure domain, then the best of the others. A node added to the list takes a
place from at most one of those chosen before, and nobody else comes in.
-/

namespace Macha.Placement

open List

variable {count : Nat}

theorem spreadPass_eq {out : List NodeInfo} (h : out.length ≤ count) (domains : List ByteString)
    (nodes : List NodeInfo) :
    spreadPass count out domains nodes =
      out ++ (firstsBy rendezvousDomain domains nodes).take (count - out.length) := by
  induction nodes generalizing out domains with
  | nil => simp [spreadPass, firstsBy]
  | cons node rest ih =>
    unfold spreadPass firstsBy
    split
    · next hfull => rw [hfull, Nat.sub_self, take_zero, append_nil]
    · next hroom =>
      split
      · exact ih h domains
      · have hlength : (out ++ [node]).length = out.length + 1 := by simp
        obtain ⟨left, hleft⟩ : ∃ left, count - out.length = left + 1 :=
          ⟨count - out.length - 1, by omega⟩
        rw [ih (by omega), hlength, Nat.sub_add_eq, hleft, Nat.add_sub_cancel,
          take_succ_cons, append_assoc, singleton_append]

theorem fillPass_eq {out : List NodeInfo} (h : out.length ≤ count) (nodes : List NodeInfo) :
    fillPass count out nodes =
      out ++ (firstsBy NodeInfo.id (out.map NodeInfo.id) nodes).take (count - out.length) := by
  induction nodes generalizing out with
  | nil => simp [fillPass, firstsBy]
  | cons node rest ih =>
    unfold fillPass firstsBy
    split
    · next hfull => rw [hfull, Nat.sub_self, take_zero, append_nil]
    · next hroom =>
      split
      · exact ih h
      · have hlength : (out ++ [node]).length = out.length + 1 := by simp
        obtain ⟨left, hleft⟩ : ∃ left, count - out.length = left + 1 :=
          ⟨count - out.length - 1, by omega⟩
        have hseen : firstsBy NodeInfo.id ((out ++ [node]).map NodeInfo.id) rest =
            firstsBy NodeInfo.id (node.id :: out.map NodeInfo.id) rest :=
          firstsBy_congr fun n _ => by simp [or_comm]
        rw [ih (by omega), hseen, hlength, Nat.sub_add_eq, hleft, Nat.add_sub_cancel,
          take_succ_cons, append_assoc, singleton_append]

def leaders (scored : List NodeInfo) : List NodeInfo := firstsBy rendezvousDomain [] scored

/-- The best of the nodes that are not among `out`. -/
def others (out scored : List NodeInfo) : List NodeInfo :=
  firstsBy NodeInfo.id (out.map NodeInfo.id) scored

def chosen (count : Nat) (scored : List NodeInfo) : List NodeInfo :=
  (leaders scored).take count ++
    (others ((leaders scored).take count) scored).take (count - (leaders scored).length)

variable {scored : List NodeInfo}

theorem chosen_of_le (h : count ≤ (leaders scored).length) :
    chosen count scored = (leaders scored).take count := by
  unfold chosen
  rw [Nat.sub_eq_zero_of_le h, take_zero, append_nil]

theorem chosen_of_lt (h : (leaders scored).length ≤ count) : chosen count scored = leaders scored ++
      (others (leaders scored) scored).take (count - (leaders scored).length) := by
  unfold chosen
  rw [take_of_length_le h]

theorem length_leaders_add_others_le (scored : List NodeInfo) :
    (leaders scored).length + (others (leaders scored) scored).length ≤ scored.length := by
  let p : NodeInfo → Bool := fun node => decide (node.id ∈ (leaders scored).map NodeInfo.id)
  have hfirst : (leaders scored).length ≤ (scored.filter p).length := by
    have hsub := ((firstsBy_sublist (f := rendezvousDomain) [] scored).filter p).length_le
    rwa [filter_eq_self.2 fun node hnode => ?_] at hsub
    simpa [p] using ⟨node, hnode, rfl⟩
  have hsecond : (others (leaders scored) scored).length ≤
      (scored.filter fun node => !p node).length := by
    have hsub := ((firstsBy_sublist (f := NodeInfo.id) ((leaders scored).map NodeInfo.id)
      scored).filter fun node => !p node).length_le
    rwa [filter_eq_self.2 fun node hnode => ?_] at hsub
    simpa [p] using not_mem_of_mem_firstsBy hnode
  have := length_eq_length_filter_add (l := scored) p
  omega

theorem chosen_min (count : Nat) (scored : List NodeInfo) :
    chosen (min count scored.length) scored = chosen count scored := by
  have hle := length_leaders_add_others_le scored
  rcases Nat.le_total count scored.length with h | h
  · rw [min_eq_left h]
  · rw [min_eq_right h, chosen_of_lt (by omega), chosen_of_lt (by omega),
      take_of_length_le (by omega), take_of_length_le (by omega)]

theorem rendezvousNodes_eq {σ : Type} [LinearOrder σ] (score : ByteString → NodeId → σ)
    (key : ByteString) (nodes : List NodeInfo) (count : Nat) :
    rendezvousNodes score key nodes count =
      chosen count (nodes.mergeSort (scoredBefore (score key))) := by
  unfold rendezvousNodes
  dsimp only
  rw [← chosen_min]
  generalize nodes.mergeSort (scoredBefore (score key)) = scored
  generalize min count scored.length = count
  rw [spreadPass_eq (Nat.zero_le _), nil_append, length_nil, Nat.sub_zero,
    fillPass_eq (by rw [length_take]; exact min_le_left _ _)]
  show _ ++ List.take (count - ((leaders scored).take count).length)
    (others ((leaders scored).take count) scored) = _
  congr 2
  rw [length_take]
  omega

section

variable {before behind : List NodeInfo} {x : NodeInfo}

theorem leaders_insert (before behind : List NodeInfo) (x : NodeInfo) :
    leaders (before ++ x :: behind) = leaders (before ++ behind) ∨
    leaders (before ++ x :: behind) = firstsBy rendezvousDomain [] before ++
      x :: firstsBy rendezvousDomain
        (rendezvousDomain x :: (before.map rendezvousDomain ++ [])) behind := by
  unfold leaders
  rw [firstsBy_append, firstsBy_append]
  by_cases hx : rendezvousDomain x ∈ before.map rendezvousDomain ++ []
  · rw [firstsBy_of_seen hx]
    exact Or.inl rfl
  · rw [firstsBy_of_new hx]
    exact Or.inr rfl

variable {node : NodeInfo} {count : Nat}

theorem mem_take_leaders_insert (h : node ∈ (leaders (before ++ x :: behind)).take count) :
    node = x ∨ node ∈ (leaders (before ++ behind)).take count := by
  rcases leaders_insert before behind x with heq | heq
  · rw [heq] at h
    exact Or.inr h
  · rw [heq, take_append] at h
    have hleaders : leaders (before ++ behind) = _ := firstsBy_append [] before behind
    rw [hleaders, take_append]
    rcases mem_append.1 h with h | h
    · exact Or.inr (mem_append_left _ h)
    · obtain ⟨left, hleft⟩ : ∃ left,
          count - (firstsBy rendezvousDomain [] before).length = left := ⟨_, rfl⟩
      rw [hleft] at h ⊢
      cases left with
      | zero => cases h
      | succ left =>
        rcases mem_cons.1 h with rfl | h
        · exact Or.inl rfl
        · exact Or.inr (mem_append_right _ (mem_take_firstsBy_succ h))

theorem length_leaders_insert (before behind : List NodeInfo) (x : NodeInfo) :
    (leaders (before ++ behind)).length ≤ (leaders (before ++ x :: behind)).length := by
  rcases leaders_insert before behind x with heq | heq
  · rw [heq]
  · have hleaders : leaders (before ++ behind) = _ := firstsBy_append [] before behind
    have hle := length_firstsBy_le_succ (f := rendezvousDomain)
      (before.map rendezvousDomain ++ []) (rendezvousDomain x) behind
    rw [heq, hleaders, length_append, length_append, length_cons]
    omega

theorem mem_leaders_insert (h : node ∈ leaders (before ++ x :: behind)) :
    node = x ∨ node ∈ leaders (before ++ behind) := by
  have htake : node ∈ (leaders (before ++ x :: behind)).take
      (leaders (before ++ x :: behind)).length := by rwa [take_length]
  exact (mem_take_leaders_insert htake).imp_right mem_of_mem_take

section

variable (hx : x.id ∉ (before ++ behind).map NodeInfo.id)

include hx

theorem mem_take_others_insert (hid : node.id ≠ x.id)
    (hleader : node.id ∉ (leaders (before ++ behind)).map NodeInfo.id)
    (h : node ∈ (others (leaders (before ++ x :: behind)) (before ++ x :: behind)).take count) :
    node ∈ (others (leaders (before ++ behind)) (before ++ behind)).take count := by
  have hwithout : node ∈ (others (leaders (before ++ x :: behind))
      (before ++ behind)).take count := by
    unfold others at h ⊢
    by_cases hseen : x.id ∈ (leaders (before ++ x :: behind)).map NodeInfo.id
    · rwa [firstsBy_insert_seen hseen] at h
    · obtain ⟨l, l', hwith, hwithout⟩ := firstsBy_insert hseen hx
      rw [hwith] at h
      rw [hwithout]
      rcases mem_take_insert h with rfl | h
      · exact absurd rfl hid
      · exact h
  refine mem_take_firstsBy_mono (fun a ha hmem => ?_) hleader hwithout
  obtain ⟨leader, hl, heq⟩ := List.mem_map.1 hmem
  rcases mem_leaders_insert hl with rfl | hl
  · exact absurd (heq ▸ List.mem_map_of_mem ha) hx
  · exact heq ▸ List.mem_map_of_mem hl

theorem mem_chosen_insert (h : node ∈ chosen count (before ++ x :: behind)) :
    node.id = x.id ∨ node.id ∈ (chosen count (before ++ behind)).map NodeInfo.id := by
  rcases Nat.le_total count (leaders (before ++ x :: behind)).length with hle | hlt
  · rw [chosen_of_le hle] at h
    rcases mem_take_leaders_insert h with rfl | h
    · exact Or.inl rfl
    · exact Or.inr (List.mem_map_of_mem (mem_append_left _ h))
  · have hlength := length_leaders_insert before behind x
    rw [chosen_of_lt hlt] at h
    rw [chosen_of_lt (by omega), map_append, mem_append]
    by_cases hid : node.id = x.id
    · exact Or.inl hid
    by_cases hleader : node.id ∈ (leaders (before ++ behind)).map NodeInfo.id
    · exact Or.inr (Or.inl hleader)
    rcases mem_append.1 h with h | h
    · rcases mem_leaders_insert h with rfl | h
      · exact absurd rfl hid
      · exact absurd (List.mem_map_of_mem h) hleader
    · refine Or.inr (Or.inr (List.mem_map_of_mem (mem_take_of_le ?_
        (mem_take_others_insert hx hid hleader h))))
      omega

theorem chosen_insert_of_not_mem (h : x ∉ chosen count (before ++ x :: behind)) :
    chosen count (before ++ x :: behind) = chosen count (before ++ behind) := by
  rcases leaders_insert before behind x with heq | heq
  · have hnot : x.id ∉ ((leaders (before ++ behind)).take count).map NodeInfo.id := by
      intro hmem
      obtain ⟨leader, hl, hid⟩ := List.mem_map.1 hmem
      have hin := (firstsBy_sublist [] _).subset (mem_of_mem_take hl)
      exact hx (hid ▸ List.mem_map_of_mem hin)
    obtain ⟨l, l', hwith, hwithout⟩ := firstsBy_insert hnot hx
    unfold chosen others at h ⊢
    rw [heq, hwith] at h ⊢
    have hle := le_length_of_not_mem_take fun hmem => h (mem_append_right _ hmem)
    rw [hwithout, take_append_of_le_length hle, take_append_of_le_length hle]
  · have hleaders : leaders (before ++ behind) = _ := firstsBy_append [] before behind
    have hnot : x ∉ (leaders (before ++ x :: behind)).take count :=
      fun hmem => h (mem_append_left _ hmem)
    rw [heq] at hnot
    have hle := le_length_of_not_mem_take hnot
    rw [chosen_of_le (by rw [heq, length_append]; omega),
      chosen_of_le (by rw [hleaders, length_append]; omega), heq, hleaders,
      take_append_of_le_length hle, take_append_of_le_length hle]

end

end

theorem nodup_chosen (h : (scored.map NodeInfo.id).Nodup) (count : Nat) :
    (chosen count scored).Nodup := by
  have hscored := List.Nodup.of_map _ h
  refine nodup_append.2 ⟨?_, ?_, fun a ha b hb heq => ?_⟩
  · exact hscored.sublist ((take_sublist _ _).trans (firstsBy_sublist _ _))
  · exact hscored.sublist ((take_sublist _ _).trans (firstsBy_sublist _ _))
  · subst heq
    exact not_mem_of_mem_firstsBy (mem_of_mem_take hb) (List.mem_map_of_mem ha)

theorem length_chosen (h : (scored.map NodeInfo.id).Nodup) (count : Nat) :
    (chosen count scored).length = min count scored.length := by
  let p : NodeInfo → Bool := fun node => decide (node.id ∈ (leaders scored).map NodeInfo.id)
  have hsub : (leaders scored).Sublist scored := firstsBy_sublist _ _
  have hothers : others (leaders scored) scored = scored.filter fun node => !p node := by
    refine (firstsBy_eq_filter h _).trans (congrArg (List.filter · scored) ?_)
    funext node
    rw [← decide_not]
  have hleaders : (leaders scored).Perm (scored.filter p) := by
    have hscored := List.Nodup.of_map _ h
    refine (perm_ext_iff_of_nodup (hscored.sublist hsub) (hscored.filter p)).2 fun node => ?_
    simp only [mem_filter, p, decide_eq_true_eq]
    constructor
    · exact fun hnode => ⟨hsub.subset hnode, List.mem_map_of_mem hnode⟩
    · rintro ⟨hnode, hid⟩
      obtain ⟨leader, hl, heq⟩ := List.mem_map.1 hid
      exact inj_on_of_nodup_map h (hsub.subset hl) hnode heq ▸ hl
  have hsum := length_eq_length_filter_add (l := scored) p
  have hlength := hleaders.length_eq
  unfold chosen
  rw [length_append, length_take, length_take]
  rcases Nat.le_total count (leaders scored).length with hle | hlt
  · omega
  · rw [take_of_length_le hlt, hothers]
    omega

theorem chosen_subset (count : Nat) (scored : List NodeInfo) : chosen count scored ⊆ scored := by
  intro node h
  rcases mem_append.1 h with h | h
  · exact (firstsBy_sublist _ _).subset (mem_of_mem_take h)
  · exact (firstsBy_sublist _ _).subset (mem_of_mem_take h)

theorem length_newcomers_le_one {before behind : List NodeInfo} {x : NodeInfo}
    (hids : ((before ++ x :: behind).map NodeInfo.id).Nodup) (count : Nat) :
    ((chosen count (before ++ behind)).filter fun node =>
      decide (node ∉ chosen count (before ++ x :: behind))).length ≤ 1 := by
  have hcons := hids
  rw [(perm_middle.map _).nodup_iff, map_cons, nodup_cons] at hcons
  have hsub : before ++ behind ⊆ before ++ x :: behind := fun node h =>
    perm_middle.symm.subset (mem_cons_of_mem _ h)
  have hkept : ((chosen count (before ++ x :: behind)).erase x).Subperm
      ((chosen count (before ++ behind)).filter fun node =>
        decide (node ∈ chosen count (before ++ x :: behind))) := by
    have hnodup := nodup_chosen hids count
    refine List.Nodup.subperm (hnodup.erase x) fun node hnode => ?_
    rw [hnodup.mem_erase_iff] at hnode
    refine mem_filter.2 ⟨?_, by simpa using hnode.2⟩
    have hin := chosen_subset _ _ hnode.2
    rcases mem_chosen_insert hcons.1 hnode.2 with hid | hid
    · have hx : x ∈ before ++ x :: behind := mem_append_right _ mem_cons_self
      exact absurd (inj_on_of_nodup_map hids hin hx hid) hnode.1
    · obtain ⟨same, hsame, heq⟩ := List.mem_map.1 hid
      exact inj_on_of_nodup_map hids (hsub (chosen_subset _ _ hsame)) hin heq ▸ hsame
  have hlength := hkept.length_le
  have hsplit := length_eq_length_filter_add (l := chosen count (before ++ behind))
    fun node => decide (node ∈ chosen count (before ++ x :: behind))
  have herase : (chosen count (before ++ x :: behind)).length ≤
      ((chosen count (before ++ x :: behind)).erase x).length + 1 := by
    rw [length_erase]
    split <;> omega
  rw [length_chosen hids, length_append, length_cons] at herase
  rw [length_chosen hcons.2, length_append] at hsplit
  simp only [decide_not]
  omega

theorem compares_scoredBefore {σ : Type} [LinearOrder σ] (score : NodeId → σ) :
    Compares (scoredBefore score) fun node =>
      toLex (OrderDual.toDual (score node.id), OrderDual.toDual node.id) := by
  intro a b
  unfold scoredBefore
  rw [Prod.Lex.toLex_le_toLex]
  split
  · next hne => simp [hne]
  · next heq => simp at heq; simp [heq]

/-- Adding a node `x` to the list brings in nobody but `x`; so taking it out
throws out nobody else. If `x` is not chosen nothing changes at all, and with
distinct ids at most one node comes in for it, whatever the order of the list. -/
theorem rendezvousNodes_minimal_disruption {σ : Type} [LinearOrder σ]
    (score : ByteString → NodeId → σ) (key : ByteString) (nodes : List NodeInfo) (x : NodeInfo)
    (count : Nat) (hx : x.id ∉ nodes.map NodeInfo.id) :
    (∀ node ∈ rendezvousNodes score key (x :: nodes) count,
      node.id = x.id ∨ node.id ∈ (rendezvousNodes score key nodes count).map NodeInfo.id) ∧
    (x ∉ rendezvousNodes score key (x :: nodes) count →
      rendezvousNodes score key (x :: nodes) count = rendezvousNodes score key nodes count) ∧
    ((nodes.map NodeInfo.id).Nodup → ((rendezvousNodes score key nodes count).filter fun node =>
        decide (node ∉ rendezvousNodes score key (x :: nodes) count)).length ≤ 1 ∧
      ∀ order, order.Perm (x :: nodes) →
        rendezvousNodes score key order count = rendezvousNodes score key (x :: nodes) count) := by
  have hcompares := compares_scoredBefore (score key)
  obtain ⟨before, behind, hwith, hwithout, _⟩ :=
    mergeSort_cons hcompares.trans hcompares.total x nodes
  have hperm := mergeSort_perm nodes (scoredBefore (score key))
  rw [hwithout] at hperm
  have hx' : x.id ∉ (before ++ behind).map NodeInfo.id :=
    fun hmem => hx ((hperm.map _).subset hmem)
  simp only [rendezvousNodes_eq, hwith, hwithout]
  refine ⟨fun node => mem_chosen_insert hx', chosen_insert_of_not_mem hx', fun hnodes => ⟨?_, ?_⟩⟩
  · refine length_newcomers_le_one ?_ count
    rw [(perm_middle.map _).nodup_iff]
    exact nodup_cons.2 ⟨hx', (hperm.map _).nodup_iff.2 hnodes⟩
  · intro order horder
    have hids : ((x :: nodes).map NodeInfo.id).Nodup := nodup_cons.2 ⟨hx, hnodes⟩
    rw [hcompares.mergeSort_eq horder fun a ha b hb heq => ?_, hwith]
    refine inj_on_of_nodup_map hids (horder.subset ha) (horder.subset hb) ?_
    exact congrArg (fun k => OrderDual.ofDual (ofLex k).2) heq

theorem rendezvousNodes_newcomer :
    let nodes := [{ id := 1, failureDomain := [100] }, { id := 2, failureDomain := [100] }]
    ((rendezvousNodes (fun _ id => id) [] nodes 2).filter fun node =>
      decide (node ∉ rendezvousNodes (fun _ id => id) [] ({ id := 3 } :: nodes) 2)).length ≤ 1 :=
  ((rendezvousNodes_minimal_disruption (fun _ id => id) [] _ _ 2 (by decide)).2.2 (by decide)).1

end Macha.Placement
