import Macha.Library.SortBy
import Macha.Torrent.RequestJoin

/-!
# Merging collections of requests

A merge joins two collections request by request and then cancels, of the live
requests for one torrent, all but the earliest. A cancellation is final, although
the request it was made for may turn out cancelled in a third collection.
-/

namespace Macha

open List OrdMap

namespace TorrentRequest

theorem id_merge {a b : TorrentRequest} {id : ByteString} (ha : a.id = id) (hb : b.id = id) :
    (mergeTorrentRequest a b).id = id := by
  have hout : (mergeTorrentRequest a b).id = (if b.le a then a else b).id := rfl
  rw [hout]
  split
  · exact ha
  · exact hb

end TorrentRequest

namespace TorrentRequests

def Keyed (requests : TorrentRequests) : Prop :=
  ∀ (id : ByteString) (request : TorrentRequest), requests[id]? = some request → request.id = id

def joinVersions : Option TorrentRequest → Option TorrentRequest → Option TorrentRequest
  | some l, some r => some (mergeTorrentRequest l r)
  | some l, none => some l
  | none, r => r

theorem keepOneSide_empty (key : ByteString) (present : TorrentRequest) (out : TorrentRequests) :
    keepOneSide ∅ key present out = out.insertIfNew key present := by
  unfold keepOneSide
  simp

theorem getElem?_insertIfNew_self (m : TorrentRequests) (key : ByteString) (r : TorrentRequest) :
    (m.insertIfNew key r)[key]? = m[key]?.or (some r) := by
  rw [getElem?_insertIfNew]
  cases m[key]? <;> simp

theorem getElem?_insertIfNew_of_ne (m : TorrentRequests) {key a : ByteString}
    (r : TorrentRequest) (h : key ≠ a) : (m.insertIfNew key r)[a]? = m[a]? := by
  rw [getElem?_insertIfNew, if_neg fun hand => h hand.1]

theorem getElem?_join (left right : TorrentRequests) (id : ByteString) :
    (joinTorrentRequests ∅ left right)[id]? = joinVersions left[id]? right[id]? := by
  unfold joinTorrentRequests
  dsimp only
  rw [getElem?_foldl_toList right _
    (fun key r old => if left.contains key then old else old.or (some r)) ?_ ?_]
  · rw [getElem?_foldl_toList left _
      (fun key l old => old.or (joinVersions (some l) right[key]?)) ?_ ?_]
    · have hcontains := OrdMap.contains_iff left id
      cases hleft : left[id]? with
      | none =>
        rw [hleft] at hcontains
        cases right[id]? with
        | none => simp [joinVersions]
        | some r => simp [joinVersions, hcontains]
      | some l =>
        rw [hleft] at hcontains
        cases right[id]? with
        | none => simp [joinVersions]
        | some r => simp [joinVersions, hcontains]
    · rintro m ⟨key, l⟩
      dsimp only
      cases right[key]? with
      | none => simp only [keepOneSide_empty, getElem?_insertIfNew_self, joinVersions]
      | some r => simp only [getElem?_insertIfNew_self, joinVersions]
    · rintro m ⟨key, l⟩ a hne
      dsimp only at hne ⊢
      cases right[key]? with
      | none => simp only [keepOneSide_empty, getElem?_insertIfNew_of_ne m _ hne]
      | some r => simp only [getElem?_insertIfNew_of_ne m _ hne]
  · rintro m ⟨key, r⟩
    dsimp only
    split
    · rfl
    · rw [keepOneSide_empty, getElem?_insertIfNew_self]
  · rintro m ⟨key, r⟩ a hne
    dsimp only at hne ⊢
    split
    · rfl
    · rw [keepOneSide_empty, getElem?_insertIfNew_of_ne m _ hne]

theorem joinVersions_comm (x y : Option TorrentRequest) : joinVersions x y = joinVersions y x := by
  cases x with
  | none => cases y <;> rfl
  | some l =>
    cases y with
    | none => rfl
    | some r => exact congrArg some (TorrentRequest.merge_comm l r)

theorem join_comm (left right : TorrentRequests) :
    joinTorrentRequests ∅ left right = joinTorrentRequests ∅ right left := by
  refine OrdMap.ext fun id => ?_
  rw [getElem?_join, getElem?_join, joinVersions_comm]

theorem merge_comm (left right : TorrentRequests) :
    mergeTorrentRequests ∅ left right = mergeTorrentRequests ∅ right left := by
  unfold mergeTorrentRequests
  rw [join_comm]

theorem Keyed.join {left right : TorrentRequests} (hleft : left.Keyed) (hright : right.Keyed) :
    Keyed (joinTorrentRequests ∅ left right) := by
  intro id request h
  rw [getElem?_join] at h
  cases hl : left[id]? with
  | none =>
    rw [hl] at h
    exact hright id request h
  | some l =>
    rw [hl] at h
    cases hr : right[id]? with
    | none =>
      rw [hr] at h
      cases h
      exact hleft id _ hl
    | some r =>
      rw [hr] at h
      cases h
      exact TorrentRequest.id_merge (hleft id l hl) (hright id r hr)

/-! ## What decides whether a request is live -/

end TorrentRequests

namespace TorrentRequest

/-- What a merge keeps the greatest of, whatever else it takes. -/
def standing (r : TorrentRequest) :
    (ByteString ×ₗ ByteString ×ₗ ByteString ×ₗ Nat ×ₗ NodeId) × (Bool ×ₗ Nat ×ₗ NodeId) ×
      (Nat ×ₗ Nat ×ₗ Nat) × Nat :=
  (r.immutableKey, r.desiredStamp, r.ownerStamp, r.removedUnixMs)

theorem standing_merge (a b : TorrentRequest) :
    (mergeTorrentRequest a b).standing = a.standing ⊔ b.standing := by
  unfold standing
  rw [immutableKey_merge, desiredStamp_merge, ownerStamp_merge, removedUnixMs_merge]
  rfl

theorem live_eq_of_standing {a b : TorrentRequest} (h : a.standing = b.standing) :
    live a = live b := by
  simp only [standing, desiredStamp, ownerStamp, Prod.mk.injEq, toLex_inj] at h
  obtain ⟨_, ⟨hdesired, _⟩, ⟨_, hphase, _⟩, hremoved⟩ := h
  have hsame : a.phase = b.phase := by
    cases ha : a.phase <;> cases hb : b.phase <;> first | rfl | (rw [ha, hb] at hphase; cases hphase)
  unfold live
  rw [hremoved, hsame]
  simp only [bne, hdesired]

end TorrentRequest

namespace TorrentRequests

/-- The order in which adds of one torrent are settled. -/
def addedKey (r : TorrentRequest) : Nat ×ₗ ByteString := toLex (r.createdUnixMs, r.id)

/-- Another live request for the same torrent was added before. -/
def Beaten (requests : TorrentRequests) (r : TorrentRequest) : Prop :=
  r.infoHash ≠ [] ∧ ∃ (id : ByteString) (other : TorrentRequest),
    requests[id]? = some other ∧ live other = true ∧ other.infoHash = r.infoHash ∧
      addedKey other < addedKey r

def LiveAt (requests : TorrentRequests) (id : ByteString) : Prop :=
  ∃ r, requests[id]? = some r ∧ live r = true

/-- The request is live and the earliest of its torrent. -/
def Wins (requests : TorrentRequests) (id : ByteString) : Prop :=
  ∃ r, requests[id]? = some r ∧ live r = true ∧ ¬requests.Beaten r

/-- The request is live and was added after another one for its torrent. -/
def Loses (requests : TorrentRequests) (id : ByteString) : Prop :=
  ∃ r, requests[id]? = some r ∧ live r = true ∧ requests.Beaten r

instance (requests : TorrentRequests) (r : TorrentRequest) : Decidable (requests.Beaten r) :=
  decidable_of_iff ((!r.infoHash.isEmpty && requests.toList.any fun x =>
    live x.2 && x.2.infoHash == r.infoHash && decide (addedKey x.2 < addedKey r)) = true) (by
      unfold Beaten
      simp only [Bool.and_eq_true, List.any_eq_true, Prod.exists, OrdMap.mem_toList,
        Bool.not_eq_true', isEmpty_eq_false_iff, beq_iff_eq, decide_eq_true_eq, and_assoc])

instance (requests : TorrentRequests) (id : ByteString) : Decidable (requests.Wins id) :=
  decidable_of_iff ((requests[id]?.any fun r => live r && !decide (requests.Beaten r)) = true) (by
    unfold Wins
    simp [Option.any_eq_true])

instance (requests : TorrentRequests) (id : ByteString) : Decidable (requests.Loses id) :=
  decidable_of_iff ((requests[id]?.any fun r => live r && decide (requests.Beaten r)) = true) (by
    unfold Loses
    simp [Option.any_eq_true])

/-- The standing of a request in a collection, below all where there is none. -/
def standingAt (requests : TorrentRequests) (id : ByteString) :
    WithBot ((ByteString ×ₗ ByteString ×ₗ ByteString ×ₗ Nat ×ₗ NodeId) × (Bool ×ₗ Nat ×ₗ NodeId) ×
      (Nat ×ₗ Nat ×ₗ Nat) × Nat) :=
  optionKey (requests[id]?.map TorrentRequest.standing)

theorem standingAt_join (left right : TorrentRequests) (id : ByteString) :
    (joinTorrentRequests ∅ left right).standingAt id = left.standingAt id ⊔ right.standingAt id := by
  unfold standingAt
  rw [getElem?_join]
  cases left[id]? with
  | none => exact (bot_sup_eq _).symm
  | some l =>
    cases right[id]? with
    | none => exact (sup_bot_eq _).symm
    | some r => exact congrArg WithBot.some (TorrentRequest.standing_merge l r)

variable {id : ByteString} {r : TorrentRequest}

theorem exists_of_standingAt_eq {one other : TorrentRequests}
    (h : one.standingAt id = other.standingAt id) (hget : one[id]? = some r) :
    ∃ r', other[id]? = some r' ∧ r.standing = r'.standing := by
  unfold standingAt at h
  rw [hget] at h
  cases hother : other[id]? with
  | none =>
    rw [hother] at h
    cases h
  | some r' =>
    rw [hother] at h
    exact ⟨r', rfl, WithBot.coe_inj.1 h⟩

theorem wins_of_standingAt_eq {one other : TorrentRequests}
    (h : ∀ id, one.standingAt id = other.standingAt id) (hwins : one.Wins id) :
    other.Wins id := by
  have hfields : ∀ r r' : TorrentRequest, r.standing = r'.standing →
      r.infoHash = r'.infoHash ∧ addedKey r = addedKey r' := by
    intro r r' hsame
    simp only [TorrentRequest.standing, TorrentRequest.immutableKey, Prod.mk.injEq,
      toLex_inj] at hsame
    unfold addedKey
    rw [hsame.1.1, hsame.1.2.1, hsame.1.2.2.2.1]
    exact ⟨rfl, rfl⟩
  obtain ⟨r, hget, hlive, hbest⟩ := hwins
  obtain ⟨r', hget', hsame⟩ := exists_of_standingAt_eq (h id) hget
  refine ⟨r', hget', TorrentRequest.live_eq_of_standing hsame ▸ hlive, ?_⟩
  rintro ⟨hhash, rival, x, hrival, hx, hxhash, hearlier⟩
  obtain ⟨y, hy, hxy⟩ := exists_of_standingAt_eq (h rival).symm hrival
  refine hbest ⟨(hfields _ _ hsame).1 ▸ hhash, rival, y, hy,
    TorrentRequest.live_eq_of_standing hxy ▸ hx, ?_, ?_⟩
  · rw [← (hfields _ _ hxy).1, hxhash, (hfields _ _ hsame).1]
  · rw [← (hfields _ _ hxy).2, (hfields _ _ hsame).2]
    exact hearlier

/-! ## Settling duplicates -/

/-- The entry counts for the torrent. -/
def inGroup (hash : ByteString) (x : ByteString × TorrentRequest) : Bool :=
  live x.2 && !x.2.infoHash.isEmpty && x.2.infoHash == hash

theorem getD_liveByHash (requests : TorrentRequests) (hash : ByteString) :
    (liveByHash requests).getD hash [] = requests.toList.filter (inGroup hash) := by
  unfold liveByHash
  have hfold : ∀ (items : List (ByteString × TorrentRequest))
      (groups : OrdMap ByteString (List (ByteString × TorrentRequest))),
      (items.foldl (fun groups item =>
        if live item.2 && !item.2.infoHash.isEmpty then
          groups.insert item.2.infoHash (groups.getD item.2.infoHash [] ++ [item])
        else groups) groups).getD hash [] =
          groups.getD hash [] ++ items.filter (inGroup hash) := by
    intro items
    induction items with
    | nil => simp
    | cons item items ih =>
      intro groups
      obtain ⟨key, request⟩ := item
      rw [foldl_cons, ih, filter_cons]
      unfold inGroup
      by_cases hcounts : (live request && !request.infoHash.isEmpty) = true
      · simp only [hcounts, if_true, Bool.true_and, getD_eq, OrdMap.getElem?_insert]
        by_cases hhash : request.infoHash = hash
        · subst hhash
          simp
        · simp [hhash]
      · simp [hcounts]
  exact (hfold _ _).trans (by simp)

/-- The requests of a group that are cancelled for its earliest. -/
def losers (group : List (ByteString × TorrentRequest)) : List (ByteString × TorrentRequest) :=
  (group.mergeSort addedBefore).tail

theorem addedBefore_compares : Compares addedBefore fun x => addedKey x.2 := by
  intro x y
  exact decide_eq_true_iff

variable {group : List (ByteString × TorrentRequest)} {requests : TorrentRequests}

theorem mem_losers (hnodup : group.Nodup)
    (hkeys : ∀ x ∈ group, ∀ y ∈ group, addedKey x.2 = addedKey y.2 → x = y)
    (x : ByteString × TorrentRequest) :
    x ∈ losers group ↔ x ∈ group ∧ ∃ y ∈ group, addedKey y.2 < addedKey x.2 := by
  have hperm := mergeSort_perm group addedBefore
  have hsorted := pairwise_mergeSort addedBefore_compares.trans addedBefore_compares.total
    group
  unfold losers
  cases hsort : group.mergeSort addedBefore with
  | nil =>
    rw [hsort] at hperm
    rw [nil_perm.1 hperm]
    simp
  | cons winner rest =>
    rw [hsort] at hperm hsorted
    obtain ⟨hfirst, _⟩ := pairwise_cons.1 hsorted
    obtain ⟨hfresh, _⟩ := nodup_cons.1 (hperm.nodup_iff.2 hnodup)
    have hwinner : winner ∈ group := hperm.subset mem_cons_self
    constructor
    · intro hx
      have hmem : x ∈ group := hperm.subset (mem_cons_of_mem _ hx)
      refine ⟨hmem, winner, hwinner, lt_of_le_of_ne ((addedBefore_compares _ _).1 (hfirst x hx)) ?_⟩
      intro heq
      rw [hkeys winner hwinner x hmem heq] at hfresh
      exact hfresh hx
    · rintro ⟨hx, y, hy, hlt⟩
      rcases mem_cons.1 (hperm.symm.subset hx) with rfl | hx
      · rcases mem_cons.1 (hperm.symm.subset hy) with rfl | hy
        · exact absurd hlt (lt_irrefl _)
        · exact absurd ((addedBefore_compares _ _).1 (hfirst y hy)) (not_le.2 hlt)
      · exact hx

theorem getElem?_settleDuplicates (hdistinct : group.Pairwise fun x y => x.1 ≠ y.1)
    (out : TorrentRequests) (id : ByteString) :
    (∀ r, (id, r) ∈ losers group →
        ∃ winner, (settleDuplicates out group)[id]? = some (cancelDuplicate winner r)) ∧
      ((∀ r, (id, r) ∉ losers group) → (settleDuplicates out group)[id]? = out[id]?) := by
  have hsorted := (mergeSort_perm group addedBefore).symm.pairwise hdistinct
    fun hne => Ne.symm hne
  unfold settleDuplicates losers
  cases hsort : group.mergeSort addedBefore with
  | nil => simp
  | cons winner rest =>
    rw [hsort] at hsorted
    obtain ⟨hin, hout⟩ := getElem?_foldl_distinct
      (g := fun out x => out.insert x.1 (cancelDuplicate winner.2 x.2))
      (f := fun _ r _ => some (cancelDuplicate winner.2 r))
      (fun m x => getElem?_insert_self _ _ _)
      (fun m x a hne => getElem?_insert_of_ne _ _ hne)
      (pairwise_cons.1 hsorted).2 out id
    exact ⟨fun r hr => ⟨winner.2, hin r hr⟩, hout⟩

theorem getElem?_settle_groups {groups : List (ByteString × List (ByteString × TorrentRequest))}
    (hdistinct : ∀ g ∈ groups, g.2.Pairwise fun x y => x.1 ≠ y.1)
    (hsame : ∀ g ∈ groups, ∀ r', (id, r') ∈ losers g.2 → r' = r) (out : TorrentRequests) :
    ((∃ g ∈ groups, (id, r) ∈ losers g.2) → ∃ winner,
        (groups.foldl (fun out (_, group) => settleDuplicates out group) out)[id]? =
          some (cancelDuplicate winner r)) ∧
      ((∀ g ∈ groups, (id, r) ∉ losers g.2) →
        (groups.foldl (fun out (_, group) => settleDuplicates out group) out)[id]? = out[id]?) := by
  induction groups generalizing out with
  | nil => exact ⟨fun ⟨_, h, _⟩ => (nomatch h), fun _ => rfl⟩
  | cons g groups ih =>
    obtain ⟨hhead, htail⟩ := forall_mem_cons.1 hdistinct
    obtain ⟨hsamehead, hsametail⟩ := forall_mem_cons.1 hsame
    obtain ⟨hin, hout⟩ := ih htail hsametail (settleDuplicates out g.2)
    obtain ⟨hcancel, hkeep⟩ := getElem?_settleDuplicates hhead out id
    rw [foldl_cons]
    refine ⟨?_, fun hnot => ?_⟩
    · rintro ⟨g', hg', hmem⟩
      by_cases hlater : ∃ g ∈ groups, (id, r) ∈ losers g.2
      · exact hin hlater
      · push Not at hlater
        rcases mem_cons.1 hg' with rfl | hg'
        · rw [hout hlater]
          exact hcancel r hmem
        · exact absurd hmem (hlater g' hg')
    · obtain ⟨hfirst, hrest⟩ := forall_mem_cons.1 hnot
      rw [hout hrest]
      refine hkeep fun r' hr' => hfirst ?_
      rw [← hsamehead r' hr']
      exact hr'

theorem mem_liveByHash {g : ByteString × List (ByteString × TorrentRequest)}
    (h : g ∈ (liveByHash requests).toList) : g.2 = requests.toList.filter (inGroup g.1) := by
  rw [← getD_liveByHash, getD_eq, (OrdMap.mem_toList _ _ _).1 h]
  rfl

theorem mem_group {id hash : ByteString} : (id, r) ∈ requests.toList.filter (inGroup hash) ↔
      requests[id]? = some r ∧ live r = true ∧ r.infoHash ≠ [] ∧ r.infoHash = hash := by
  rw [mem_filter, OrdMap.mem_toList]
  unfold inGroup
  simp [and_assoc]

section

variable (hkeyed : requests.Keyed)

include hkeyed

theorem mem_losers_group {id hash : ByteString} :
    (id, r) ∈ losers (requests.toList.filter (inGroup hash)) ↔
      requests[id]? = some r ∧ live r = true ∧ r.infoHash = hash ∧ requests.Beaten r := by
  rw [mem_losers ((OrdMap.toList_nodup requests).filter _) ?_]
  · constructor
    · rintro ⟨hmem, ⟨other, y⟩, hy, hearlier⟩
      obtain ⟨hget, hlive, hne, hhash⟩ := mem_group.1 hmem
      obtain ⟨hget', hlive', _, hhash'⟩ := mem_group.1 hy
      exact ⟨hget, hlive, hhash, hne, other, y, hget', hlive', hhash'.trans hhash.symm, hearlier⟩
    · rintro ⟨hget, hlive, hhash, hne, other, y, hget', hlive', hsame, hearlier⟩
      exact ⟨mem_group.2 ⟨hget, hlive, hne, hhash⟩, (other, y),
        mem_group.2 ⟨hget', hlive', hsame ▸ hne, hsame.trans hhash⟩, hearlier⟩
  · rintro ⟨id, x⟩ hx ⟨id', y⟩ hy hsame
    have hgetx := (mem_group.1 hx).1
    have hgety := (mem_group.1 hy).1
    have hid : x.id = y.id := congrArg Prod.snd (toLex_inj.1 hsame)
    rw [hkeyed _ _ hgetx, hkeyed _ _ hgety] at hid
    subst hid
    rw [hgetx] at hgety
    cases hgety
    rfl

/-- The second half of a merge. -/
def settled (requests : TorrentRequests) : TorrentRequests :=
  (liveByHash requests).toList.foldl (fun out (_, group) => settleDuplicates out group) requests

/-- Settling a collection: a live request that is beaten is cancelled, every other stays
as it is. -/
theorem getElem?_settled (id : ByteString) : (requests[id]? = none → requests.settled[id]? = none) ∧
      ∀ r, requests[id]? = some r → (live r = true → requests.Beaten r →
          ∃ winner, requests.settled[id]? = some (cancelDuplicate winner r)) ∧
        (¬(live r = true ∧ requests.Beaten r) → requests.settled[id]? = some r) := by
  have hdistinct : ∀ g ∈ (liveByHash requests).toList, g.2.Pairwise fun x y => x.1 ≠ y.1 := by
    intro g hg
    rw [mem_liveByHash hg]
    exact (toList_pairwise_ne requests).filter _
  have hlosers : ∀ g ∈ (liveByHash requests).toList, ∀ r, (id, r) ∈ losers g.2 →
      requests[id]? = some r ∧ live r = true ∧ requests.Beaten r := by
    intro g hg r hr
    rw [mem_liveByHash hg, mem_losers_group hkeyed] at hr
    exact ⟨hr.1, hr.2.1, hr.2.2.2⟩
  unfold settled
  constructor
  · intro hnone
    have hempty : ∀ g ∈ (liveByHash requests).toList, ∀ r, (id, r) ∉ losers g.2 := by
      intro g hg r hr
      have hget := (hlosers g hg r hr).1
      rw [hnone] at hget
      cases hget
    rw [(getElem?_settle_groups hdistinct (r := {})
      (fun g hg r' hr' => absurd hr' (hempty g hg r')) requests).2 fun g hg => hempty g hg _]
    exact hnone
  · intro r hget
    have hsame : ∀ g ∈ (liveByHash requests).toList, ∀ r', (id, r') ∈ losers g.2 → r' = r := by
      intro g hg r' hr'
      have hget' := (hlosers g hg r' hr').1
      rw [hget] at hget'
      exact (Option.some_inj.1 hget').symm
    obtain ⟨hcancel, hkeep⟩ := getElem?_settle_groups hdistinct hsame requests
    refine ⟨fun hlive hbeaten => hcancel ?_, fun hnot => ?_⟩
    · have hmem := (mem_losers_group hkeyed).2 ⟨hget, hlive, rfl, hbeaten⟩
      rw [← getD_liveByHash, getD_eq] at hmem
      cases hlookup : (liveByHash requests)[r.infoHash]? with
      | none =>
        rw [hlookup] at hmem
        simp [losers] at hmem
      | some group =>
        rw [hlookup] at hmem
        exact ⟨(r.infoHash, group), (OrdMap.mem_toList _ _ _).2 hlookup, hmem⟩
    · rw [hkeep fun g hg hmem => hnot (hlosers g hg r hmem).2]
      exact hget

omit hkeyed in
theorem live_cancelDuplicate (winner loser : TorrentRequest) :
    live (cancelDuplicate winner loser) = false := by
  simp [live, cancelDuplicate]

theorem settled_cases (hget : requests.settled[id]? = some r) : ∃ old, requests[id]? = some old ∧
      ((∃ winner, r = cancelDuplicate winner old) ∨
        r = old ∧ ¬(live old = true ∧ requests.Beaten old)) := by
  obtain ⟨hnone, hsome⟩ := getElem?_settled hkeyed id
  cases hold : requests[id]? with
  | none =>
    rw [hnone hold] at hget
    cases hget
  | some old =>
    obtain ⟨hcancel, hkeep⟩ := hsome old hold
    refine ⟨old, rfl, ?_⟩
    by_cases hbeaten : live old = true ∧ requests.Beaten old
    · obtain ⟨winner, hwinner⟩ := hcancel hbeaten.1 hbeaten.2
      rw [hwinner] at hget
      exact .inl ⟨winner, (Option.some.inj hget).symm⟩
    · rw [hkeep hbeaten] at hget
      exact .inr ⟨(Option.some.inj hget).symm, hbeaten⟩

theorem getElem?_settled_live : requests.settled[id]? = some r ∧ live r = true ↔
      requests[id]? = some r ∧ live r = true ∧ ¬requests.Beaten r := by
  constructor
  · rintro ⟨hget, hlive⟩
    obtain ⟨old, hold, ⟨winner, rfl⟩ | ⟨rfl, hbest⟩⟩ := settled_cases hkeyed hget
    · rw [live_cancelDuplicate] at hlive
      cases hlive
    · exact ⟨hold, hlive, fun h => hbest ⟨hlive, h⟩⟩
  · rintro ⟨hget, hlive, hbest⟩
    exact ⟨((getElem?_settled hkeyed id).2 r hget).2 fun h => hbest h.2, hlive⟩

theorem liveAt_settled : requests.settled.LiveAt id ↔ requests.Wins id := by
  unfold LiveAt Wins
  simp only [getElem?_settled_live hkeyed]

/-- No two live requests have one info hash. -/
def OneLiveEach (requests : TorrentRequests) : Prop :=
  ∀ (id id' : ByteString) (r r' : TorrentRequest), requests[id]? = some r → live r = true →
    requests[id']? = some r' → live r' = true → r.infoHash ≠ [] → r.infoHash = r'.infoHash →
      id = id'

theorem oneLiveEach_settled : OneLiveEach requests.settled := by
  intro id id' r r' hget hlive hget' hlive' hhash hsame
  obtain ⟨hr, _, hbest⟩ := (getElem?_settled_live hkeyed).1 ⟨hget, hlive⟩
  obtain ⟨hr', _, hbest'⟩ := (getElem?_settled_live hkeyed).1 ⟨hget', hlive'⟩
  have hle : ¬addedKey r' < addedKey r := fun h =>
    hbest ⟨hhash, id', r', hr', hlive', hsame.symm, h⟩
  have hge : ¬addedKey r < addedKey r' := fun h =>
    hbest' ⟨hsame ▸ hhash, id, r, hr, hlive, hsame, h⟩
  have heq : r.id = r'.id :=
    congrArg Prod.snd (toLex_inj.1 (le_antisymm (not_lt.1 hle) (not_lt.1 hge)))
  rw [← hkeyed id r hr, ← hkeyed id' r' hr', heq]

theorem Keyed.settled : Keyed requests.settled := by
  intro id r hget
  obtain ⟨old, hold, ⟨winner, rfl⟩ | ⟨rfl, -⟩⟩ := settled_cases hkeyed hget
  · exact hkeyed id old hold
  · exact hkeyed id r hold

end

/-! ## A second merge -/

theorem live_merge_of_cancelled {a : TorrentRequest} (h : a.desired = .cancelled)
    (b : TorrentRequest) : live (mergeTorrentRequest a b) = false := by
  have hstamp := TorrentRequest.desiredStamp_merge a b
  have hle : a.desiredStamp ≤ (mergeTorrentRequest a b).desiredStamp := hstamp ▸ le_max_left _ _
  have hcancelled := fst_le_of_toLex_le hle
  rw [h] at hcancelled
  have hdesired : (mergeTorrentRequest a b).desired = .cancelled :=
    eq_of_beq (top_le_iff.1 hcancelled)
  unfold live
  rw [hdesired]
  simp

section

variable {one other third : TorrentRequests} {id : ByteString}

/-- A request that lost its torrent in the first merge is cancelled in the second. -/
theorem not_live_of_loses (hone : one.Keyed) (h : one.Loses id)
    (hget : (joinTorrentRequests ∅ one.settled third)[id]? = some r) :
    live r = false := by
  obtain ⟨r', hold, hlive, hbeaten⟩ := h
  obtain ⟨winner, hwinner⟩ := ((getElem?_settled hone id).2 r' hold).1 hlive hbeaten
  rw [getElem?_join, hwinner] at hget
  cases hthird : third[id]? with
  | none =>
    rw [hthird] at hget
    cases hget
    exact live_cancelDuplicate winner r'
  | some z =>
    rw [hthird] at hget
    cases hget
    exact live_merge_of_cancelled rfl z

theorem getElem?_join_settled (hone : one.Keyed) (h : ¬one.Loses id) :
    (joinTorrentRequests ∅ one.settled third)[id]? = (joinTorrentRequests ∅ one third)[id]? := by
  obtain ⟨hnone, hsome⟩ := getElem?_settled hone id
  rw [getElem?_join, getElem?_join]
  cases hold : one[id]? with
  | none => rw [hnone hold]
  | some r => rw [(hsome r hold).2 fun hboth => h ⟨r, hold, hboth⟩]

theorem join_settled_live (hone : one.Keyed) :
    (joinTorrentRequests ∅ one.settled third)[id]? = some r ∧ live r = true ↔
      (joinTorrentRequests ∅ one third)[id]? = some r ∧ live r = true ∧ ¬one.Loses id := by
  constructor
  · rintro ⟨hget, hlive⟩
    have hkept : ¬one.Loses id := by
      intro hloses
      rw [not_live_of_loses hone hloses hget] at hlive
      cases hlive
    rw [getElem?_join_settled hone hkept] at hget
    exact ⟨hget, hlive, hkept⟩
  · rintro ⟨hget, hlive, hkept⟩
    rw [← getElem?_join_settled hone hkept] at hget
    exact ⟨hget, hlive⟩

theorem exists_wins (hget : requests[id]? = some r) (hlive : live r = true)
    (hhash : r.infoHash ≠ []) :
    ∃ (best : ByteString) (x : TorrentRequest), requests[best]? = some x ∧ live x = true ∧
      x.infoHash = r.infoHash ∧ addedKey x ≤ addedKey r ∧ ¬requests.Beaten x := by
  have hmem := mem_group.2 ⟨hget, hlive, hhash, rfl⟩
  obtain ⟨⟨best, x⟩, hbest, hleast⟩ := Finset.exists_min_image
    (requests.toList.filter (inGroup r.infoHash)).toFinset (fun x => addedKey x.2)
    ⟨(id, r), List.mem_toFinset.2 hmem⟩
  obtain ⟨hx, hxlive, _, hxhash⟩ := mem_group.1 (List.mem_toFinset.1 hbest)
  refine ⟨best, x, hx, hxlive, hxhash, hleast (id, r) (List.mem_toFinset.2 hmem), ?_⟩
  rintro ⟨_, rival, y, hy, hylive, hyhash, hearlier⟩
  have hyhash' := hyhash.trans hxhash
  exact absurd (hleast (rival, y) (List.mem_toFinset.2
    (mem_group.2 ⟨hy, hylive, hyhash' ▸ hhash, hyhash'⟩))) (not_le.2 hearlier)

/-- Two merges in a row leave the winners of all three collections live exactly if the first
of the two cancels none of them. -/
theorem converges_iff (hone : one.Keyed) (hthird : third.Keyed) :
    (∀ id, (mergeTorrentRequests ∅ one.settled third).LiveAt id ↔
        (joinTorrentRequests ∅ one third).Wins id) ↔
      ∀ id, (joinTorrentRequests ∅ one third).Wins id → ¬one.Loses id := by
  have hlive : ∀ id, (mergeTorrentRequests ∅ one.settled third).LiveAt id ↔
      (joinTorrentRequests ∅ one.settled third).Wins id := fun id =>
    liveAt_settled (hone.settled.join hthird)
  simp only [hlive]
  constructor
  · intro h id hwins
    obtain ⟨r, hget, hr, _⟩ := (h id).2 hwins
    exact ((join_settled_live hone).1 ⟨hget, hr⟩).2.2
  · intro h id
    constructor
    · rintro ⟨r, hget, hr, hbest⟩
      obtain ⟨hget, _, _⟩ := (join_settled_live hone).1 ⟨hget, hr⟩
      refine ⟨r, hget, hr, ?_⟩
      -- the earliest of all is still there to beat the request
      rintro ⟨hhash, rival, y, hy, hylive, hyhash, hearlier⟩
      obtain ⟨best, x, hx, hxlive, hxhash, hle, hxbest⟩ := exists_wins hy hylive (hyhash ▸ hhash)
      have hkept := h best ⟨x, hx, hxlive, hxbest⟩
      refine hbest ⟨hhash, best, x, ((join_settled_live hone).2 ⟨hx, hxlive, hkept⟩).1, hxlive,
        hxhash.trans hyhash, hle.trans_lt hearlier⟩
    · rintro ⟨r, hget, hr, hbest⟩
      have hkept := h id ⟨r, hget, hr, hbest⟩
      refine ⟨r, ((join_settled_live hone).2 ⟨hget, hr, hkept⟩).1, hr, ?_⟩
      rintro ⟨hhash, rival, y, hy, hylive, hyhash, hearlier⟩
      exact hbest ⟨hhash, rival, y, ((join_settled_live hone).1 ⟨hy, hylive⟩).1, hylive, hyhash,
        hearlier⟩

end

/-! ## Three collections -/

variable {a x y z b c : TorrentRequests}

theorem standingAt_join_perm (h : [x, y, z].Perm [a, b, c]) (id : ByteString) :
    (joinTorrentRequests ∅ (joinTorrentRequests ∅ x y) z).standingAt id =
      (joinTorrentRequests ∅ (joinTorrentRequests ∅ a b) c).standingAt id := by
  have hsup := @List.Perm.foldr_op_eq _ (· ⊔ ·) ⟨sup_assoc⟩ ⟨sup_comm⟩ _ _ ⊥
    (h.map (standingAt · id))
  simp only [map_cons, map_nil, foldr_cons, foldr_nil, sup_bot_eq] at hsup
  simp only [standingAt_join, sup_assoc, hsup]

theorem wins_join_perm (h : [x, y, z].Perm [a, b, c]) (id : ByteString) :
    (joinTorrentRequests ∅ (joinTorrentRequests ∅ x y) z).Wins id ↔
      (joinTorrentRequests ∅ (joinTorrentRequests ∅ a b) c).Wins id :=
  ⟨wins_of_standingAt_eq (standingAt_join_perm h),
    wins_of_standingAt_eq fun id => (standingAt_join_perm h id).symm⟩

/-- Three collections merged in any order and association leave one and the same set of
requests live, for each torrent the earliest of those live after joining all three, and no
other, exactly if no two of the collections have among them a live request that was added
before one of these. -/
theorem torrent_merges_converge_iff {a b c : TorrentRequests} (ha : a.Keyed) (hb : b.Keyed)
    (hc : c.Keyed) :
    (∀ x y z : TorrentRequests, [x, y, z].Perm [a, b, c] →
      ∀ merged ∈ [mergeTorrentRequests ∅ (mergeTorrentRequests ∅ x y) z,
          mergeTorrentRequests ∅ x (mergeTorrentRequests ∅ y z)],
        (∀ id, merged.LiveAt id ↔
          (joinTorrentRequests ∅ (joinTorrentRequests ∅ a b) c).Wins id) ∧ merged.OneLiveEach) ↔
      ∀ x y z : TorrentRequests, [x, y, z].Perm [a, b, c] → ∀ id,
        (joinTorrentRequests ∅ (joinTorrentRequests ∅ a b) c).Wins id →
          ¬(joinTorrentRequests ∅ x y).Loses id := by
  have hkeyed : ∀ {x y z : TorrentRequests}, [x, y, z].Perm [a, b, c] →
      x.Keyed ∧ y.Keyed ∧ z.Keyed := by
    intro x y z hperm
    have hall : ∀ m ∈ [x, y, z], Keyed m := by
      intro m hm
      have hmem := hperm.subset hm
      simp only [mem_cons, not_mem_nil, or_false] at hmem
      rcases hmem with rfl | rfl | rfl
      · exact ha
      · exact hb
      · exact hc
    exact ⟨hall x (by simp), hall y (by simp), hall z (by simp)⟩
  -- one order and association, and what the first of its merges must not cancel
  have hone : ∀ {x y z : TorrentRequests}, [x, y, z].Perm [a, b, c] →
      ((∀ id, (mergeTorrentRequests ∅ (mergeTorrentRequests ∅ x y) z).LiveAt id ↔
          (joinTorrentRequests ∅ (joinTorrentRequests ∅ a b) c).Wins id) ↔
        ∀ id, (joinTorrentRequests ∅ (joinTorrentRequests ∅ a b) c).Wins id →
          ¬(joinTorrentRequests ∅ x y).Loses id) := by
    intro x y z hperm
    obtain ⟨hx, hy, hz⟩ := hkeyed hperm
    simp only [← wins_join_perm hperm]
    exact converges_iff (hx.join hy) hz
  constructor
  · intro h x y z hperm
    exact (hone hperm).1 (h x y z hperm _ mem_cons_self).1
  · intro h x y z hperm merged hmerged
    obtain ⟨hx, hy, hz⟩ := hkeyed hperm
    simp only [mem_cons, not_mem_nil, or_false] at hmerged
    rcases hmerged with rfl | rfl
    · exact ⟨(hone hperm).2 (h x y z hperm), oneLiveEach_settled ((hx.join hy).settled.join hz)⟩
    · have hmoved : ([y, z] ++ [x]).Perm ([x] ++ [y, z]) := perm_append_comm
      have hrotated : [y, z, x].Perm [a, b, c] := hmoved.trans hperm
      rw [merge_comm x]
      exact ⟨(hone hrotated).2 (h y z x hrotated),
        oneLiveEach_settled ((hy.join hz).settled.join hx)⟩

end TorrentRequests

namespace OneTorrentTwice

def request (id : ByteString) (created : Nat) (desired : TorrentDesired) : TorrentRequest :=
  { id := id, infoHash := [9], createdUnixMs := created, desired := desired
    desiredChangedUnixMs := created }

def collection (r : TorrentRequest) : TorrentRequests := (∅ : TorrentRequests).insert r.id r

/-- One torrent added on two nodes; the first add is cancelled on a third branch. -/
def first : TorrentRequests := collection (request [1] 1 .active)
def second : TorrentRequests := collection (request [2] 2 .active)
def cancelled : TorrentRequests := collection (request [1] 1 .cancelled)

theorem keyed_collection (r : TorrentRequest) : (collection r).Keyed := by
  intro id r' h
  rcases getElem?_insert_eq_some h with ⟨hid, hr⟩ | ⟨_, hget⟩
  · rw [← hr, hid]
  · simp at hget

theorem forall_wins {requests : TorrentRequests} {P : ByteString → Prop}
    (h : ∀ id ∈ requests.keys, requests.Wins id → P id) : ∀ id, requests.Wins id → P id := by
  intro id hwins
  have hget := hwins
  obtain ⟨r, hget, _⟩ := hget
  exact h id ((OrdMap.mem_keys _ _).2 (by rw [hget]; rfl)) hwins

/-- The second add cancelled: the first keeps the torrent in every order. -/
def withdrawn : TorrentRequests := collection (request [2] 2 .cancelled)

theorem merges_converge : (mergeTorrentRequests ∅ second
    (mergeTorrentRequests ∅ first withdrawn)).LiveAt [1] ∧
      ¬(mergeTorrentRequests ∅ second (mergeTorrentRequests ∅ first withdrawn)).LiveAt [2] := by
  have hfirst : first.Keyed := keyed_collection _
  have hsecond : second.Keyed := keyed_collection _
  have hwithdrawn : withdrawn.Keyed := keyed_collection _
  have hkept : ∀ x y z : TorrentRequests, [x, y, z].Perm [first, second, withdrawn] → ∀ id,
      (joinTorrentRequests ∅ (joinTorrentRequests ∅ first second) withdrawn).Wins id →
        ¬(joinTorrentRequests ∅ x y).Loses id := by
    intro x y z hperm
    have hx : x ∈ [first, second, withdrawn] := hperm.subset (by simp)
    have hy : y ∈ [first, second, withdrawn] := hperm.subset (by simp)
    simp only [mem_cons, not_mem_nil, or_false] at hx hy
    refine forall_wins ?_
    rcases hx with rfl | rfl | rfl <;> rcases hy with rfl | rfl | rfl <;> decide +kernel
  obtain ⟨hlive, _⟩ := (TorrentRequests.torrent_merges_converge_iff hfirst hsecond hwithdrawn).2
    hkept second first withdrawn (.swap _ _ _) _ (mem_cons_of_mem _ mem_cons_self)
  exact ⟨(hlive [1]).2 (by decide +kernel), fun h => absurd ((hlive [2]).1 h) (by decide +kernel)⟩

/-- Merged with the cancellation first, the second add is live; merged with the first add,
it was cancelled for it, and nothing is. -/
theorem merges_differ : first.Keyed ∧ second.Keyed ∧ cancelled.Keyed ∧
    (mergeTorrentRequests ∅ (mergeTorrentRequests ∅ first cancelled) second).LiveAt [2] ∧
    ¬(mergeTorrentRequests ∅ (mergeTorrentRequests ∅ first second) cancelled).LiveAt [2] := by
  have hfirst : first.Keyed := keyed_collection _
  have hsecond : second.Keyed := keyed_collection _
  have hcancelled : cancelled.Keyed := keyed_collection _
  refine ⟨hfirst, hsecond, hcancelled, ?_, ?_⟩
  · refine ((TorrentRequests.converges_iff (hfirst.join hcancelled) hsecond).2 ?_ [2]).2
      (by decide +kernel)
    exact forall_wins (by decide +kernel)
  · rintro ⟨r, hget, hlive⟩
    have hboth := (TorrentRequests.getElem?_settled_live
      ((hfirst.join hsecond).settled.join hcancelled)).1 ⟨hget, hlive⟩
    rw [TorrentRequests.not_live_of_loses (hfirst.join hsecond) (by decide +kernel) hboth.1] at hlive
    cases hlive

end OneTorrentTwice

end Macha
