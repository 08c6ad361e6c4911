import Macha.Library.Picking
import Macha.Torrent.Request

/-!
# The join of two versions of a request

Each group of fields is taken from the version with the later stamp. Equal stamps
fall back to the order of the whole requests, that is to the groups compared
before; a merge mixes groups, so that what decided a tie may be gone in the next one.
-/

namespace Macha

/-! ## Groups of fields -/

namespace TorrentRequest

def immutableKey (r : TorrentRequest) : ByteString ×ₗ ByteString ×ₗ ByteString ×ₗ Nat ×ₗ NodeId :=
  toLex (r.id, toLex (r.infoHash, toLex (r.source, toLex (r.createdUnixMs, r.createdBy))))

def settingsKey (r : TorrentRequest) : WithBot NodeId ×ₗ WithBot Nat ×ₗ Nat ×ₗ NodeId :=
  toLex (optionKey r.pinnedNodeId, toLex (optionKey r.removeAfterMs,
    toLex (r.settingsChangedUnixMs, r.settingsChangedBy)))

def desiredKey (r : TorrentRequest) : Nat ×ₗ Nat ×ₗ NodeId :=
  toLex (r.desired.value, toLex (r.desiredChangedUnixMs, r.desiredChangedBy))

def ownerKey (r : TorrentRequest) :
    Nat ×ₗ Nat ×ₗ Nat ×ₗ ByteString ×ₗ Nat ×ₗ ByteString ×ₗ ByteString ×ₗ ByteString ×ₗ Nat :=
  toLex (r.phase.value, toLex (r.phaseEpoch, toLex (r.progressUnixMs, toLex (r.name,
    toLex (r.bytesTotal, toLex (r.ingestJobId, toLex (r.errorCode, toLex (r.error,
      r.completedUnixMs))))))))

/-- What the merge compares first, group by group. -/
def settingsStamp (r : TorrentRequest) : Nat ×ₗ NodeId :=
  toLex (r.settingsChangedUnixMs, r.settingsChangedBy)

def desiredStamp (r : TorrentRequest) : Bool ×ₗ Nat ×ₗ NodeId :=
  toLex (r.desired == .cancelled, toLex (r.desiredChangedUnixMs, r.desiredChangedBy))

def ownerStamp (r : TorrentRequest) : Nat ×ₗ Nat ×ₗ Nat :=
  toLex (r.phaseEpoch, toLex (r.phase.value, r.progressUnixMs))

theorem eq_of_groups {a b : TorrentRequest} (himmutable : a.immutableKey = b.immutableKey)
    (hsettings : a.settingsKey = b.settingsKey) (hdesired : a.desiredKey = b.desiredKey)
    (hclaim : a.claim = b.claim) (howner : a.ownerKey = b.ownerKey)
    (hremoved : a.removedUnixMs = b.removedUnixMs) : a = b := by
  have hvalue : ∀ x y : TorrentDesired, x.value = y.value → x = y := by
    intro x y h
    cases x <;> cases y <;> first | rfl | cases h
  have hphase : ∀ x y : TorrentPhase, x.value = y.value → x = y := by
    intro x y h
    cases x <;> cases y <;> first | rfl | cases h
  cases a
  cases b
  simp only [immutableKey, settingsKey, desiredKey, ownerKey, toLex_inj,
    Prod.mk.injEq] at himmutable hsettings hdesired howner hclaim hremoved
  simp only [mk.injEq]
  exact ⟨himmutable.1, himmutable.2.1, himmutable.2.2.1, himmutable.2.2.2.1, himmutable.2.2.2.2,
    hsettings.1, hsettings.2.1, hsettings.2.2.1, hsettings.2.2.2, hvalue _ _ hdesired.1,
    hdesired.2.1, hdesired.2.2, hclaim, hphase _ _ howner.1, howner.2.1, howner.2.2.1,
    howner.2.2.2.1, howner.2.2.2.2.1, howner.2.2.2.2.2.1, howner.2.2.2.2.2.2.1,
    howner.2.2.2.2.2.2.2.1, howner.2.2.2.2.2.2.2.2, hremoved⟩

theorem key_injective : Function.Injective TorrentClaim.key := by
  rintro ⟨n, e, c⟩ ⟨n', e', c'⟩ h
  simp only [TorrentClaim.key, toLex_inj, Prod.mk.injEq] at h
  simp only [TorrentClaim.mk.injEq]
  exact h

/-! ## The order of requests -/

theorem le_total {a b : TorrentRequest} (h : a.le b = false) : b.le a = true := by
  unfold le at *
  rw [decide_eq_false_iff_not, not_le] at h
  exact decide_eq_true h.le

/-- What is compared before the intent. -/
def beforeIntent (r : TorrentRequest) := toLex (r.immutableKey, r.settingsKey)

/-- The claim as the whole order compares it. -/
def claimOrder (r : TorrentRequest) : WithBot (NodeId ×ₗ Nat ×ₗ Nat) :=
  optionKey (r.claim.map TorrentClaim.key)

section

variable {a b : TorrentRequest}

theorem requestKey_eq (h : a.beforeIntent = b.beforeIntent) : a.requestKey = b.requestKey := by
  simp only [beforeIntent, immutableKey, settingsKey, toLex_inj, Prod.mk.injEq] at h
  unfold requestKey
  simp only [h]

variable (h : a.le b = true)

include h

theorem immutableKey_le : a.immutableKey ≤ b.immutableKey := by
  have hkey := fst_le_of_toLex_le (of_decide_eq_true h)
  exact toLex_le_of_toLex_le hkey fun h => toLex_le_of_toLex_le h fun h =>
    toLex_le_of_toLex_le h fun h => toLex_le_of_toLex_le h fst_le_of_toLex_le

theorem settingsKey_le (himmutable : a.immutableKey = b.immutableKey) :
    a.settingsKey ≤ b.settingsKey := by
  have hkey := fst_le_of_toLex_le (of_decide_eq_true h)
  simp only [immutableKey, toLex_inj, Prod.mk.injEq] at himmutable
  obtain ⟨hid, hhash, hsource, hcreated, hby⟩ := himmutable
  have hcreatedBy := snd_le_of_toLex_le (snd_le_of_toLex_le (snd_le_of_toLex_le hkey hid) hhash)
    hsource
  exact snd_le_of_toLex_le (snd_le_of_toLex_le hcreatedBy hcreated) hby

theorem beforeIntent_le : a.beforeIntent ≤ b.beforeIntent :=
  toLex_le_of_le (immutableKey_le h) (settingsKey_le h)

theorem intent_le :
    toLex (a.beforeIntent, a.desiredKey) ≤ toLex (b.beforeIntent, b.desiredKey) := by
  refine toLex_le_of_le (beforeIntent_le h) fun heq => ?_
  have hkey := fst_le_of_toLex_le (snd_le_of_toLex_le (of_decide_eq_true h) (requestKey_eq heq))
  exact toLex_le_of_toLex_le hkey fun h => toLex_le_of_toLex_le h fst_le_of_toLex_le

variable (hbefore : a.beforeIntent = b.beforeIntent) (hdesired : a.desiredKey = b.desiredKey)

include hbefore hdesired

theorem claimOrder_le : a.claimOrder ≤ b.claimOrder := by
  have hkey := fst_le_of_toLex_le
    (snd_le_of_toLex_le (of_decide_eq_true h) (requestKey_eq hbefore))
  simp only [desiredKey, toLex_inj, Prod.mk.injEq] at hdesired
  obtain ⟨hvalue, hchanged, hby⟩ := hdesired
  exact snd_le_of_toLex_le (snd_le_of_toLex_le (snd_le_of_toLex_le hkey hvalue) hchanged) hby

theorem ownerKey_le (hclaim : a.claim = b.claim) : a.ownerKey ≤ b.ownerKey := by
  have hintent : a.intentKey = b.intentKey := by
    simp only [desiredKey, toLex_inj, Prod.mk.injEq] at hdesired
    unfold intentKey
    simp only [hdesired, hclaim]
  have hkey := snd_le_of_toLex_le
    (snd_le_of_toLex_le (of_decide_eq_true h) (requestKey_eq hbefore)) hintent
  exact toLex_le_of_toLex_le hkey fun h => toLex_le_of_toLex_le h fun h =>
    toLex_le_of_toLex_le h fun h => toLex_le_of_toLex_le h fun h =>
      toLex_le_of_toLex_le h fun h => toLex_le_of_toLex_le h fun h =>
        toLex_le_of_toLex_le h fun h => toLex_le_of_toLex_le h fst_le_of_toLex_le

end

theorem eq_of_le_of_le {a b : TorrentRequest} (h : a.le b = true) (h' : b.le a = true) : a = b := by
  have hwhole := le_antisymm (of_decide_eq_true h) (of_decide_eq_true h')
  simp only [toLex_inj, Prod.mk.injEq] at hwhole
  obtain ⟨hrequest, hintent, hphase⟩ := hwhole
  simp only [requestKey, toLex_inj, Prod.mk.injEq] at hrequest
  simp only [intentKey, toLex_inj, Prod.mk.injEq] at hintent
  simp only [phaseKey, toLex_inj, Prod.mk.injEq] at hphase
  refine eq_of_groups ?_ ?_ ?_ ?_ ?_ ?_
  · simp only [immutableKey, hrequest]
  · simp only [settingsKey, hrequest]
  · simp only [desiredKey, hintent]
  · exact Option.map_injective key_injective hintent.2.2.2
  · simp only [ownerKey, hphase]
  · exact hphase.2.2.2.2.2.2.2.2.2

/-! ## The later of two -/

section

variable {κ γ : Type} [LinearOrder κ] [LinearOrder γ] (key : TorrentRequest → κ)
  (a b : TorrentRequest)

theorem later_eq_or : later a (key a) b (key b) = a ∨ later a (key a) b (key b) = b := by
  unfold later
  split
  · split
    · exact .inl rfl
    · exact .inr rfl
  · split
    · exact .inl rfl
    · exact .inr rfl

theorem key_later : key (later a (key a) b (key b)) = max (key a) (key b) := by
  unfold later
  split
  · split
    · next hlt => exact (max_eq_left hlt.le).symm
    · next hle => exact (max_eq_right (not_lt.1 hle)).symm
  · next heq =>
    rw [not_not] at heq
    split
    · rw [heq, max_self]
    · rw [heq, max_self]

theorem later_comm : later a (key a) b (key b) = later b (key b) a (key a) := by
  unfold later
  by_cases heq : key a = key b
  · rw [if_neg (not_not.2 heq), if_neg (not_not.2 heq.symm)]
    cases hba : b.le a with
    | false => rw [if_neg (by simp), if_pos (le_total hba)]
    | true =>
      cases hab : a.le b with
      | false => simp
      | true => simp [eq_of_le_of_le hab hba]
  · rw [if_pos heq, if_pos (Ne.symm heq)]
    rcases lt_or_gt_of_ne heq with h | h
    · rw [if_neg h.not_gt, if_pos h]
    · rw [if_pos h, if_neg h.not_gt]

theorem later_self : later a (key a) a (key a) = a :=
  or_self_iff.1 (later_eq_or key a a)

/-- Where the whole order does not go against the values, the later is the greater by
key and value. -/
theorem rank_later (value : TorrentRequest → γ) (hab : a.le b = true → value a ≤ value b)
    (hba : b.le a = true → value b ≤ value a) :
    toLex (key (later a (key a) b (key b)), value (later a (key a) b (key b))) =
      max (toLex (key a, value a)) (toLex (key b, value b)) := by
  unfold later
  split
  · split
    · next hlt => exact (max_eq_left (Prod.Lex.toLex_le_toLex.2 (.inl hlt))).symm
    · next hne hle =>
      exact (max_eq_right (Prod.Lex.toLex_le_toLex.2
        (.inl (lt_of_le_of_ne (not_lt.1 hle) hne)))).symm
  · next heq =>
    rw [not_not] at heq
    split
    · next hle =>
      exact (max_eq_left (Prod.Lex.toLex_le_toLex.2 (.inr ⟨heq.symm, hba hle⟩))).symm
    · next hle =>
      exact (max_eq_right (Prod.Lex.toLex_le_toLex.2
        (.inr ⟨heq, hab (le_total (Bool.eq_false_iff.2 hle))⟩))).symm

end

/-! ## The merge, group by group -/

section

variable (a b : TorrentRequest)

theorem settingsKey_merge : (mergeTorrentRequest a b).settingsKey =
    (later a a.settingsStamp b b.settingsStamp).settingsKey := rfl

theorem desiredKey_merge : (mergeTorrentRequest a b).desiredKey =
    (later a a.desiredStamp b b.desiredStamp).desiredKey := rfl

theorem desiredStamp_merge :
    (mergeTorrentRequest a b).desiredStamp = max a.desiredStamp b.desiredStamp :=
  key_later desiredStamp a b

theorem ownerKey_merge : (mergeTorrentRequest a b).ownerKey =
    (later a a.ownerStamp b b.ownerStamp).ownerKey := rfl

theorem ownerStamp_merge : (mergeTorrentRequest a b).ownerStamp = max a.ownerStamp b.ownerStamp :=
  key_later ownerStamp a b

theorem immutableKey_merge :
    (mergeTorrentRequest a b).immutableKey = max a.immutableKey b.immutableKey := by
  have hout : (mergeTorrentRequest a b).immutableKey = (if b.le a then a else b).immutableKey := rfl
  rw [hout]
  split
  · next hle => exact (max_eq_left (immutableKey_le hle)).symm
  · next hle => exact (max_eq_right (immutableKey_le (le_total (Bool.eq_false_iff.2 hle)))).symm

theorem removedUnixMs_merge :
    (mergeTorrentRequest a b).removedUnixMs = max a.removedUnixMs b.removedUnixMs := rfl

end

/-- What two claims are compared by. -/
def claimRank (c : TorrentClaim) : Nat ×ₗ Natᵒᵈ ×ₗ NodeIdᵒᵈ :=
  toLex (c.epoch, toLex (OrderDual.toDual c.claimedUnixMs, OrderDual.toDual c.nodeId))

theorem claimRank_injective : Function.Injective claimRank := by
  rintro ⟨n, e, c⟩ ⟨n', e', c'⟩ h
  simp only [claimRank, toLex_inj, Prod.mk.injEq, OrderDual.toDual_inj] at h
  rw [h.1, h.2.1, h.2.2]

theorem claimBeats_iff (x y : TorrentClaim) :
    claimBeats x y = true ↔ claimRank y < claimRank x := by
  unfold claimBeats claimRank
  rw [Prod.Lex.toLex_lt_toLex, Prod.Lex.toLex_lt_toLex]
  split
  · next hne => simp [Ne.symm hne]
  · next heq =>
    rw [not_not] at heq
    split
    · next hne => simp [heq, Ne.symm hne]
    · next hsame =>
      rw [not_not] at hsame
      simp [heq, hsame]

/-- The claim of a request; none is below all. -/
def claimKey (r : TorrentRequest) : WithBot (Nat ×ₗ Natᵒᵈ ×ₗ NodeIdᵒᵈ) :=
  optionKey (r.claim.map claimRank)

theorem claim_eq {a b : TorrentRequest} (h : a.claimKey = b.claimKey) : a.claim = b.claim :=
  Option.map_injective claimRank_injective h

theorem claimKey_merge (a b : TorrentRequest) :
    (mergeTorrentRequest a b).claimKey = max a.claimKey b.claimKey := by
  unfold claimKey mergeTorrentRequest
  cases a.claim with
  | none =>
    exact (max_eq_right bot_le).symm
  | some x =>
    cases b.claim with
    | none => exact (max_eq_left bot_le).symm
    | some y =>
      dsimp only
      split
      · next hbeats =>
        have hlt := (claimBeats_iff x y).1 hbeats
        exact (max_eq_left (WithBot.coe_le_coe.2 hlt.le)).symm
      · next hloses =>
        rw [claimBeats_iff, not_lt] at hloses
        exact (max_eq_right (WithBot.coe_le_coe.2 hloses)).symm

theorem merge_comm (a b : TorrentRequest) : mergeTorrentRequest a b = mergeTorrentRequest b a := by
  refine eq_of_groups ?_ ?_ ?_ (claim_eq ?_) ?_ ?_
  · rw [immutableKey_merge, immutableKey_merge, max_comm]
  · rw [settingsKey_merge, settingsKey_merge, later_comm settingsStamp]
  · rw [desiredKey_merge, desiredKey_merge, later_comm desiredStamp]
  · rw [claimKey_merge, claimKey_merge, max_comm]
  · rw [ownerKey_merge, ownerKey_merge, later_comm ownerStamp]
  · rw [removedUnixMs_merge, removedUnixMs_merge, max_comm]

theorem merge_self (a : TorrentRequest) : mergeTorrentRequest a a = a := by
  refine eq_of_groups ?_ ?_ ?_ (claim_eq ?_) ?_ ?_
  · rw [immutableKey_merge, max_self]
  · rw [settingsKey_merge, later_self settingsStamp]
  · rw [desiredKey_merge, later_self desiredStamp]
  · rw [claimKey_merge, max_self]
  · rw [ownerKey_merge, later_self ownerStamp]
  · rw [removedUnixMs_merge, max_self]

/-! ## Ties -/

/-- What is compared before the fields of the owner. -/
def beforeOwner (r : TorrentRequest) :=
  toLex (toLex (r.beforeIntent, r.desiredKey), r.claimOrder)

/-- One version wins no settings against another, nor what is compared before them. -/
structure YieldsSettings (z x : TorrentRequest) : Prop where
  immutable : z.immutableKey ≤ x.immutableKey
  settings : pickRank settingsStamp immutableKey settingsKey z ≤
    pickRank settingsStamp immutableKey settingsKey x

/-- Nor the intent. -/
structure YieldsIntent (z x : TorrentRequest) : Prop extends YieldsSettings z x where
  intent : pickRank desiredStamp beforeIntent desiredKey z ≤
    pickRank desiredStamp beforeIntent desiredKey x

/-- Nor the claim or the fields of the owner. -/
structure YieldsOwner (z x : TorrentRequest) : Prop extends YieldsIntent z x where
  claim : z.claimKey ≤ x.claimKey
  owner : pickRank ownerStamp beforeOwner ownerKey z ≤ pickRank ownerStamp beforeOwner ownerKey x

/-- Versions whose ties are settled alike in any association: in each group, those of the
three that share the greatest stamp agree, or one wins neither the group nor one before it
against the other two, and of these one yields to the other or has a greater stamp. -/
structure TiesSettled (a b c : TorrentRequest) : Prop where
  settings : TieSettled settingsStamp settingsKey YieldsSettings a b c
  desired : TieSettled desiredStamp desiredKey YieldsIntent a b c
  owner : TieSettled ownerStamp ownerKey YieldsOwner a b c

section

variable {κ γ χ : Type} [LinearOrder κ] [LinearOrder γ] [LinearOrder χ]

theorem picks_of_later {stamp : TorrentRequest → κ} {context : TorrentRequest → χ}
    {value : TorrentRequest → γ}
    (hstamp : ∀ a b, stamp (mergeTorrentRequest a b) = stamp (later a (stamp a) b (stamp b)))
    (hvalue : ∀ a b, value (mergeTorrentRequest a b) = value (later a (stamp a) b (stamp b)))
    (hle : ∀ a b : TorrentRequest, a.le b = true →
      toLex (context a, value a) ≤ toLex (context b, value b)) :
    Picks mergeTorrentRequest stamp context value where
  comm := merge_comm
  key_op a b := (hstamp a b).trans (key_later stamp a b)
  value_op a b hrank := by
    have hlater := rank_later stamp a b (fun r => toLex (context r, value r)) (hle a b) (hle b a)
    rw [hvalue]
    exact congrArg (fun r => (ofLex (ofLex r).2).2) (hlater.trans (max_eq_left hrank))

end

theorem owner_le {a b : TorrentRequest} (h : a.le b = true) :
    toLex (a.beforeOwner, a.ownerKey) ≤ toLex (b.beforeOwner, b.ownerKey) := by
  refine toLex_le_of_le (toLex_le_of_le (intent_le h) fun heq => ?_) fun heq => ?_
  · rw [toLex_inj, Prod.mk.injEq] at heq
    exact claimOrder_le h heq.1 heq.2
  · simp only [beforeOwner, toLex_inj, Prod.mk.injEq] at heq
    exact ownerKey_le h heq.1.1 heq.1.2 (Option.map_injective key_injective heq.2)

theorem picks_settings : Picks mergeTorrentRequest settingsStamp immutableKey settingsKey :=
  picks_of_later (fun _ _ => rfl) settingsKey_merge fun _ _ => beforeIntent_le

theorem picks_desired : Picks mergeTorrentRequest desiredStamp beforeIntent desiredKey :=
  picks_of_later (fun _ _ => rfl) desiredKey_merge fun _ _ => intent_le

theorem picks_owner : Picks mergeTorrentRequest ownerStamp beforeOwner ownerKey :=
  picks_of_later (fun _ _ => rfl) ownerKey_merge fun _ _ => owner_le

section

variable {z x : TorrentRequest}

theorem YieldsSettings.immutableKey_merge (h : YieldsSettings z x) :
    (mergeTorrentRequest x z).immutableKey = x.immutableKey := by
  rw [TorrentRequest.immutableKey_merge, max_eq_left h.immutable]

theorem YieldsSettings.beforeIntent_merge (h : YieldsSettings z x) :
    (mergeTorrentRequest x z).beforeIntent = x.beforeIntent := by
  unfold beforeIntent
  rw [h.immutableKey_merge, picks_settings.value_op x z h.settings]

theorem YieldsOwner.beforeOwner_merge (h : YieldsOwner z x) :
    (mergeTorrentRequest x z).beforeOwner = x.beforeOwner := by
  have hclaim : (mergeTorrentRequest x z).claim = x.claim :=
    claim_eq (by rw [claimKey_merge, max_eq_left h.claim])
  unfold beforeOwner claimOrder
  rw [h.beforeIntent_merge, picks_desired.value_op x z h.intent, hclaim]

end

theorem merge_assoc {a b c : TorrentRequest} (h : TiesSettled a b c) :
    mergeTorrentRequest a (mergeTorrentRequest b c) =
      mergeTorrentRequest (mergeTorrentRequest a b) c := by
  refine eq_of_groups ?_ ?_ ?_ (claim_eq ?_) ?_ ?_
  · simp only [immutableKey_merge, max_assoc]
  · exact picks_settings.assoc_of_settled (fun _ _ h => h.settings)
      (fun _ _ h => h.immutableKey_merge) h.settings
  · exact picks_desired.assoc_of_settled (fun _ _ h => h.intent)
      (fun _ _ h => h.beforeIntent_merge) h.desired
  · simp only [claimKey_merge, max_assoc]
  · exact picks_owner.assoc_of_settled (fun _ _ h => h.owner)
      (fun _ _ h => h.beforeOwner_merge) h.owner
  · simp only [removedUnixMs_merge, max_assoc]

end TorrentRequest

/-- The merge of two versions of a request is commutative and idempotent; it is
associative where ties are settled alike. -/
theorem mergeTorrentRequest_join (a b c : TorrentRequest) :
    mergeTorrentRequest a b = mergeTorrentRequest b a ∧ mergeTorrentRequest a a = a ∧
      (TorrentRequest.TiesSettled a b c → mergeTorrentRequest a (mergeTorrentRequest b c) =
          mergeTorrentRequest (mergeTorrentRequest a b) c) :=
  ⟨TorrentRequest.merge_comm a b, TorrentRequest.merge_self a, TorrentRequest.merge_assoc⟩

namespace TiedRequests

/-- One request, paused and its settings changed later. -/
def paused : TorrentRequest :=
  { id := [1], createdUnixMs := 5, createdBy := 1, settingsChangedUnixMs := 8
    settingsChangedBy := 1, desired := .paused, desiredChangedUnixMs := 7, desiredChangedBy := 1 }

/-- The request pinned to a node, its intent of the same millisecond still active. -/
def pinned : TorrentRequest :=
  { id := [1], createdUnixMs := 5, createdBy := 1, pinnedNodeId := some 2
    settingsChangedUnixMs := 6, settingsChangedBy := 1, desiredChangedUnixMs := 7
    desiredChangedBy := 1 }

/-- Resumed within the millisecond in which it was paused. -/
def resumed : TorrentRequest := { paused with desired := .active }

/-- An earlier version, pinned then. -/
def earlier : TorrentRequest := { pinned with desiredChangedUnixMs := 6 }

theorem merge_paused_resumed : mergeTorrentRequest paused (mergeTorrentRequest earlier resumed) =
    mergeTorrentRequest (mergeTorrentRequest paused earlier) resumed := by
  have hyields : TorrentRequest.YieldsIntent earlier resumed ∧
      TorrentRequest.YieldsIntent earlier paused :=
    ⟨⟨⟨by decide, by decide⟩, by decide⟩, ⟨⟨by decide, by decide⟩, by decide⟩⟩
  have howner : TiesAgree TorrentRequest.ownerStamp TorrentRequest.ownerKey
      paused earlier resumed := by
    intro x hx y hy _ _
    simp only [List.mem_cons, List.not_mem_nil, or_false] at hx hy
    rcases hx with rfl | rfl | rfl <;> rcases hy with rfl | rfl | rfl <;> rfl
  exact (mergeTorrentRequest_join paused earlier resumed).2.2
    ⟨.inl (by unfold TiesAgree; decide),
      .inr (.inr (.inl ⟨hyields.1, hyields.2, .inr (.inr (.inl (by decide)))⟩)), .inl howner⟩

/-- The pinned version wins the tie for its settings, and loses them in the same merge: with
the paused version merged once more the request is paused after all. -/
theorem merge_not_assoc : paused.id = pinned.id ∧
    mergeTorrentRequest paused (mergeTorrentRequest paused pinned) ≠
      mergeTorrentRequest (mergeTorrentRequest paused paused) pinned := by
  decide

end TiedRequests

end Macha
