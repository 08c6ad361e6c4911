import Macha.Library.Run
import Macha.Auth.Session

/-!
# Sessions over a cluster

Nodes that mint, revoke, merge, prune, persist and load sessions. Any record that
was ever made may be delivered to any node, at any time and again. A revocation
is remembered by the revoked record alone: the constructor leaves that record out,
and pruning and a full table may drop it, while live copies still circulate.
-/

namespace Macha

open List OrdMap

/-! ## Nodes and events -/

structure SessionNode where
  manager : SessionManager
  /-- Whether there is a `persisted_path`. -/
  persists : Bool
  file : Option ByteString := none
  /-- What `unix_ms` reads. -/
  now : Nat

/-- The nodes, and every record made so far. -/
structure SessionWorld (ν : Type) where
  nodes : ν → SessionNode
  sent : List AuthSession := []

inductive SessionEvent (ν : Type) where
  | create (node : ν) (bearerToken id : ByteString) (roles : List ByteString)
      (userId : ByteString) (credentialGeneration : Nat)
  | revoke (node : ν) (tokenHash : Hash256)
  | apply (node : ν) (incoming : AuthSession)
  | pruneExpired (node : ν)
  | persist (node : ν)
  | restart (node : ν)
  | clock (node : ν) (now : Nat)

namespace SessionNode

def persist (n : SessionNode) : SessionNode :=
  if n.persists = true then { n with file := some n.manager.persisted } else n

def restart (n : SessionNode) : SessionNode :=
  { n with manager := .load n.manager.anonymousTtl n.manager.maxSessions n.file n.now }

def record (n : SessionNode) (tokenHash : Hash256) : Option AuthSession :=
  n.manager.byTokenHash[tokenHash]?

def validate (sha256 : ByteString → Hash256) (n : SessionNode) (token : ByteString) :
    Option AuthSession :=
  n.manager.validate sha256 n.now token

end SessionNode

namespace SessionWorld

variable {ν : Type} [DecidableEq ν]

/-- One node changed, with the records it made. -/
def put (w : SessionWorld ν) (node : ν) (n : SessionNode) (made : List AuthSession) :
    SessionWorld ν where
  nodes := Function.update w.nodes node n
  sent := w.sent ++ made

/-- A token is drawn at random, so that its hash is new. -/
def step (sha256 : ByteString → Hash256) (w : SessionWorld ν) :
    SessionEvent ν → Option (SessionWorld ν)
  | .create node bearerToken id roles userId credentialGeneration =>
    let n := w.nodes node
    let session := n.manager.minted sha256 n.now bearerToken id roles userId credentialGeneration
    if session.Sized ∧ ∀ s ∈ w.sent, s.tokenHash ≠ session.tokenHash then
      match n.manager.create session with
      | none => some w
      | some manager => some (w.put node { n with manager := manager } [session])
    else none
  | .revoke node tokenHash =>
    let n := w.nodes node
    let (manager, revoked) := n.manager.revoke tokenHash
    some (w.put node { n with manager := manager } revoked.toList)
  | .apply node incoming =>
    let n := w.nodes node
    if incoming ∈ w.sent then
      some (w.put node { n with manager := n.manager.apply incoming } [])
    else none
  | .pruneExpired node =>
    let n := w.nodes node
    some (w.put node { n with manager := n.manager.pruneExpired n.now } [])
  | .persist node => some (w.put node (w.nodes node).persist [])
  | .restart node => some (w.put node (w.nodes node).restart [])
  | .clock node now => some (w.put node { w.nodes node with now := now } [])

/-- No session has been made yet. -/
structure Fresh (w : SessionWorld ν) : Prop where
  sent : w.sent = []
  table : ∀ node, (w.nodes node).manager.byTokenHash = ∅
  file : ∀ node, (w.nodes node).file = none

end SessionWorld

/-! ## What holds of every record -/

namespace AuthSession

/-- A live record is as it was minted; a revoked one has a higher version. -/
structure Honest (s : AuthSession) : Prop where
  sized : s.Sized
  live : s.revoked = false → s.version = 1
  revoked : s.revoked = true → 2 ≤ s.version

theorem honest_minted {sha256 : ByteString → Hash256} {m : SessionManager} {now : Nat}
    {bearerToken id userId : ByteString} {roles : List ByteString} {credentialGeneration : Nat}
    (sized : (m.minted sha256 now bearerToken id roles userId credentialGeneration).Sized) :
    (m.minted sha256 now bearerToken id roles userId credentialGeneration).Honest :=
  ⟨sized, fun _ => rfl, nofun⟩

theorem Honest.one_le {s : AuthSession} (h : s.Honest) : 1 ≤ s.version := by
  cases hr : s.revoked with
  | false => exact (h.live hr).ge
  | true => exact Nat.le_of_succ_le (h.revoked hr)

theorem Honest.revokedRecord {s : AuthSession} (h : s.Honest) (hfits : s.version + 1 < 2 ^ 64) :
    (SessionManager.revokedRecord s).Honest := by
  have hversion : (SessionManager.revokedRecord s).version = s.version + 1 := Nat.mod_eq_of_lt hfits
  have hone := h.one_le
  refine ⟨{ h.sized with version := ?_ }, nofun, fun _ => ?_⟩
  · rw [hversion]
    exact hfits
  · omega

end AuthSession

namespace SessionWorld

variable {ν : Type} [DecidableEq ν]

/-- Every record anywhere was made by a node, and records of one token expire together. -/
structure Consistent (w : SessionWorld ν) : Prop where
  honest : ∀ s ∈ w.sent, s.Honest
  expires : ∀ s ∈ w.sent, ∀ r ∈ w.sent, s.tokenHash = r.tokenHash →
    s.expiresUnixMs = r.expiresUnixMs
  record : ∀ node k s, (w.nodes node).record k = some s → s.tokenHash = k ∧ s ∈ w.sent
  file : ∀ node, ∀ s ∈ SessionManager.persistedSessions (w.nodes node).file, s ∈ w.sent

variable {w next : SessionWorld ν} {node : ν} {k : Hash256}

omit [DecidableEq ν] in
theorem Fresh.consistent (h : w.Fresh) : w.Consistent := by
  refine ⟨?_, ?_, fun node k s hs => ?_, fun node s hs => ?_⟩
  · rw [h.sent]
    nofun
  · rw [h.sent]
    nofun
  · rw [SessionNode.record, h.table node, Std.ExtTreeMap.getElem?_empty] at hs
    cases hs
  · rw [h.file node] at hs
    cases hs

@[simp] theorem put_same (w : SessionWorld ν) (node : ν) (n : SessionNode)
    (made : List AuthSession) : (w.put node n made).nodes node = n := by
  exact Function.update_self node n w.nodes

theorem put_other (w : SessionWorld ν) {node other : ν} (n : SessionNode)
    (made : List AuthSession) (h : other ≠ node) :
    (w.put node n made).nodes other = w.nodes other := by
  exact Function.update_of_ne h n w.nodes

section

variable (h : w.Consistent)

include h

theorem Consistent.put {n : SessionNode} {made : List AuthSession} (honest : ∀ s ∈ made, s.Honest)
    (expires : ∀ s ∈ made, ∀ r ∈ w.sent ++ made, s.tokenHash = r.tokenHash →
      s.expiresUnixMs = r.expiresUnixMs)
    (record : ∀ k s, n.record k = some s → s.tokenHash = k ∧ s ∈ w.sent ++ made)
    (file : ∀ s ∈ SessionManager.persistedSessions n.file, s ∈ w.sent ++ made) :
    (w.put node n made).Consistent := by
  refine ⟨fun s hs => ?_, fun s hs r hr heq => ?_, fun other k s hs => ?_, fun other s hs => ?_⟩
  · exact (mem_append.1 hs).elim (h.honest s) (honest s)
  · rcases mem_append.1 hs with hold | hnew
    · rcases mem_append.1 hr with hr | hr
      · exact h.expires s hold r hr heq
      · exact (expires r hr s hs heq.symm).symm
    · exact expires s hnew r hr heq
  · by_cases hother : other = node
    · subst hother
      rw [put_same] at hs
      exact record k s hs
    · rw [put_other w n made hother] at hs
      exact (h.record other k s hs).imp_right fun hmem => mem_append_left made hmem
  · by_cases hother : other = node
    · subst hother
      rw [put_same] at hs
      exact file s hs
    · rw [put_other w n made hother] at hs
      exact mem_append_left made (h.file other s hs)

theorem Consistent.put_nil {n : SessionNode}
    (record : ∀ k s, n.record k = some s → s.tokenHash = k ∧ s ∈ w.sent)
    (file : ∀ s ∈ SessionManager.persistedSessions n.file, s ∈ w.sent) :
    (w.put node n []).Consistent := by
  refine h.put nofun nofun ?_ ?_
  · rwa [append_nil]
  · rwa [append_nil]

omit h in
theorem record_insert {m : SessionManager} {sent : List AuthSession} (made : List AuthSession)
    {incoming : AuthSession}
    (h : ∀ k s, m.byTokenHash[k]? = some s → s.tokenHash = k ∧ s ∈ sent)
    (hk : incoming.tokenHash = k) (hmem : incoming ∈ sent ++ made) (a : Hash256) (s : AuthSession)
    (hs : (m.byTokenHash.insert k incoming)[a]? = some s) :
    s.tokenHash = a ∧ s ∈ sent ++ made := by
  rcases getElem?_insert_eq_some hs with ⟨rfl, rfl⟩ | ⟨-, hs⟩
  · exact ⟨hk, hmem⟩
  · exact (h a s hs).imp_right fun hsent => mem_append_left made hsent

/-- No version reaches the end of its range. -/
def VersionFits (t : Transition (SessionWorld ν) (SessionEvent ν)) : Prop :=
  match t.event with
  | .revoke node k => ∀ s ∈ (t.before.nodes node).record k, s.version + 1 < 2 ^ 64
  | _ => True

instance (t : Transition (SessionWorld ν) (SessionEvent ν)) : Decidable (VersionFits t) :=
  match t with
  | ⟨before, .revoke node k, _⟩ =>
    inferInstanceAs (Decidable (∀ s ∈ (before.nodes node).record k, s.version + 1 < 2 ^ 64))
  | ⟨_, .create .., _⟩ | ⟨_, .apply .., _⟩ | ⟨_, .pruneExpired _, _⟩ | ⟨_, .persist _, _⟩
  | ⟨_, .restart _, _⟩ | ⟨_, .clock .., _⟩ => isTrue trivial

theorem Consistent.create {session : AuthSession} {manager : SessionManager}
    (sized : session.Honest) (fresh : ∀ s ∈ w.sent, s.tokenHash ≠ session.tokenHash)
    (hcreate : (w.nodes node).manager.create session = some manager) :
    (w.put node { w.nodes node with manager := manager } [session]).Consistent := by
  rw [SessionManager.create_eq_some hcreate]
  refine h.put ?_ ?_ ?_ ?_
  · rintro s hs
    rw [mem_singleton.1 hs]
    exact sized
  · intro s hs r hr heq
    rw [mem_singleton.1 hs] at heq ⊢
    rcases mem_append.1 hr with hr | hr
    · exact absurd heq.symm (fresh r hr)
    · rw [mem_singleton.1 hr]
  · exact record_insert _ (h.record node) rfl (mem_append_right _ mem_cons_self)
  · exact fun s hs => mem_append_left _ (h.file node s hs)

theorem Consistent.revoke (hfits : ∀ s ∈ (w.nodes node).record k, s.version + 1 < 2 ^ 64) :
    (w.put node { w.nodes node with manager := ((w.nodes node).manager.revoke k).1 }
      ((w.nodes node).manager.revoke k).2.toList).Consistent := by
  unfold SessionManager.revoke
  cases hfound : (w.nodes node).manager.byTokenHash[k]? with
  | none => exact h.put_nil (h.record node) (h.file node)
  | some s =>
    obtain ⟨hk, hsent⟩ := h.record node k s hfound
    refine h.put ?_ ?_ ?_ ?_
    · intro r hr
      rw [mem_singleton.1 hr]
      exact (h.honest s hsent).revokedRecord (hfits s hfound)
    · intro r hr other hother heq
      rw [mem_singleton.1 hr] at heq ⊢
      rcases mem_append.1 hother with hother | hother
      · exact h.expires s hsent other hother heq
      · rw [mem_singleton.1 hother]
    · exact record_insert _ (h.record node) hk (mem_append_right _ mem_cons_self)
    · exact fun r hr => mem_append_left _ (h.file node r hr)

theorem Consistent.apply {incoming : AuthSession} (hsent : incoming ∈ w.sent) :
    (w.put node { w.nodes node with manager := (w.nodes node).manager.apply incoming }
      []).Consistent := by
  refine h.put_nil (fun a s hs => ?_) (h.file node)
  rcases (w.nodes node).manager.apply_cases incoming with ⟨heq, -⟩ | ⟨heq, -⟩
  · rw [SessionNode.record, heq] at hs
    have hset := record_insert [] (h.record node) rfl
      (mem_append_left [] hsent) a s hs
    rwa [append_nil] at hset
  · rw [SessionNode.record, heq] at hs
    exact h.record node a s hs

theorem Consistent.persist : (w.put node (w.nodes node).persist []).Consistent := by
  unfold SessionNode.persist
  split
  · refine h.put_nil (h.record node) fun s hs => ?_
    obtain ⟨a, ha⟩ := SessionManager.mem_persistedSessions
      (fun a r hr => (h.honest r (h.record node a r hr).2).sized) hs
    exact (h.record node a s ha).2
  · exact h.put_nil (h.record node) (h.file node)

theorem Consistent.step {sha256 : ByteString → Hash256} {event : SessionEvent ν}
    (hstep : w.step sha256 event = some next) (hfits : VersionFits ⟨w, event, next⟩) :
    next.Consistent := by
  cases event with
  | create node bearerToken id roles userId credentialGeneration =>
    unfold SessionWorld.step at hstep
    dsimp only at hstep
    split at hstep
    · next hguard =>
      split at hstep
      · cases hstep
        exact h
      · next manager hcreate =>
        cases hstep
        exact h.create (AuthSession.honest_minted hguard.1) hguard.2 hcreate
    · cases hstep
  | revoke node k =>
    cases hstep
    exact h.revoke hfits
  | apply node incoming =>
    unfold SessionWorld.step at hstep
    dsimp only at hstep
    split at hstep
    · next hsent =>
      cases hstep
      exact h.apply hsent
    · cases hstep
  | pruneExpired node =>
    cases hstep
    exact h.put_nil (fun a s hs => h.record node a s (SessionManager.getElem?_pruneExpired hs))
      (h.file node)
  | persist node =>
    cases hstep
    exact h.persist
  | restart node =>
    cases hstep
    refine h.put_nil (fun a s hs => ?_) (h.file node)
    obtain ⟨hmem, hk, -⟩ := SessionManager.getElem?_load hs
    exact ⟨hk, h.file node s hmem⟩
  | clock node now =>
    cases hstep
    exact h.put_nil (h.record node) (h.file node)

end

/-! ## A revoked token -/

theorem sent_step {sha256 : ByteString → Hash256} {event : SessionEvent ν} {s : AuthSession}
    (hstep : w.step sha256 event = some next) (hs : s ∈ w.sent) : s ∈ next.sent := by
  cases event with
  | create node bearerToken id roles userId credentialGeneration =>
    unfold SessionWorld.step at hstep
    dsimp only at hstep
    split at hstep
    · split at hstep
      · cases hstep
        exact hs
      · cases hstep
        exact mem_append_left _ hs
    · cases hstep
  | apply node incoming =>
    unfold SessionWorld.step at hstep
    dsimp only at hstep
    split at hstep
    · cases hstep
      exact mem_append_left _ hs
    · cases hstep
  | revoke _ _ | pruneExpired _ | persist _ | restart _ | clock _ _ =>
    cases hstep
    exact mem_append_left _ hs

end SessionWorld

namespace SessionNode

variable {n : SessionNode} {k : Hash256}

def Refuses (n : SessionNode) (k : Hash256) : Prop := n.manager.find n.now k = none

instance (n : SessionNode) (k : Hash256) : Decidable (n.Refuses k) :=
  inferInstanceAs (Decidable (_ = none))

theorem refuses_iff : n.Refuses k ↔ ∀ s, n.record k = some s → sessionLive s n.now = false :=
  SessionManager.find_eq_none

variable {s incoming : AuthSession}

theorem refuses_insert {m : SessionManager} {now : Nat} {a : Hash256}
    (h : ∀ r, m.byTokenHash[k]? = some r → sessionLive r now = false)
    (hs : a = k → sessionLive s now = false) (r : AuthSession)
    (hr : (m.byTokenHash.insert a s)[k]? = some r) : sessionLive r now = false := by
  rcases getElem?_insert_eq_some hr with ⟨heq, rfl⟩ | ⟨-, hr⟩
  · exact hs heq
  · exact h r hr

theorem sessionLive_of_revoked (h : s.revoked = true) (now : Nat) : sessionLive s now = false := by
  simp [sessionLive, h]

/-- After a call of `revoke` there is no live record, also where there was none to revoke. -/
theorem refuses_revoke (n : SessionNode) (k : Hash256) :
    ({ n with manager := (n.manager.revoke k).1 } : SessionNode).Refuses k := by
  refine refuses_iff.2 fun s hs => ?_
  unfold record SessionManager.revoke at hs
  cases hfound : n.manager.byTokenHash[k]? with
  | none =>
    rw [hfound] at hs
    have hnone := hfound.symm.trans hs
    cases hnone
  | some r =>
    rw [hfound] at hs
    rw [getElem?_insert_self] at hs
    cases hs
    exact sessionLive_of_revoked rfl _

theorem Refuses.revoke (h : n.Refuses k) (a : Hash256) :
    ({ n with manager := (n.manager.revoke a).1 } : SessionNode).Refuses k := by
  refine refuses_iff.2 fun s hs => ?_
  unfold record SessionManager.revoke at hs
  cases hfound : n.manager.byTokenHash[a]? with
  | none =>
    rw [hfound] at hs
    exact refuses_iff.1 h s hs
  | some r =>
    rw [hfound] at hs
    exact refuses_insert (refuses_iff.1 h) (fun _ => sessionLive_of_revoked rfl _) s hs

theorem refuses_apply_revoked (hincoming : incoming.Honest)
    (hrecord : ∀ s, n.record incoming.tokenHash = some s → s.Honest)
    (hrevoked : incoming.revoked = true) :
    ({ n with manager := n.manager.apply incoming } : SessionNode).Refuses
      incoming.tokenHash := by
  refine refuses_iff.2 fun s hs => ?_
  unfold record at hs
  rcases n.manager.apply_cases incoming with ⟨heq, -⟩ | ⟨heq, hkept⟩
  · rw [heq, getElem?_insert_self] at hs
    cases hs
    exact sessionLive_of_revoked hrevoked _
  · rw [heq] at hs
    refine sessionLive_of_revoked ?_ _
    rcases hkept s hs with hlow | ⟨-, hr⟩
    · by_contra hlive
      have hversion := (hrecord s hs).live (Bool.eq_false_iff.2 hlive)
      have htwo := hincoming.revoked hrevoked
      omega
    · exact hr

theorem Refuses.apply (h : n.Refuses k) (hincoming : incoming.Honest)
    (hrecord : ∀ s, n.record k = some s → s.Honest ∧
      (incoming.tokenHash = k → s.expiresUnixMs = incoming.expiresUnixMs))
    (hroom : incoming.tokenHash = k → sessionLive incoming n.now = true →
      (n.record k).isSome = true ∨ n.manager.maxSessions ≤ n.manager.byTokenHash.size) :
    ({ n with manager := n.manager.apply incoming } : SessionNode).Refuses k := by
  refine refuses_iff.2 fun s hs => ?_
  rcases n.manager.apply_cases incoming with ⟨heq, hreplaces, hfull⟩ | ⟨heq, -⟩
  · rw [heq] at hs
    refine refuses_insert (refuses_iff.1 h) (fun hk => ?_) s hs
    by_contra hlive
    have hlive := Bool.eq_true_of_not_eq_false hlive
    obtain ⟨hfalse, hbefore⟩ := sessionLive_eq_true.1 hlive
    have hversion := hincoming.live hfalse
    subst hk
    -- the record it would replace is either revoked, with a higher version, or expired as well
    cases hfound : n.manager.byTokenHash[incoming.tokenHash]? with
    | none =>
      rcases hroom rfl hlive with hsome | hsize
      · rw [record, hfound] at hsome
        cases hsome
      · exact absurd (hfull hfound) (Nat.not_lt_of_le hsize)
    | some existing =>
      obtain ⟨hhonest, hexpires⟩ := hrecord existing hfound
      obtain ⟨hle, -⟩ := hreplaces existing hfound
      have hdead := refuses_iff.1 h existing hfound
      cases hr : existing.revoked with
      | true =>
        have htwo := hhonest.revoked hr
        omega
      | false =>
        have hlive' : sessionLive existing n.now = true :=
          sessionLive_eq_true.2 ⟨hr, hexpires rfl ▸ hbefore⟩
        rw [hdead] at hlive'
        cases hlive'
  · rw [heq] at hs
    exact refuses_iff.1 h s hs

end SessionNode

namespace SessionWorld

variable {ν : Type} [DecidableEq ν] {w next : SessionWorld ν} {node : ν} {k : Hash256}
variable {sha256 : ByteString → Hash256}

/-- A revocation of a minted token returned on the node, or a revoked record of it was
applied there. -/
def Revokes (node : ν) (k : Hash256) (t : Transition (SessionWorld ν) (SessionEvent ν)) : Prop :=
  (t.event = .revoke node k ∧ ∃ s ∈ t.before.sent, s.tokenHash = k) ∨
    ∃ incoming, t.event = .apply node incoming ∧ incoming.tokenHash = k ∧ incoming.revoked = true

/-- The step does not bring a live record of the token back to the node: no live record is
merged while the node has forgotten the token, no file with a live record is loaded, and
the clock is not set back to before the end of a session. -/
def KeepsRevoked (node : ν) (k : Hash256)
    (t : Transition (SessionWorld ν) (SessionEvent ν)) : Prop :=
  let n := t.before.nodes node
  match t.event with
  | .apply other incoming =>
    other = node → incoming.tokenHash = k → sessionLive incoming n.now = true →
      (n.record k).isSome = true ∨ n.manager.maxSessions ≤ n.manager.byTokenHash.size
  | .restart other =>
    other = node → ∀ s ∈ SessionManager.persistedSessions n.file, s.tokenHash = k →
      sessionLive s n.now = false
  | .clock other now => other = node → n.manager.find now k = none
  | _ => True

instance (node : ν) (k : Hash256) (t : Transition (SessionWorld ν) (SessionEvent ν)) :
    Decidable (KeepsRevoked node k t) :=
  match t with
  | ⟨before, .apply other incoming, _⟩ =>
    inferInstanceAs (Decidable (other = node → incoming.tokenHash = k →
      sessionLive incoming (before.nodes node).now = true →
        ((before.nodes node).record k).isSome = true ∨ (before.nodes node).manager.maxSessions ≤
            (before.nodes node).manager.byTokenHash.size))
  | ⟨before, .restart other, _⟩ =>
    inferInstanceAs (Decidable (other = node →
      ∀ s ∈ SessionManager.persistedSessions (before.nodes node).file, s.tokenHash = k →
        sessionLive s (before.nodes node).now = false))
  | ⟨before, .clock other now, _⟩ =>
    inferInstanceAs (Decidable (other = node → (before.nodes node).manager.find now k = none))
  | ⟨_, .create .., _⟩ | ⟨_, .revoke .., _⟩ | ⟨_, .pruneExpired _, _⟩ | ⟨_, .persist _, _⟩ =>
    isTrue trivial

theorem Consistent.refuses_of_revokes (h : w.Consistent) {event : SessionEvent ν}
    (hstep : w.step sha256 event = some next) (hrevokes : Revokes node k ⟨w, event, next⟩) :
    (∃ s ∈ next.sent, s.tokenHash = k) ∧ (next.nodes node).Refuses k := by
  rcases hrevokes with ⟨hevent, s, hs, hk⟩ | ⟨incoming, hevent, hk, hrevoked⟩
  · refine ⟨⟨s, sent_step hstep hs, hk⟩, ?_⟩
    subst hevent
    cases hstep
    rw [put_same]
    exact (w.nodes node).refuses_revoke k
  · subst hevent
    unfold SessionWorld.step at hstep
    dsimp only at hstep
    split at hstep
    · next hsent =>
      cases hstep
      refine ⟨⟨incoming, mem_append_left [] hsent, hk⟩, ?_⟩
      subst hk
      rw [put_same]
      exact SessionNode.refuses_apply_revoked (h.honest incoming hsent)
        (fun s hs => h.honest s (h.record node _ s hs).2) hrevoked
    · cases hstep

theorem refuses_put {other : ν} {n : SessionNode} {made : List AuthSession}
    (h : (w.nodes node).Refuses k) (hn : other = node → n.Refuses k) :
    ((w.put other n made).nodes node).Refuses k := by
  by_cases hother : other = node
  · subst hother
    rw [put_same]
    exact hn rfl
  · rwa [put_other w n made (Ne.symm hother)]

theorem Consistent.refuses_step (h : w.Consistent) {event : SessionEvent ν}
    (hminted : ∃ s ∈ w.sent, s.tokenHash = k) (hrefuses : (w.nodes node).Refuses k)
    (hstep : w.step sha256 event = some next) (hkeeps : KeepsRevoked node k ⟨w, event, next⟩) :
    (next.nodes node).Refuses k := by
  cases event with
  | create other bearerToken id roles userId credentialGeneration =>
    unfold SessionWorld.step at hstep
    dsimp only at hstep
    split at hstep
    · next hguard =>
      split at hstep
      · cases hstep
        exact hrefuses
      · next manager hcreate =>
        cases hstep
        refine refuses_put hrefuses fun hother => SessionNode.refuses_iff.2 ?_
        subst hother
        rw [SessionManager.create_eq_some hcreate]
        refine SessionNode.refuses_insert (SessionNode.refuses_iff.1 hrefuses) fun hk => ?_
        obtain ⟨s, hs, hsk⟩ := hminted
        exact absurd (hsk.trans hk.symm) (hguard.2 s hs)
    · cases hstep
  | revoke other a =>
    cases hstep
    refine refuses_put hrefuses fun hother => ?_
    subst hother
    exact hrefuses.revoke a
  | apply other incoming =>
    unfold SessionWorld.step at hstep
    dsimp only at hstep
    split at hstep
    · next hsent =>
      cases hstep
      refine refuses_put hrefuses fun hother => ?_
      have hroom := hkeeps hother
      subst hother
      refine hrefuses.apply (h.honest incoming hsent) (fun s hs => ?_) hroom
      obtain ⟨hk, hmem⟩ := h.record _ k s hs
      exact ⟨h.honest s hmem, fun heq => h.expires s hmem incoming hsent (hk.trans heq.symm)⟩
    · cases hstep
  | pruneExpired other =>
    cases hstep
    refine refuses_put hrefuses fun hother => SessionNode.refuses_iff.2 fun s hs => ?_
    subst hother
    exact SessionNode.refuses_iff.1 hrefuses s (SessionManager.getElem?_pruneExpired hs)
  | persist other =>
    cases hstep
    refine refuses_put hrefuses fun hother => ?_
    subst hother
    unfold SessionNode.persist
    split <;> exact hrefuses
  | restart other =>
    cases hstep
    refine refuses_put hrefuses fun hother => SessionNode.refuses_iff.2 fun s hs => ?_
    have hfile := hkeeps hother
    subst hother
    obtain ⟨hmem, hk, -⟩ := SessionManager.getElem?_load hs
    exact hfile s hmem hk
  | clock other now =>
    cases hstep
    refine refuses_put hrefuses fun hother => ?_
    have hclock := hkeeps hother
    subst hother
    exact hclock

end SessionWorld

section

open SessionWorld

variable {ν : Type} [DecidableEq ν] {sha256 : ByteString → Hash256}
variable {start final : SessionWorld ν} {trace : List (Transition (SessionWorld ν) (SessionEvent ν))}

/-- Once a token is revoked on a node it is refused there, as long as no step brings a live
record of it back. -/
theorem revoked_session_stays_revoked (fresh : start.Fresh)
    (run : Run (Traced (Computes (SessionWorld.step sha256))) start trace final)
    (hfits : Always (fun _ t => VersionFits t) trace) (node : ν) (token : ByteString)
    (hkeeps : Always (fun past t => (∃ earlier ∈ past, Revokes node (sha256 token) earlier) →
      KeepsRevoked node (sha256 token) t) trace)
    (hrevoked : ∃ t ∈ trace, Revokes node (sha256 token) t) :
    (final.nodes node).validate sha256 token = none := by
  have hinvariant : Consistent final ∧ ((∃ t ∈ trace, Revokes node (sha256 token) t) →
      (∃ s ∈ final.sent, s.tokenHash = sha256 token) ∧
        (final.nodes node).Refuses (sha256 token)) := by
    clear hrevoked
    induction run with
    | refl => exact ⟨fresh.consistent, nofun⟩
    | snoc run hstep ih =>
      rename_i events before after t
      obtain ⟨hstep, hbefore, hafter⟩ := hstep
      obtain ⟨hfits, hfit⟩ := always_snoc.1 hfits
      obtain ⟨hkeeps, hkeep⟩ := always_snoc.1 hkeeps
      obtain ⟨hconsistent, hrefuses⟩ := ih hfits hkeeps
      obtain ⟨_, event, _⟩ := t
      subst hbefore hafter
      refine ⟨hconsistent.step hstep hfit, fun ⟨t, ht, hrevokes⟩ => ?_⟩
      -- the last step is the revocation, or the token was refused before it
      rcases mem_append.1 ht with ht | ht
      · obtain ⟨⟨s, hs, hk⟩, hnode⟩ := hrefuses ⟨t, ht, hrevokes⟩
        exact ⟨⟨s, sent_step hstep hs, hk⟩, hconsistent.refuses_step ⟨s, hs, hk⟩ hnode hstep
          (hkeep ⟨t, ht, hrevokes⟩)⟩
      · rw [mem_singleton.1 ht] at hrevokes
        exact hconsistent.refuses_of_revokes hstep hrevokes
  exact (hinvariant.2 hrevoked).2

end

namespace TwoSessionNodes

/-- A hash of thirty-two bytes. -/
def hash (token : ByteString) : Hash256 := (token ++ Hash256.zero).take 32

def start : SessionWorld Bool where
  nodes := fun _ =>
    { manager := { anonymousTtl := 1000, maxSessions := 4 }, persists := true, now := 5 }

def token : ByteString := [1]

def minted : AuthSession :=
  SessionManager.minted hash { anonymousTtl := 1000, maxSessions := 4 } 5 token [7] [] [] 0

def revoked : AuthSession := SessionManager.revokedRecord minted

/-- One node mints and revokes, the other merges the revoked record and then an old copy. -/
def merged : List (SessionEvent Bool) :=
  [.create true token [7] [] [] 0, .revoke true (hash token), .apply false revoked,
    .apply false minted, .persist false, .restart false, .clock false 10]

theorem merged_refused : ∃ trace final,
    Run (Traced (Computes (SessionWorld.step hash))) start trace final ∧
      trace.map (·.event) = merged ∧ (final.nodes false).validate hash token = none := by
  have hruns : (merged.foldlM (checkedStep (SessionWorld.step hash) fun t =>
      SessionWorld.VersionFits t ∧ SessionWorld.KeepsRevoked false (hash token) t)
      start).isSome = true := by decide +kernel
  obtain ⟨final, hfinal⟩ := Option.isSome_iff_exists.1 hruns
  obtain ⟨trace, run, halways, hevents⟩ := exists_checked_run hfinal
  refine ⟨trace, final, run, hevents, ?_⟩
  have hmem : SessionEvent.apply false revoked ∈ trace.map (·.event) := by
    rw [hevents]
    simp [merged]
  obtain ⟨t, ht, hevent⟩ := List.mem_map.1 hmem
  exact revoked_session_stays_revoked ⟨rfl, fun _ => rfl, fun _ => rfl⟩ run
    (fun past t hpast => (halways past t hpast).1) false token
    (fun past t hpast _ => (halways past t hpast).2) ⟨t, ht, .inr ⟨revoked, hevent, rfl, rfl⟩⟩

/-- A revocation, a restart, and a copy of the record from before the revocation. -/
def forgotten : List (SessionEvent Bool) :=
  [.create true token [7] [] [] 0, .revoke true (hash token), .persist true, .restart true,
    .apply true minted]

/-- The constructor leaves the revoked record out of the table, and the old copy is merged
as a new session. -/
theorem revoked_token_accepted : ∃ final,
    Run (Computes (SessionWorld.step hash)) start forgotten final ∧
      SessionEvent.revoke true (hash token) ∈ forgotten ∧
      (final.nodes true).validate hash token = some minted := by
  have hfinal : ((forgotten.foldlM (SessionWorld.step hash) start).bind fun w =>
      (w.nodes true).validate hash token) = some minted := by decide +kernel
  obtain ⟨final, hrun, hvalid⟩ := Option.bind_eq_some_iff.1 hfinal
  exact ⟨final, run_of_foldlM hrun, by simp [forgotten], hvalid⟩

end TwoSessionNodes

end Macha
