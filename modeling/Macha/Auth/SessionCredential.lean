import Macha.Auth.Session
import Macha.Auth.UserReplicas

/-!
# Sessions and credentials

A session keeps the credential generation of the record it was minted from, and
passes as long as the account's record on the node has that generation. A
generation is counted on from the node's own record; the sessions of two changes
made from one record are not told apart.
-/

namespace Macha

open List Option

open UserTable

/-- The HTTP authenticator: what `validate` found, and for a session bound to a user
that the account lives and has the session's generation. -/
def authenticate (table : UserTable) (session : Option AuthSession) : Option AuthSession :=
  session.bind fun session =>
    if session.userId.isEmpty then some session
    else
      match table.find session.userId with
      | none => none
      | some user =>
        if user.credentialGeneration ≠ session.credentialGeneration then none else some session

theorem authenticate_eq_some {table : UserTable} {session accepted : AuthSession}
    (h : authenticate table (some session) = some accepted) (hbound : session.userId ≠ []) :
    ∃ user, table[session.userId]? = some user ∧
      user.credentialGeneration = session.credentialGeneration := by
  unfold authenticate at h
  rw [bind_some, if_neg (by simpa using hbound)] at h
  split at h
  · cases h
  · next user hfind =>
    split at h
    · cases h
    · next hgeneration =>
      exact ⟨user, (find_eq_some.1 hfind).1, not_not.1 hgeneration⟩

/-- The cluster's accounts, and every session minted, each with the record it was minted
from. A session may be presented to any node at any time. -/
structure LoginWorld where
  users : UserWorld := {}
  sessions : List (AuthSession × UserRecord) := []

inductive LoginEvent where
  | user (event : UserEvent)
  | login (node : NodeId) (username password bearerToken id : ByteString) (now : Nat)
deriving DecidableEq, Repr

namespace LoginWorld

section

variable (sha256 : ByteString → Hash256)
  (scrypt : ByteString → ByteString → Nat → Nat → Nat → Option Hash256)
  (manager : NodeId → SessionManager) (maxUsers : NodeId → Nat)

/-- A login mints a session of what `verify` says of the password. -/
def step (w : LoginWorld) : LoginEvent → Option LoginWorld
  | .user event => (w.users.step maxUsers event).map fun users => { w with users := users }
  | .login node username password bearerToken id now =>
    let table := (w.users.nodes node).memory
    (table.verifiedUser scrypt username password).map fun user =>
      let check := table.verify scrypt username password
      let session := (manager node).minted sha256 now bearerToken id check.roles check.userId
        check.credentialGeneration
      { w with sessions := (session, user) :: w.sessions }

end

/-- The record exists, or a session was minted from it. -/
def Known (w : LoginWorld) (user : UserRecord) : Prop :=
  w.users.Stored user ∨ ∃ session, (session, user) ∈ w.sessions

/-- An update or removal that takes effect starts a generation that no known record of
the account has. -/
def NewGeneration (t : Transition LoginWorld LoginEvent) : Prop :=
  match t.event with
  | .user (.change node call _) =>
    ∀ user ∈ (t.before.users.nodes node).memory.find call.userId,
      (call.change user).isSome = true → ∀ other, t.before.Known other →
        other.id = call.userId → other.credentialGeneration ≠ user.credentialGeneration + 1
  | _ => True

/-- Records of one account and generation have one credential. -/
structure OneCredential (w : LoginWorld) : Prop where
  consistent : w.users.Consistent
  drawn : ∀ user, w.Known user → user.id ∈ w.users.drawn
  agree : ∀ user other, w.Known user → w.Known other → user.id = other.id →
    user.credentialGeneration = other.credentialGeneration →
    user.passwordHash = other.passwordHash ∧ user.salt = other.salt ∧ user.roles = other.roles
  minted : ∀ session user, (session, user) ∈ w.sessions →
    session.userId = user.id ∧ session.credentialGeneration = user.credentialGeneration

theorem oneCredential_start : OneCredential {} where
  consistent := UserWorld.consistent_start
  drawn := by
    rintro user (h | ⟨_, h⟩)
    · exact UserWorld.consistent_start.drawn user h
    · cases h
  agree := by
    rintro user other (h | ⟨_, h⟩)
    · exact absurd (UserWorld.consistent_start.drawn user h) (not_mem_nil)
    · cases h
  minted := nofun

section

variable {sha256 : ByteString → Hash256}
  {scrypt : ByteString → ByteString → Nat → Nat → Nat → Option Hash256}
  {manager : NodeId → SessionManager} {maxUsers : NodeId → Nat} {w w' : LoginWorld}
  {event : UserEvent} {users : UserWorld}

theorem OneCredential.made_ne (h : w.OneCredential)
    (hnew : NewGeneration ⟨w, .user event, { w with users := users }⟩) {made old : UserRecord}
    (hmade : UserWorld.Made w.users users event made) (hold : w.Known old)
    (hid : made.id = old.id) : made.credentialGeneration ≠ old.credentialGeneration := by
  cases hmade with
  | created hdrawn hid' =>
    have hin := h.drawn old hold
    rw [← hid, hid'] at hin
    exact absurd hin hdrawn
  | @changed node call now user next hget hlive hchange hafter =>
    obtain ⟨hnext, _, hgeneration⟩ := UserWorld.change_eq_some hchange
    have hkey : old.id = call.userId :=
      hid.symm.trans (hnext.trans ((h.consistent.keyed node).1 _ _ hget))
    have hother := hnew user (find_eq_some.2 ⟨hget, hlive⟩) (by rw [hchange]; rfl) old hold hkey
    intro hsame
    exact hother (hsame.symm.trans hgeneration)

theorem OneCredential.user_step (h : w.OneCredential)
    (heffect : UserWorld.Effect maxUsers w.users event users)
    (hnew : NewGeneration ⟨w, .user event, { w with users := users }⟩) :
    OneCredential { w with users := users } := by
  have hconsistent := h.consistent.step heffect
  have hknown : ∀ user, Known { w with users := users } user →
      w.Known user ∨ UserWorld.Made w.users users event user := by
    rintro user (hstored | hsession)
    · exact (heffect.stored hstored).imp_left .inl
    · exact .inl (.inr hsession)
  refine ⟨hconsistent, ?_, ?_, h.minted⟩
  · rintro user (hstored | hsession)
    · exact hconsistent.drawn user hstored
    · exact heffect.drawn (h.drawn user (.inr hsession))
  · intro user other huser hother hid hgeneration
    rcases hknown user huser with hold | hmade
    · rcases hknown other hother with hold' | hmade'
      · exact h.agree user other hold hold' hid hgeneration
      · exact absurd hgeneration.symm (h.made_ne hnew hmade' hold hid.symm)
    · rcases hknown other hother with hold' | hmade'
      · exact absurd hgeneration (h.made_ne hnew hmade hold' hid)
      · rw [hmade.unique hmade']
        exact ⟨rfl, rfl, rfl⟩

variable {user : UserRecord}

theorem verifiedUser_mem {table : UserTable} {username password : ByteString}
    (h : table.verifiedUser scrypt username password = some user) :
    ∃ id : ByteString, table[id]? = some user := by
  unfold verifiedUser at h
  dsimp only at h
  split at h
  · cases h
  · obtain ⟨⟨id, found⟩, hfind, h⟩ := bind_eq_some_iff.1 h
    split at h
    · cases h
      exact ⟨id, (OrdMap.mem_toList _ _ _).1 (mem_of_find?_eq_some hfind)⟩
    · cases h

theorem OneCredential.login_step {node : NodeId} {session : AuthSession} {id : ByteString}
    (h : w.OneCredential) (hget : (w.users.nodes node).memory[id]? = some user)
    (hminted : session.userId = user.id ∧
      session.credentialGeneration = user.credentialGeneration) :
    OneCredential { w with sessions := (session, user) :: w.sessions } := by
  have hknown : ∀ other, Known { w with sessions := (session, user) :: w.sessions } other →
      w.Known other := by
    rintro other (hstored | ⟨session', hsession⟩)
    · exact .inl hstored
    · rcases mem_cons.1 hsession with heq | hsession
      · cases heq
        exact .inl ⟨node, .inl ⟨id, hget⟩⟩
      · exact .inr ⟨session', hsession⟩
  refine ⟨h.consistent, fun other hother => h.drawn other (hknown other hother),
    fun a b ha hb => h.agree a b (hknown a ha) (hknown b hb), ?_⟩
  intro session' user' hsession
  rcases mem_cons.1 hsession with heq | hsession
  · cases heq
    exact hminted
  · exact h.minted session' user' hsession

theorem OneCredential.step {event : LoginEvent} (h : w.OneCredential)
    (hstep : w.step sha256 scrypt manager maxUsers event = some w')
    (hnew : NewGeneration ⟨w, event, w'⟩) : w'.OneCredential := by
  cases event with
  | user event =>
    obtain ⟨users, husers, rfl⟩ := map_eq_some_iff.1 hstep
    exact h.user_step (UserWorld.effect_of_step husers) hnew
  | login node username password bearerToken id now =>
    obtain ⟨user, huser, rfl⟩ := map_eq_some_iff.1 hstep
    obtain ⟨key, hget⟩ := verifiedUser_mem huser
    refine h.login_step hget ?_
    unfold verify
    rw [huser]
    exact ⟨rfl, rfl⟩

/-- Whenever the authenticator of a node accepts a session bound to a user, the account's
record there has the password hash, salt and roles of the record the session was minted
from: in any run in which every update and removal starts a generation that no record of
the account has, be it in a table, in a file, sent, or one a session was minted from. -/
theorem session_honoured_under_its_credential {trace : List (Transition LoginWorld LoginEvent)}
    (hrun : Run (Traced (Computes (step sha256 scrypt manager maxUsers))) {} trace w)
    (hnew : Always (fun _ t => NewGeneration t) trace) {session accepted : AuthSession}
    {source : UserRecord} (hsession : (session, source) ∈ w.sessions)
    (hbound : session.userId ≠ []) {node : NodeId}
    (haccepts : authenticate (w.users.nodes node).memory (some session) = some accepted) :
    ∃ user, (w.users.nodes node).memory[session.userId]? = some user ∧
      user.passwordHash = source.passwordHash ∧ user.salt = source.salt ∧
      user.roles = source.roles := by
  have hinvariant : w.OneCredential :=
    hrun.invariant_of_always hnew oneCredential_start fun _ _ _ hstep h => h.step hstep
  obtain ⟨user, hget, hgeneration⟩ := authenticate_eq_some haccepts hbound
  obtain ⟨hid, hsame⟩ := hinvariant.minted session source hsession
  refine ⟨user, hget, hinvariant.agree user source (.inl ⟨node, .inl ⟨_, hget⟩⟩)
    (.inr ⟨session, hsession⟩) ?_ (hgeneration.trans hsame)⟩
  rw [(hinvariant.consistent.keyed node).1 _ _ hget, hid]

end

end LoginWorld

namespace TwoLogins

def sha256 (token : ByteString) : Hash256 := token

/-- A key derivation that keeps salt and password apart. -/
def scrypt (password salt : ByteString) (_ _ _ : Nat) : Option Hash256 := some (salt ++ password)

def manager (_ : NodeId) : SessionManager := { anonymousTtl := 1000, maxSessions := 4 }

def maxUsers (_ : NodeId) : Nat := 4

def id : ByteString := [7]

def step : LoginWorld → LoginEvent → Option LoginWorld :=
  LoginWorld.step sha256 scrypt manager maxUsers

def credential (password : ByteString) : Credential := ⟨[0], 0 :: password⟩

def setPassword (node : NodeId) (password : ByteString) (now : Nat) : LoginEvent :=
  .user (.change node (.update id (some (credential password)) none) now)

def written (node : NodeId) : LoginEvent := .user (.written node true)

def record (password : ByteString) (now version : Nat) (author : NodeId) : UserRecord :=
  { id := id, username := bytes "ann", kdf := 1, salt := [0], kdfN := defaultKdfN
    kdfR := defaultKdfR, kdfP := defaultKdfP, passwordHash := 0 :: password
    credentialGeneration := version, createdUnixMs := 5, updatedUnixMs := now, version := version
    updatedBy := author }

def created : List LoginEvent :=
  [.user (.create 1 id (bytes "ann") (some (credential [1])) [] 5), written 1, .user (.send 1),
    .user (.deliver 2 [record [1] 5 1 1]), written 2]

def known (w : LoginWorld) : List UserRecord :=
  [1, 2].flatMap (fun node => ((w.users.nodes node).memory.toList ++
    (w.users.nodes node).disk.toList).map (·.2)) ++ w.users.sent.map (·.2) ++ w.sessions.map (·.2)

def OnlyTwo (w : LoginWorld) : Prop := ∀ node ∉ [1, 2], w.users.nodes node = {}

def OnTwo : LoginEvent → Prop
  | .user event => event.node ∈ [1, 2]
  | .login .. => True

instance (event : LoginEvent) : Decidable (OnTwo event) :=
  match event with
  | .user event => inferInstanceAs (Decidable (event.node ∈ [1, 2]))
  | .login .. => inferInstanceAs (Decidable True)

theorem OnlyTwo.step {w w' : LoginWorld} {event : LoginEvent} (h : OnlyTwo w)
    (hstep : step w event = some w') (htwo : OnTwo event) : OnlyTwo w' := by
  intro node hnode
  cases event with
  | user event =>
    obtain ⟨users, husers, rfl⟩ := map_eq_some_iff.1 hstep
    refine ((UserWorld.effect_of_step husers).frame fun heq => ?_).trans (h node hnode)
    exact hnode (heq ▸ htwo)
  | login node username password bearerToken id now =>
    obtain ⟨user, _, rfl⟩ := map_eq_some_iff.1 hstep
    exact h _ hnode

theorem OnlyTwo.mem_known {w : LoginWorld} (h : OnlyTwo w) {user : UserRecord}
    (huser : w.Known user) : user ∈ known w := by
  unfold known
  -- an empty table or file holds nothing, so that a record is on one of the two
  have hnode : ∀ node id, (id, user) ∈
      (w.users.nodes node).memory.toList ++ (w.users.nodes node).disk.toList →
      user ∈ [1, 2].flatMap fun node => ((w.users.nodes node).memory.toList ++
        (w.users.nodes node).disk.toList).map (·.2) := by
    intro node id hmem
    by_cases htwo : node ∈ [1, 2]
    · exact mem_flatMap.2 ⟨node, htwo, List.mem_map_of_mem hmem⟩
    · rw [h node htwo] at hmem
      simp at hmem
  rw [mem_append, mem_append]
  rcases huser with ⟨node, ⟨id, hget⟩ | ⟨id, hget⟩ | hsent⟩ | ⟨session, hsession⟩
  · exact .inl (.inl (hnode node id (mem_append_left _ ((OrdMap.mem_toList _ _ _).2 hget))))
  · exact .inl (.inl (hnode node id (mem_append_right _ ((OrdMap.mem_toList _ _ _).2 hget))))
  · exact .inl (.inr (List.mem_map_of_mem hsent))
  · exact .inr (List.mem_map_of_mem hsession)

/-- `LoginWorld.NewGeneration` of the records on the two nodes. -/
def NewOnTwo (t : Transition LoginWorld LoginEvent) : Prop :=
  match t.event with
  | .user (.change node call _) =>
    ∀ user ∈ (t.before.users.nodes node).memory.find call.userId,
      (call.change user).isSome = true → ∀ other ∈ known t.before,
        other.id = call.userId → other.credentialGeneration ≠ user.credentialGeneration + 1
  | _ => True

instance : DecidablePred NewOnTwo := fun t => by
  unfold NewOnTwo
  split <;> infer_instance

theorem NewOnTwo.newGeneration {t : Transition LoginWorld LoginEvent} (h : NewOnTwo t)
    (htwo : OnlyTwo t.before) : LoginWorld.NewGeneration t := by
  unfold NewOnTwo at h
  unfold LoginWorld.NewGeneration
  split at h
  · intro user hfind hsome other hknown
    exact h user hfind hsome other (htwo.mem_known hknown)
  · trivial

/-- The password is changed on one node, and the session minted there is presented on the
other. -/
def changedOnce : List LoginEvent :=
  created ++ [.login 2 (bytes "ann") [1] [4] [5] 6, setPassword 1 [2] 6, written 1, .user (.send 1),
    .user (.deliver 2 [record [2] 6 2 1]), .login 1 (bytes "ann") [2] [9] [8] 10]

def session : AuthSession := (manager 1).minted sha256 10 [9] [8] [] id 2

theorem session_honoured_changed_once : ∃ trace w,
    Run (Traced (Computes step)) {} trace w ∧ trace.map (·.event) = changedOnce ∧
      authenticate (w.users.nodes 2).memory (some session) = some session ∧
      ∃ user, (w.users.nodes 2).memory[id]? = some user ∧
        user.passwordHash = [0, 2] ∧ user.salt = [0] ∧ user.roles = [] := by
  have hruns : ((changedOnce.foldlM (checkedStep step fun t => OnTwo t.event ∧ NewOnTwo t) {}).any
      fun w => decide ((session, record [2] 6 2 1) ∈ w.sessions ∧
        authenticate (w.users.nodes 2).memory (some session) = some session)) = true := by
    decide +kernel
  obtain ⟨w, hw, h⟩ := (Option.any_eq_true _ _).1 hruns
  obtain ⟨hsession, haccepts⟩ := of_decide_eq_true h
  obtain ⟨trace, run, halways, hevents⟩ := exists_checked_run hw
  refine ⟨trace, w, run, hevents, haccepts, ?_⟩
  have htwo := run.forall_before halways (P := OnlyTwo) (fun _ _ => rfl)
    fun _ _ _ hstep h hcond => h.step hstep hcond.1
  have hnew : Always (fun _ t => LoginWorld.NewGeneration t) trace := by
    intro past t hpast
    have ht : t ∈ trace := hpast.subset (mem_append_right _ mem_cons_self)
    exact (halways past t hpast).2.newGeneration (htwo t ht)
  exact LoginWorld.session_honoured_under_its_credential run hnew hsession (by decide) haccepts

/-- Both change the password, someone logs in on the first, and its record is replaced by
the other's. -/
def changedTwice : List LoginEvent :=
  created ++ [setPassword 1 [2] 6, written 1, setPassword 2 [3] 7, written 2,
    .login 1 (bytes "ann") [2] [9] [8] 10, .user (.send 2), .user (.deliver 1 [record [3] 7 2 2])]

/-- The session of a password that was overwritten still passes under the other one. -/
theorem session_of_replaced_password : ∃ w,
    Run (Computes step) {} changedTwice w ∧ (session, record [2] 6 2 1) ∈ w.sessions ∧
      authenticate (w.users.nodes 1).memory (some session) = some session ∧
      (w.users.nodes 1).memory[id]? = some (record [3] 7 2 2) ∧
      (record [3] 7 2 2).passwordHash ≠ (record [2] 6 2 1).passwordHash := by
  have hfinal : ((changedTwice.foldlM step {}).any fun w =>
      decide ((session, record [2] 6 2 1) ∈ w.sessions ∧
        authenticate (w.users.nodes 1).memory (some session) = some session ∧
        (w.users.nodes 1).memory[id]? = some (record [3] 7 2 2) ∧
        (record [3] 7 2 2).passwordHash ≠ (record [2] 6 2 1).passwordHash)) = true := by
    decide +kernel
  obtain ⟨w, hrun, h⟩ := (Option.any_eq_true _ _).1 hfinal
  exact ⟨w, run_of_foldlM hrun, of_decide_eq_true h⟩

end TwoLogins

end Macha
