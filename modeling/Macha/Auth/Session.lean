import Macha.Library.Wire
import Macha.Metadata.Types

/-!
# Sessions

`SessionManager`: the sessions a node knows, by the hash of their bearer token.
Every node keeps a copy of all of them; records are merged with the higher
version winning, and a file keeps them over a restart. A revocation is a record
like any other, with a flag set and a version higher by one.
-/

namespace Macha

open List Option

structure AuthSession where
  id : ByteString
  tokenHash : Hash256
  roles : List ByteString
  userId : ByteString
  credentialGeneration : Nat
  createdUnixMs : Nat
  expiresUnixMs : Nat
  version : Nat
  revoked : Bool
deriving DecidableEq, Repr

def sessionLive (session : AuthSession) (nowUnixMs : Nat) : Bool :=
  !session.revoked && decide (nowUnixMs < session.expiresUnixMs)

theorem sessionLive_eq_true {session : AuthSession} {now : Nat} :
    sessionLive session now = true ↔ session.revoked = false ∧ now < session.expiresUnixMs := by
  simp [sessionLive]

namespace AuthSession

def maxRoles : Nat := 64

def maxRoleLength : Nat := 64

def maxUserIdLength : Nat := 128

def maxIdLength : Nat := 128

/-- `MACHSES1`, for sessions without a user. -/
def magicV1 : ByteString := bytes "MACHSES1"

/-- `MACHSES2`, with the two fields of the user. -/
def magicV2 : ByteString := bytes "MACHSES2"

/-- The widths the source's types give the fields, and strings a length fits. -/
structure Sized (s : AuthSession) : Prop where
  id : s.id.length < 256 ^ 4
  tokenHash : s.tokenHash.length = 32
  roleCount : s.roles.length < 256 ^ 4
  role : ∀ role ∈ s.roles, role.length < 256 ^ 4
  userId : s.userId.length < 256 ^ 4
  credentialGeneration : s.credentialGeneration < 256 ^ 8
  createdUnixMs : s.createdUnixMs < 256 ^ 8
  expiresUnixMs : s.expiresUnixMs < 256 ^ 8
  version : s.version < 256 ^ 8

instance (s : AuthSession) : Decidable s.Sized :=
  decidable_of_iff (s.id.length < 256 ^ 4 ∧ s.tokenHash.length = 32 ∧ s.roles.length < 256 ^ 4 ∧
      (∀ role ∈ s.roles, role.length < 256 ^ 4) ∧ s.userId.length < 256 ^ 4 ∧
      s.credentialGeneration < 256 ^ 8 ∧ s.createdUnixMs < 256 ^ 8 ∧
      s.expiresUnixMs < 256 ^ 8 ∧ s.version < 256 ^ 8)
    ⟨fun ⟨a, b, c, d, e, f, g, h, i⟩ => ⟨a, b, c, d, e, f, g, h, i⟩,
      fun ⟨a, b, c, d, e, f, g, h, i⟩ => ⟨a, b, c, d, e, f, g, h, i⟩⟩

def carriesIdentity (s : AuthSession) : Bool :=
  decide (s.userId ≠ []) || decide (s.credentialGeneration ≠ 0)

/-- The fields that only the second format has. -/
def encodeIdentity (v2 : Bool) (s : AuthSession) : ByteString :=
  if v2 then writeBlob s.userId ++ writeUint 8 s.credentialGeneration else []

def encode (v2 : Bool) (s : AuthSession) : ByteString :=
  writeBlob s.id ++ (s.tokenHash ++ (writeUint 4 s.roles.length ++ (s.roles.flatMap writeBlob ++
    (writeUint 8 s.createdUnixMs ++ (writeUint 8 s.expiresUnixMs ++ (writeUint 8 s.version ++
      (writeUint 1 s.revoked.toNat ++ encodeIdentity v2 s)))))))

def identityReader (v2 : Bool) : Reader (ByteString × Nat) :=
  if v2 then do
    let userId ← Reader.blob maxUserIdLength
    let generation ← Reader.uint 8
    pure (userId, generation)
  else pure ([], 0)

/-- `decode`. -/
def reader (v2 : Bool) : Reader AuthSession := do
  let id ← Reader.blob maxIdLength
  let tokenHash ← Reader.fixed 32
  let roleCount ← Reader.uint 4
  Reader.check (roleCount ≤ maxRoles)
  let roles ← (Reader.blob maxRoleLength).many roleCount
  let created ← Reader.uint 8
  let expires ← Reader.uint 8
  let version ← Reader.uint 8
  let revoked ← Reader.uint 1
  let identity ← identityReader v2
  Reader.check (id ≠ [])
  pure
    { id := id
      tokenHash := tokenHash
      roles := roles
      userId := identity.1
      credentialGeneration := identity.2
      createdUnixMs := created
      expiresUnixMs := expires
      version := version
      revoked := decide (revoked ≠ 0) }

variable {s : AuthSession} {v2 : Bool}

theorem reads_identity (sized : s.Sized) (h : s.carriesIdentity = true → v2 = true) :
    ReadsOrRejects (identityReader v2) (encodeIdentity v2 s)
      (s.userId, s.credentialGeneration) := by
  cases v2 with
  | true =>
    refine (ReadsOrRejects.blob sized.userId).bind (.inl ?_)
    exact (Reads.uint sized.credentialGeneration).map fun generation => (s.userId, generation)
  | false =>
    have hplain : s.userId = [] ∧ s.credentialGeneration = 0 := by
      by_contra hne
      refine Bool.noConfusion (h ?_)
      unfold carriesIdentity
      by_cases hid : s.userId = []
      · have hgeneration : s.credentialGeneration ≠ 0 := fun hg => hne ⟨hid, hg⟩
        simp [hgeneration]
      · simp [hid]
    rw [hplain.1, hplain.2]
    exact .inl (Reads.pure ([], 0))

theorem reads_encode (sized : s.Sized) (h : s.carriesIdentity = true → v2 = true) :
    ReadsOrRejects (reader v2) (s.encode v2) s := by
  have hflag : s.revoked.toNat < 256 ^ 1 := by cases s.revoked <;> decide
  have hrevoked : decide (s.revoked.toNat ≠ 0) = s.revoked := by cases s.revoked <;> rfl
  refine (ReadsOrRejects.blob sized.id).bind (.bind (.inl (Reads.fixed sized.tokenHash))
    (.bind (.inl (Reads.uint sized.roleCount)) (.check_bind fun _ =>
      .bind (.many fun role hrole => .blob (sized.role role hrole))
        (.bind (.inl (Reads.uint sized.createdUnixMs)) (.bind
          (.inl (Reads.uint sized.expiresUnixMs)) (.bind (.inl (Reads.uint sized.version))
            (.bind (.inl (Reads.uint hflag)) ?_)))))))
  rw [← append_nil (encodeIdentity v2 s)]
  refine (reads_identity sized h).bind (.check_bind fun _ => .inl ?_)
  rw [hrevoked]
  exact Reads.pure s

end AuthSession

def encodeSessions (values : List AuthSession) : ByteString :=
  let v2 := values.any AuthSession.carriesIdentity
  (if v2 then AuthSession.magicV2 else AuthSession.magicV1) ++
    (writeUint 4 values.length ++ values.flatMap (AuthSession.encode v2))

def sessionsReader : Reader (List AuthSession) := do
  let got ← Reader.fixed 8
  Reader.check (got = AuthSession.magicV1 ∨ got = AuthSession.magicV2)
  let count ← Reader.uint 4
  Reader.check (count ≤ 65536)
  (AuthSession.reader (decide (got = AuthSession.magicV2))).many count

def decodeSessions (data : ByteString) : Option (List AuthSession) := sessionsReader.whole data

theorem decodeSessions_encodeSessions {values read : List AuthSession}
    (hcount : values.length < 256 ^ 4) (sized : ∀ s ∈ values, s.Sized)
    (h : decodeSessions (encodeSessions values) = some read) : read = values := by
  suffices hreads : ReadsOrRejects sessionsReader (encodeSessions values) values from
    hreads.whole h
  have hcarries : ∀ s ∈ values, s.carriesIdentity = true →
      values.any AuthSession.carriesIdentity = true := fun s hs hc => List.any_eq_true.2 ⟨s, hs, hc⟩
  have hmany v2 (hv2 : values.any AuthSession.carriesIdentity = v2) :
      ReadsOrRejects ((AuthSession.reader v2).many values.length)
        (values.flatMap (AuthSession.encode v2)) values :=
    .many fun s hs => AuthSession.reads_encode (sized s hs) fun hc => hv2 ▸ hcarries s hs hc
  unfold encodeSessions sessionsReader
  cases hv2 : values.any AuthSession.carriesIdentity with
  | true =>
    refine .bind (.inl (Reads.fixed rfl)) (.check_bind fun _ =>
      .bind (.inl (Reads.uint hcount)) (.check_bind fun _ => ?_))
    exact hmany true hv2
  | false =>
    refine .bind (.inl (Reads.fixed rfl)) (.check_bind fun _ =>
      .bind (.inl (Reads.uint hcount)) (.check_bind fun _ => ?_))
    exact hmany false hv2

theorem length_le_encodeSessions (values : List AuthSession) :
    values.length ≤ (encodeSessions values).length := by
  have hrecords v2 : values.length ≤ (values.flatMap (AuthSession.encode v2)).length := by
    induction values with
    | nil => exact Nat.le_refl 0
    | cons s values ih =>
      have hs : 0 < (s.encode v2).length := by
        unfold AuthSession.encode
        rw [length_append, length_writeBlob]
        omega
      rw [flatMap_cons, length_append, length_cons]
      omega
  unfold encodeSessions
  rw [length_append, length_append]
  have h := hrecords (values.any AuthSession.carriesIdentity)
  omega

/-- `SessionManager`, without the times at which records arrived: only the choice
of what to gossip reads those. -/
structure SessionManager where
  byTokenHash : OrdMap Hash256 AuthSession := ∅
  anonymousTtl : Nat
  maxSessions : Nat

namespace SessionManager

def find (m : SessionManager) (nowUnixMs : Nat) (tokenHash : Hash256) : Option AuthSession :=
  m.byTokenHash[tokenHash]?.filter fun session => sessionLive session nowUnixMs

def validate (sha256 : ByteString → Hash256) (m : SessionManager) (nowUnixMs : Nat)
    (token : ByteString) : Option AuthSession :=
  m.find nowUnixMs (sha256 token)

/-- The record `create` makes for a new token. -/
def minted (sha256 : ByteString → Hash256) (m : SessionManager) (nowUnixMs : Nat)
    (bearerToken id : ByteString) (roles : List ByteString) (userId : ByteString)
    (credentialGeneration : Nat) : AuthSession where
  id := id
  tokenHash := sha256 bearerToken
  roles := roles
  userId := userId
  credentialGeneration := credentialGeneration
  createdUnixMs := nowUnixMs
  expiresUnixMs := (nowUnixMs + m.anonymousTtl) % 2 ^ 64
  version := 1
  revoked := false

/-- `create`, given the record: none when the table is full. -/
def create (m : SessionManager) (session : AuthSession) : Option SessionManager :=
  if m.maxSessions ≤ m.byTokenHash.size then none
  else some { m with byTokenHash := m.byTokenHash.insert session.tokenHash session }

def apply (m : SessionManager) (incoming : AuthSession) : SessionManager :=
  match m.byTokenHash[incoming.tokenHash]? with
  | some existing =>
    if incoming.version < existing.version then m
    -- on a tie the revoked record wins
    else if existing.version = incoming.version ∧ existing.revoked = true then m
    else { m with byTokenHash := m.byTokenHash.insert incoming.tokenHash incoming }
  | none =>
    if m.maxSessions ≤ m.byTokenHash.size then m
    else { m with byTokenHash := m.byTokenHash.insert incoming.tokenHash incoming }

/-- The record a revocation leaves in place of the one there was. -/
def revokedRecord (session : AuthSession) : AuthSession :=
  { session with revoked := true, version := (session.version + 1) % 2 ^ 64 }

/-- `revoke`, with the record it returns. -/
def revoke (m : SessionManager) (tokenHash : Hash256) : SessionManager × Option AuthSession :=
  match m.byTokenHash[tokenHash]? with
  | none => (m, none)
  | some session =>
    ({ m with byTokenHash := m.byTokenHash.insert tokenHash (revokedRecord session) },
      some (revokedRecord session))

def pruneExpired (m : SessionManager) (nowUnixMs : Nat) : SessionManager :=
  { m with byTokenHash :=
      m.byTokenHash.filter fun _ session => decide (nowUnixMs < session.expiresUnixMs) }

/-- What `persist` writes. -/
def persisted (m : SessionManager) : ByteString :=
  encodeSessions ((m.byTokenHash.toList.map Prod.snd).take m.maxSessions)

/-- The loop of the constructor over the sessions of the file. -/
def loadSessions (maxSessions nowUnixMs : Nat) :
    List AuthSession → OrdMap Hash256 AuthSession → OrdMap Hash256 AuthSession
  | [], table => table
  | session :: rest, table =>
    if sessionLive session nowUnixMs = true then
      (if maxSessions ≤ table.size then table
      else loadSessions maxSessions nowUnixMs rest (table.insert session.tokenHash session))
    else loadSessions maxSessions nowUnixMs rest table

def maxPersistedBytes : Nat := 16 * 1024 * 1024

/-- The sessions of a persisted file: none from one that is too large or is not decoded. -/
def persistedSessions : Option ByteString → List AuthSession
  | none => []
  | some data => if maxPersistedBytes < data.length then [] else (decodeSessions data).getD []

/-- The constructor. -/
def load (anonymousTtl maxSessions : Nat) (file : Option ByteString) (nowUnixMs : Nat) :
    SessionManager where
  byTokenHash := loadSessions maxSessions nowUnixMs (persistedSessions file) ∅
  anonymousTtl := anonymousTtl
  maxSessions := maxSessions

variable {m : SessionManager} {k : Hash256} {s : AuthSession}

theorem find_eq_none {now : Nat} :
    m.find now k = none ↔ ∀ s, m.byTokenHash[k]? = some s → sessionLive s now = false := by
  unfold find
  simp

theorem create_eq_some {session : AuthSession} {next : SessionManager}
    (h : m.create session = some next) :
    next = { m with byTokenHash := m.byTokenHash.insert session.tokenHash session } := by
  unfold create at h
  split at h
  · cases h
  · exact (some_inj.1 h).symm

/-- A record merged in replaces the one there was only if its version is not lower,
and not a revoked one of its own version. -/
theorem apply_cases (m : SessionManager) (incoming : AuthSession) : (m.apply incoming =
        { m with byTokenHash := m.byTokenHash.insert incoming.tokenHash incoming } ∧
      (∀ existing, m.byTokenHash[incoming.tokenHash]? = some existing →
        existing.version ≤ incoming.version ∧
          (existing.version = incoming.version → existing.revoked = false)) ∧
      (m.byTokenHash[incoming.tokenHash]? = none → m.byTokenHash.size < m.maxSessions)) ∨
    (m.apply incoming = m ∧ (∀ existing, m.byTokenHash[incoming.tokenHash]? = some existing →
        incoming.version < existing.version ∨
          (existing.version = incoming.version ∧ existing.revoked = true))) := by
  unfold apply
  cases h : m.byTokenHash[incoming.tokenHash]? with
  | none =>
    by_cases hfull : m.maxSessions ≤ m.byTokenHash.size
    · exact .inr ⟨if_pos hfull, nofun⟩
    · exact .inl ⟨if_neg hfull, nofun, fun _ => Nat.lt_of_not_le hfull⟩
  | some existing =>
    by_cases hlow : incoming.version < existing.version
    · refine .inr ⟨if_pos hlow, fun e he => ?_⟩
      cases he
      exact .inl hlow
    · by_cases htie : existing.version = incoming.version ∧ existing.revoked = true
      · refine .inr ⟨?_, fun e he => ?_⟩
        · show (if _ then _ else _) = m
          rw [if_neg hlow, if_pos htie]
        · cases he
          exact .inr htie
      · refine .inl ⟨?_, fun e he => ?_, nofun⟩
        · show (if _ then _ else _) = _
          rw [if_neg hlow, if_neg htie]
        · cases he
          refine ⟨Nat.le_of_not_lt hlow, fun heq => ?_⟩
          cases hr : existing.revoked with
          | false => rfl
          | true => exact absurd ⟨heq, hr⟩ htie

theorem getElem?_pruneExpired {now : Nat} (h : (m.pruneExpired now).byTokenHash[k]? = some s) :
    m.byTokenHash[k]? = some s := by
  rw [pruneExpired, OrdMap.getElem?_filter] at h
  exact (filter_eq_some_iff.1 h).1

theorem getElem?_loadSessions {maxSessions now : Nat} {values : List AuthSession}
    {table : OrdMap Hash256 AuthSession}
    (h : (loadSessions maxSessions now values table)[k]? = some s) :
    table[k]? = some s ∨ s ∈ values ∧ s.tokenHash = k ∧ sessionLive s now = true := by
  induction values generalizing table with
  | nil => exact .inl h
  | cons session rest ih =>
    have hlater (h : table[k]? = some s ∨ s ∈ rest ∧ s.tokenHash = k ∧ sessionLive s now = true) :
        table[k]? = some s ∨ s ∈ session :: rest ∧ s.tokenHash = k ∧ sessionLive s now = true :=
      h.imp_right fun ⟨hmem, hs⟩ => ⟨mem_cons_of_mem _ hmem, hs⟩
    unfold loadSessions at h
    by_cases hlive : sessionLive session now = true
    · rw [if_pos hlive] at h
      by_cases hfull : maxSessions ≤ table.size
      · rw [if_pos hfull] at h
        exact .inl h
      · rw [if_neg hfull] at h
        rcases ih h with h | h
        · rcases OrdMap.getElem?_insert_eq_some h with ⟨hk, rfl⟩ | ⟨-, h⟩
          · exact .inr ⟨mem_cons_self, hk, hlive⟩
          · exact .inl h
        · exact hlater (.inr h)
    · rw [if_neg hlive] at h
      exact hlater (ih h)

theorem getElem?_load {anonymousTtl maxSessions now : Nat} {file : Option ByteString}
    (h : (load anonymousTtl maxSessions file now).byTokenHash[k]? = some s) :
    s ∈ persistedSessions file ∧ s.tokenHash = k ∧ sessionLive s now = true := by
  rcases getElem?_loadSessions h with h | h
  · cases h
  · exact h

theorem mem_persistedSessions {session : AuthSession}
    (sized : ∀ (k : Hash256) s, m.byTokenHash[k]? = some s → s.Sized)
    (h : session ∈ persistedSessions (some m.persisted)) :
    ∃ k : Hash256, m.byTokenHash[k]? = some session := by
  have hmem : ∀ s ∈ (m.byTokenHash.toList.map Prod.snd).take m.maxSessions,
      ∃ k : Hash256, m.byTokenHash[k]? = some s := by
    intro s hs
    obtain ⟨⟨k, v⟩, hitem, rfl⟩ := List.mem_map.1 (mem_of_mem_take hs)
    exact ⟨k, (OrdMap.mem_toList _ k v).1 hitem⟩
  change session ∈ if maxPersistedBytes < m.persisted.length then []
    else (decodeSessions m.persisted).getD [] at h
  split at h
  · cases h
  · next hbytes =>
    have hcount := length_le_encodeSessions
      ((m.byTokenHash.toList.map Prod.snd).take m.maxSessions)
    have hsmall : m.persisted.length < 256 ^ 4 :=
      Nat.lt_of_le_of_lt (Nat.le_of_not_lt hbytes) (by decide)
    cases hdecode : decodeSessions m.persisted with
    | none =>
      rw [hdecode] at h
      cases h
    | some values =>
      have heq := decodeSessions_encodeSessions (Nat.lt_of_le_of_lt hcount hsmall)
        (fun s hs => (hmem s hs).elim fun k hk => sized k s hk) hdecode
      rw [hdecode, getD_some, heq] at h
      exact hmem session h

end SessionManager

end Macha
