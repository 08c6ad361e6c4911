import Macha.Metadata.Types

/-!
# User accounts

`UserStore`: the table of accounts every node holds in full, tombstones
included. A change raises a record's version; of two versions of a record the
one with the higher version is kept, at equal versions the tombstone, then the
one of the greater node id. Random ids, salts and the key derivation are
parameters of the operations that draw them.
-/

namespace Macha

open List Option

structure UserRecord where
  id : ByteString
  username : ByteString := []
  kdf : Nat := 1
  salt : ByteString := []
  kdfN : Nat := 0
  kdfR : Nat := 0
  kdfP : Nat := 0
  passwordHash : Hash256 := []
  roles : List ByteString := []
  credentialGeneration : Nat := 0
  createdUnixMs : Nat := 0
  updatedUnixMs : Nat := 0
  version : Nat := 0
  updatedBy : NodeId := 0
  tombstone : Bool := false
  recovery : ByteString := []
deriving DecidableEq, Repr

abbrev UserTable := OrdMap ByteString UserRecord

namespace UserRecord

/-- What a merge compares. -/
def rank (user : UserRecord) : Nat ×ₗ Bool ×ₗ NodeId :=
  toLex (user.version, toLex (user.tombstone, user.updatedBy))

variable {user other : UserRecord}

theorem rank_lt_of_version_lt (h : user.version < other.version) : user.rank < other.rank :=
  Prod.Lex.toLex_lt_toLex.2 (.inl h)

theorem version_le_of_rank_le (h : user.rank ≤ other.rank) : user.version ≤ other.version :=
  not_lt.1 fun hlt => absurd (rank_lt_of_version_lt hlt) (not_lt.2 h)

theorem tombstone_of_rank_le (h : user.rank ≤ other.rank) (hversion : other.version ≤ user.version)
    (htombstone : user.tombstone = true) :
    other.tombstone = true := by
  unfold rank at h
  rw [Prod.Lex.toLex_le_toLex, Prod.Lex.toLex_le_toLex] at h
  rcases h with h | ⟨_, h | ⟨h, _⟩⟩
  · exact absurd h (not_lt.2 hversion)
  · dsimp only at h
    rw [htombstone] at h
    exact absurd h (by cases other.tombstone <;> decide)
  · exact h.symm.trans htombstone

theorem rank_eq_iff : user.rank = other.rank ↔ user.version = other.version ∧
      user.tombstone = other.tombstone ∧ user.updatedBy = other.updatedBy := by
  simp [rank]

def revised (user : UserRecord) (now : Nat) (author : NodeId) : UserRecord :=
  { user with version := user.version + 1, updatedUnixMs := now, updatedBy := author }

/-- The record of a deleted account, which has no password left. -/
def removed (user : UserRecord) : UserRecord :=
  { user with
    tombstone := true
    credentialGeneration := user.credentialGeneration + 1
    passwordHash := Hash256.zero
    salt := replicate 16 0 }

end UserRecord

/-- Version first; then a tombstone wins; then the higher node id. -/
def incomingWins (existing incoming : UserRecord) : Bool :=
  if incoming.version ≠ existing.version then decide (existing.version < incoming.version)
  else if incoming.tombstone ≠ existing.tombstone then incoming.tombstone
  else decide (existing.updatedBy < incoming.updatedBy)

theorem incomingWins_iff (existing incoming : UserRecord) :
    incomingWins existing incoming = true ↔ existing.rank < incoming.rank := by
  unfold incomingWins UserRecord.rank
  rw [Prod.Lex.toLex_lt_toLex, Prod.Lex.toLex_lt_toLex]
  split
  · next hne =>
    simp only [decide_eq_true_eq]
    exact ⟨Or.inl, fun h => h.resolve_right fun h => hne h.1.symm⟩
  · next heq =>
    rw [not_not] at heq
    rw [heq]
    split
    · next hne => cases ht : incoming.tombstone <;> cases he : existing.tombstone <;> simp_all
    · next hsame =>
      rw [not_not] at hsame
      rw [hsame]
      simp

def roleViewStatus : ByteString := bytes "view_status"
def roleMediaViewer : ByteString := bytes "media_viewer"
def roleImporter : ByteString := bytes "importer"
def roleManager : ByteString := bytes "manager"
def roleManageUsers : ByteString := bytes "manage_users"

def knownRole (role : ByteString) : Bool :=
  role == roleMediaViewer || role == roleImporter || role == roleManager ||
    role == roleManageUsers || role == roleViewStatus

/-- Unknown roles are kept, each once; every capability implies viewing, and
everything implies seeing health. -/
def expandRoles (roles : List ByteString) : List ByteString :=
  let manageUsers := decide (roleManageUsers ∈ roles)
  let manager := decide (roleManager ∈ roles)
  let importer := decide (roleImporter ∈ roles)
  let viewer := manageUsers || manager || importer || decide (roleMediaViewer ∈ roles)
  let viewStatus := viewer || decide (roleViewStatus ∈ roles)
  let unknown := roles.foldl (fun out role =>
    if !knownRole role && decide (role ∉ out) then out ++ [role] else out) []
  unknown ++ (if manageUsers then [roleManageUsers] else []) ++
    (if manager then [roleManager] else []) ++ (if importer then [roleImporter] else []) ++
    (if viewer then [roleMediaViewer] else []) ++ (if viewStatus then [roleViewStatus] else [])

/-- Nobody becomes an account manager by expansion, and nobody stops being one. -/
theorem manageUsers_mem_expandRoles (roles : List ByteString) :
    roleManageUsers ∈ expandRoles roles ↔ roleManageUsers ∈ roles := by
  have hunknown : ∀ (l out : List ByteString), roleManageUsers ∉ out →
      roleManageUsers ∉ l.foldl (fun out role =>
        if !knownRole role && decide (role ∉ out) then out ++ [role] else out) out := by
    intro l
    induction l with
    | nil => exact fun _ h => h
    | cons role l ih =>
      intro out hout
      rw [foldl_cons]
      refine ih _ ?_
      split
      · next hadd =>
        rw [mem_append, mem_singleton, not_or]
        refine ⟨hout, fun heq => ?_⟩
        rw [← heq] at hadd
        exact absurd hadd (by simp [knownRole])
      · exact hout
  have hroles : roleManageUsers ≠ roleManager ∧ roleManageUsers ≠ roleImporter ∧
      roleManageUsers ≠ roleMediaViewer ∧ roleManageUsers ≠ roleViewStatus := by decide
  obtain ⟨h₁, h₂, h₃, h₄⟩ := hroles
  have hnone := hunknown roles [] (not_mem_nil)
  have hif : ∀ (c : Bool) role, roleManageUsers ≠ role →
      roleManageUsers ∉ (if c then [role] else []) := by
    intro c role hne
    cases c <;> simp [hne]
  unfold expandRoles
  simp only [mem_append, hnone, hif _ _ h₁, hif _ _ h₂, hif _ _ h₃, hif _ _ h₄, or_false, false_or]
  by_cases h : roleManageUsers ∈ roles <;> simp [h]

def anonymousUsername : ByteString := bytes "anonymous"

def maxUsernameLength : Nat := 64

def defaultKdfN : Nat := 2 ^ 15
def defaultKdfR : Nat := 8
def defaultKdfP : Nat := 1

/-- ASCII letters in lower case. -/
def normalizeUsername (username : ByteString) : ByteString :=
  username.map fun c => if 65 ≤ c ∧ c ≤ 90 then c + 32 else c

/-- A fresh salt and the hash of a password under it. -/
structure Credential where
  salt : ByteString
  hash : Hash256
deriving DecidableEq, Repr

namespace UserTable

/-- `find`: the account, unless there is none or it is deleted. -/
def find (table : UserTable) (userId : ByteString) : Option UserRecord :=
  table[userId]?.filter fun user => !user.tombstone

/-- `insert`, with the id it drew; no credential makes an account without a password. -/
def insertUser (maxUsers : Nat) (table : UserTable) (id username : ByteString)
    (credential : Option Credential) (roles : List ByteString) (now : Nat) (author : NodeId) :
    Option UserTable :=
  let normalized := normalizeUsername username
  if normalized.isEmpty || decide (maxUsernameLength < normalized.length) then none
  else
    let user : UserRecord :=
      { id := id, username := normalized, kdf := 0, roles := expandRoles roles
        credentialGeneration := 1, createdUnixMs := now, updatedUnixMs := now, version := 1
        updatedBy := author }
    let user := match credential with
      | none => user
      | some c =>
        { user with
          kdf := 1, salt := c.salt, kdfN := defaultKdfN, kdfR := defaultKdfR
          kdfP := defaultKdfP, passwordHash := c.hash }
    if table.toList.any fun (_, record) => !record.tombstone && record.username == normalized then
      none
    else if maxUsers ≤ table.size then none
    else some (table.insert id user)

variable {table after : UserTable} {credential : Option Credential} {author : NodeId}

theorem insertUser_eq_some {maxUsers : Nat} {id username : ByteString} {roles : List ByteString}
    {now : Nat}
    (h : table.insertUser maxUsers id username credential roles now author = some after) :
    ∃ user : UserRecord, after = table.insert id user ∧ user.id = id ∧ user.version = 1 ∧
      user.updatedBy = author ∧ table.size < maxUsers := by
  unfold insertUser at h
  dsimp only at h
  split at h
  · cases h
  · split at h
    · cases h
    · split at h
      · cases h
      · next hroom =>
        cases h
        refine ⟨_, rfl, ?_, ?_, ?_, not_le.1 hroom⟩
        · cases credential <;> rfl
        · cases credential <;> rfl
        · cases credential <;> rfl

/-- `mutate`: a change of a live record, which it may refuse. -/
def mutate (table : UserTable) (userId : ByteString) (change : UserRecord → Option UserRecord)
    (now : Nat) (author : NodeId) : Option UserTable :=
  (table.find userId).bind fun user => (change user).map fun next =>
    table.insert userId (next.revised now author)

theorem find_eq_some {userId : ByteString} {user : UserRecord} :
    table.find userId = some user ↔ table[userId]? = some user ∧ user.tombstone = false := by
  unfold find
  rw [filter_eq_some_iff, Bool.not_eq_true']

theorem mutate_eq_some {userId : ByteString} {change : UserRecord → Option UserRecord} {now : Nat} :
    table.mutate userId change now author = some after ↔
      ∃ user next, table[userId]? = some user ∧ user.tombstone = false ∧
        change user = some next ∧ after = table.insert userId (next.revised now author) := by
  unfold mutate
  rw [bind_eq_some_iff]
  constructor
  · rintro ⟨user, hfind, h⟩
    obtain ⟨next, hnext, rfl⟩ := map_eq_some_iff.1 h
    obtain ⟨hget, hlive⟩ := find_eq_some.1 hfind
    exact ⟨user, next, hget, hlive, hnext, rfl⟩
  · rintro ⟨user, next, hget, hlive, hnext, rfl⟩
    exact ⟨user, find_eq_some.2 ⟨hget, hlive⟩, by rw [hnext]; rfl⟩

/-- The change of `update`: a new password, new roles, or both. -/
def updateChange (credential : Option Credential) (roles : Option (List ByteString))
    (user : UserRecord) : Option UserRecord :=
  if credential.isSome && user.username == anonymousUsername then none
  else
    let user := match credential with
      | none => user
      | some c =>
        { user with
          salt := c.salt, kdf := 1, kdfN := defaultKdfN, kdfR := defaultKdfR
          kdfP := defaultKdfP, passwordHash := c.hash
          credentialGeneration := user.credentialGeneration + 1 }
    let user := match roles with
      | none => user
      | some roles =>
        { user with
          roles := expandRoles roles
          credentialGeneration :=
            if credential.isNone then user.credentialGeneration + 1
            else user.credentialGeneration }
    if credential.isSome || roles.isSome then some user else none

theorem updateChange_eq_some {roles : Option (List ByteString)} {user next : UserRecord}
    (h : updateChange credential roles user = some next) :
    next.id = user.id ∧ next.version = user.version ∧ next.tombstone = user.tombstone ∧
      next.credentialGeneration = user.credentialGeneration + 1 ∧
      next.roles = (roles.map expandRoles).getD user.roles := by
  unfold updateChange at h
  cases credential with
  | none =>
    cases roles with
    | none => cases h
    | some roles =>
      cases h
      exact ⟨rfl, rfl, rfl, rfl, rfl⟩
  | some c =>
    split at h
    · cases h
    · cases roles with
      | none =>
        cases h
        exact ⟨rfl, rfl, rfl, rfl, rfl⟩
      | some roles =>
        cases h
        exact ⟨rfl, rfl, rfl, rfl, rfl⟩

def removeChange (user : UserRecord) : Option UserRecord :=
  some user.removed

/-- A live account that may manage accounts. -/
def managesUsers (user : UserRecord) : Bool :=
  !user.tombstone && decide (roleManageUsers ∈ user.roles)

def soleUserManager (table : UserTable) (userId : ByteString) : Bool :=
  match table[userId]? with
  | none => false
  | some user =>
    managesUsers user &&
      table.toList.all fun (id, record) => !(managesUsers record && decide (id ≠ userId))

theorem soleUserManager_eq_true {userId : ByteString} : table.soleUserManager userId = true ↔
      (∃ user, table[userId]? = some user ∧ managesUsers user = true) ∧
        ∀ id user, table[id]? = some user → managesUsers user = true → id = userId := by
  unfold soleUserManager
  cases hget : table[userId]? with
  | none => simp
  | some user =>
    simp only [Bool.and_eq_true, List.all_eq_true, Prod.forall, OrdMap.mem_toList,
      some.injEq, exists_eq_left', Bool.not_eq_true', Bool.and_eq_false_imp,
      decide_eq_false_iff_not, not_not]

/-- `apply_locked`, refused by `none`. -/
def applyLocked (maxUsers : Nat) (table : UserTable) (incoming : UserRecord) : Option UserTable :=
  match table[incoming.id]? with
  | some existing =>
    if incomingWins existing incoming then some (table.insert incoming.id incoming) else none
  | none => if maxUsers ≤ table.size then none else some (table.insert incoming.id incoming)

/-- `apply_all`: the table, and whether a record changed it. -/
def applyAll (maxUsers : Nat) (table : UserTable) (values : List UserRecord) : UserTable × Bool :=
  values.foldl (fun (table, changed) value =>
    match applyLocked maxUsers table value with
    | some next => (next, true)
    | none => (table, changed)) (table, false)

/-- The live record of a username, if the password is the one it was given; a key
derivation that throws is `none`. -/
def verifiedUser (scrypt : ByteString → ByteString → Nat → Nat → Nat → Option Hash256)
    (table : UserTable) (username password : ByteString) : Option UserRecord :=
  let normalized := normalizeUsername username
  if normalized = anonymousUsername then none
  else
    (table.toList.find? fun (_, record) =>
      !record.tombstone && record.username == normalized).bind fun (_, user) =>
        if user.kdf = 1 ∧ scrypt password user.salt user.kdfN user.kdfR user.kdfP =
            some user.passwordHash then
          some user
        else none

end UserTable

structure UserCredentialCheck where
  ok : Bool := false
  userId : ByteString := []
  roles : List ByteString := []
  credentialGeneration : Nat := 0
deriving DecidableEq, Repr

namespace UserTable

def verify (scrypt : ByteString → ByteString → Nat → Nat → Nat → Option Hash256)
    (table : UserTable) (username password : ByteString) : UserCredentialCheck :=
  match table.verifiedUser scrypt username password with
  | none => {}
  | some user =>
    { ok := true, userId := user.id, roles := expandRoles user.roles
      credentialGeneration := user.credentialGeneration }

end UserTable

/-- A call of `update` or `remove`, the password already hashed. -/
inductive UserCall where
  | update (userId : ByteString) (credential : Option Credential)
      (roles : Option (List ByteString))
  | remove (userId : ByteString)
deriving DecidableEq, Repr

namespace UserCall

def userId : UserCall → ByteString
  | update userId _ _ => userId
  | remove userId => userId

def change : UserCall → UserRecord → Option UserRecord
  | update _ credential roles => UserTable.updateChange credential roles
  | remove _ => UserTable.removeChange

/-- The calls that look whether the account is the last manager. -/
def demotes : UserCall → Bool
  | update _ _ none => false
  | update _ _ (some roles) => decide (roleManageUsers ∉ roles)
  | remove _ => true

end UserCall

end Macha
