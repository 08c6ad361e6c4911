import Macha.Auth.Users
import Macha.Library.Run

/-!
# User tables over a cluster

Nodes that create, change and remove accounts, write their table to disk and send
it to each other. A change is in memory, and may be sent, before it is written;
a crash brings back the table last written. Any record ever sent may arrive
anywhere, at any time and again.
-/

namespace Macha

open List OrdMap

/-! ## Tables that merge -/

namespace UserTable

def Keyed (table : UserTable) : Prop :=
  ∀ (id : ByteString) (user : UserRecord), table[id]? = some user → user.id = id

/-- The table has the record or one that wins over it. -/
def Covers (table : UserTable) (user : UserRecord) : Prop :=
  ∃ kept : UserRecord, table[user.id]? = some kept ∧ user.rank ≤ kept.rank

variable {table : UserTable} {id : ByteString} {user incoming : UserRecord} {maxUsers : Nat}

theorem Keyed.insert (h : table.Keyed) (hid : user.id = id) : Keyed (table.insert id user) := by
  intro other record hget
  rcases getElem?_insert_eq_some hget with ⟨rfl, rfl⟩ | ⟨_, hget⟩
  · exact hid
  · exact h other record hget

theorem Covers.insert {user new : UserRecord} (h : table.Covers user)
    (hnew : ∀ old : UserRecord, table[new.id]? = some old → old.rank ≤ new.rank) :
    Covers (table.insert new.id new) user := by
  obtain ⟨kept, hget, hrank⟩ := h
  by_cases hid : new.id = user.id
  · refine ⟨new, by rw [hid, getElem?_insert_self], hrank.trans (hnew kept ?_)⟩
    rw [hid, hget]
  · exact ⟨kept, by rw [getElem?_insert_of_ne _ _ hid, hget], hrank⟩

theorem covers_insert_self (table : UserTable) (new : UserRecord) :
    Covers (table.insert new.id new) new :=
  ⟨new, getElem?_insert_self _ _ _, le_rfl⟩

theorem applyLocked_eq_some {table after : UserTable}
    (h : table.applyLocked maxUsers incoming = some after) :
    after = table.insert incoming.id incoming ∧
      (∀ old : UserRecord, table[incoming.id]? = some old → old.rank ≤ incoming.rank) ∧
        (table[incoming.id]? = none → table.size < maxUsers) := by
  unfold applyLocked at h
  split at h
  · next existing hget =>
    split at h
    · next hwins =>
      cases h
      refine ⟨rfl, fun old hold => ?_, fun hnone => ?_⟩
      · rw [hget] at hold
        cases hold
        exact ((incomingWins_iff _ _).1 hwins).le
      · rw [hget] at hnone
        cases hnone
    · cases h
  · next hget =>
    split at h
    · cases h
    · next hroom =>
      cases h
      refine ⟨rfl, fun old hold => ?_, fun _ => not_le.1 hroom⟩
      rw [hget] at hold
      cases hold

def applyRecord (maxUsers : Nat) (table : UserTable) (incoming : UserRecord) : UserTable :=
  (table.applyLocked maxUsers incoming).getD table

theorem applyAll_fst (maxUsers : Nat) (table : UserTable) (values : List UserRecord) :
    (table.applyAll maxUsers values).1 = values.foldl (applyRecord maxUsers) table := by
  refine (foldl_hom Prod.fst fun state incoming => ?_).symm
  unfold applyRecord
  dsimp only
  cases state.1.applyLocked maxUsers incoming <;> rfl

variable {values : List UserRecord}

theorem foldl_applyRecord {P : UserTable → Prop} (start : P table)
    (keeps : ∀ table incoming, incoming ∈ values → P table →
      (∀ old : UserRecord, table[incoming.id]? = some old → old.rank ≤ incoming.rank) →
      (table[incoming.id]? = none → table.size < maxUsers) →
      P (table.insert incoming.id incoming)) :
    P (values.foldl (applyRecord maxUsers) table) := by
  refine foldlRecOn values _ start fun table htable incoming hincoming => ?_
  unfold applyRecord
  cases h : table.applyLocked maxUsers incoming with
  | none => exact htable
  | some after =>
    obtain ⟨rfl, hwins, hroom⟩ := applyLocked_eq_some h
    exact keeps table incoming hincoming htable hwins hroom

theorem Keyed.applyAll (h : table.Keyed) (values : List UserRecord) :
    Keyed (table.applyAll maxUsers values).1 := by
  rw [applyAll_fst]
  exact foldl_applyRecord h fun table incoming _ hkeyed _ _ => hkeyed.insert rfl

theorem applyAll_eq_some (h : (table.applyAll maxUsers values).1[id]? = some user) :
    table[id]? = some user ∨ user ∈ values := by
  rw [applyAll_fst] at h
  refine foldl_applyRecord (P := fun table' => table'[id]? = some user →
    table[id]? = some user ∨ user ∈ values) .inl ?_ h
  intro table' incoming hincoming ih _ _ hget
  rcases getElem?_insert_eq_some hget with ⟨rfl, rfl⟩ | ⟨_, hget⟩
  · exact .inr hincoming
  · exact ih hget

theorem Covers.foldl (h : table.Covers user) (values : List UserRecord) :
    Covers (values.foldl (applyRecord maxUsers) table) user :=
  foldl_applyRecord (P := (Covers · user)) h
    fun _ _ _ hcovers hwins _ => hcovers.insert hwins

theorem Covers.applyAll (h : table.Covers user) (values : List UserRecord) :
    Covers (table.applyAll maxUsers values).1 user := by
  rw [applyAll_fst]
  exact h.foldl values

def Full (maxUsers : Nat) (table : UserTable) (id : ByteString) : Prop :=
  table[id]? = none ∧ maxUsers ≤ table.size

theorem Full.insert {id other : ByteString} (h : table.Full maxUsers id) (hne : other ≠ id)
    (user : UserRecord) :
    Full maxUsers (table.insert other user) id := by
  refine ⟨?_, h.2.trans Std.ExtTreeMap.size_le_size_insert⟩
  rw [getElem?_insert_of_ne _ _ hne]
  exact h.1

theorem Full.foldl (h : table.Full maxUsers id) (values : List UserRecord) :
    Full maxUsers (values.foldl (applyRecord maxUsers) table) id := by
  refine foldl_applyRecord (P := (Full maxUsers · id)) h ?_
  intro table incoming _ hfull _ hroom
  refine hfull.insert (fun heq => ?_) incoming
  rw [heq] at hroom
  exact absurd (hroom hfull.1) (not_lt.2 hfull.2)

theorem Full.applyAll (h : table.Full maxUsers id) (values : List UserRecord) :
    Full maxUsers (table.applyAll maxUsers values).1 id := by
  rw [applyAll_fst]
  exact h.foldl values

theorem covers_or_full_of_refused (h : table.applyLocked maxUsers incoming = none) :
    table.Covers incoming ∨ table.Full maxUsers incoming.id := by
  unfold applyLocked at h
  split at h
  · next existing hget =>
    split at h
    · cases h
    · next hloses =>
      rw [incomingWins_iff, not_lt] at hloses
      exact .inl ⟨existing, hget, hloses⟩
  · next hget =>
    split at h
    · next hfull => exact .inr ⟨hget, hfull⟩
    · cases h

theorem covers_or_full_applyRecord (maxUsers : Nat) (table : UserTable) (incoming : UserRecord) :
    Covers (table.applyRecord maxUsers incoming) incoming ∨
      Full maxUsers (table.applyRecord maxUsers incoming) incoming.id := by
  unfold applyRecord
  cases h : table.applyLocked maxUsers incoming with
  | none => exact covers_or_full_of_refused h
  | some after =>
    rw [(applyLocked_eq_some h).1]
    exact .inl (covers_insert_self _ _)

theorem covers_or_full_of_mem (h : user ∈ values) : Covers (table.applyAll maxUsers values).1 user ∨
      Full maxUsers (table.applyAll maxUsers values).1 user.id := by
  rw [applyAll_fst]
  induction values generalizing table with
  | nil => cases h
  | cons incoming values ih =>
    rcases mem_cons.1 h with rfl | h
    · exact (covers_or_full_applyRecord maxUsers table user).imp (·.foldl values)
        (·.foldl values)
    · exact ih h

end UserTable

/-! ## Nodes and events -/

structure UserNode where
  memory : UserTable := ∅
  disk : UserTable := ∅
  /-- `persist_mutex_` is held: a change is not yet written. -/
  persisting : Bool := false

/-- The nodes, who sent and who received which records, and the ids drawn. -/
structure UserWorld where
  nodes : NodeId → UserNode := fun _ => {}
  sent : List (NodeId × UserRecord) := []
  received : List (NodeId × UserRecord) := []
  drawn : List ByteString := []

namespace UserNode

def Keyed (n : UserNode) : Prop :=
  n.memory.Keyed ∧ n.disk.Keyed

end UserNode

inductive UserEvent where
  | create (node : NodeId) (id username : ByteString) (credential : Option Credential)
      (roles : List ByteString) (now : Nat)
  /-- The section of `update` or `remove` that changes the table. -/
  | change (node : NodeId) (call : UserCall) (now : Nat)
  /-- The write after a change, which may fail. -/
  | written (node : NodeId) (done : Bool)
  | crash (node : NodeId)
  | send (node : NodeId)
  | deliver (node : NodeId) (values : List UserRecord)
deriving DecidableEq, Repr

namespace UserEvent

def node : UserEvent → NodeId
  | create node .. => node
  | change node .. => node
  | written node _ => node
  | crash node => node
  | send node => node
  | deliver node _ => node

end UserEvent

namespace UserWorld

def setNode (w : UserWorld) (node : NodeId) (n : UserNode) : UserWorld :=
  { w with nodes := Function.update w.nodes node n }

/-- A table changed in memory, the lock held until it is written. -/
def setMemory (w : UserWorld) (node : NodeId) (table : UserTable) : UserWorld :=
  w.setNode node { w.nodes node with memory := table, persisting := true }

/-- An id is drawn at random, so that it is new. -/
def step (maxUsers : NodeId → Nat) (w : UserWorld) : UserEvent → Option UserWorld
  | .create node id username credential roles now =>
    let n := w.nodes node
    if n.persisting = true ∨ id ∈ w.drawn then none
    else
      let w := { w with drawn := id :: w.drawn }
      match n.memory.insertUser (maxUsers node) id username credential roles now node with
      | none => some w
      | some table => some (w.setMemory node table)
  | .change node call now =>
    let n := w.nodes node
    if n.persisting = true then none
    else
      match n.memory.mutate call.userId call.change now node with
      | none => some w
      | some table => some (w.setMemory node table)
  | .written node done =>
    let n := w.nodes node
    if n.persisting = true then
      some (w.setNode node
        { n with disk := if done then n.memory else n.disk, persisting := false })
    else none
  | .crash node =>
    let n := w.nodes node
    some (w.setNode node { n with memory := n.disk, persisting := false })
  | .send node =>
    some { w with sent := (w.nodes node).memory.toList.map (fun (_, user) => (node, user)) ++ w.sent }
  | .deliver node values =>
    let n := w.nodes node
    if n.persisting = true ∨ ¬∀ user ∈ values, user ∈ w.sent.map (·.2) then none
    else
      let (table, changed) := n.memory.applyAll (maxUsers node) values
      let w := { w with received := values.map (fun user => (node, user)) ++ w.received }
      some (w.setNode node { n with memory := table, persisting := changed })

/-! ## What a step does -/

inductive Effect (maxUsers : NodeId → Nat) (w : UserWorld) : UserEvent → UserWorld → Prop
  | notCreated {node : NodeId} {id username : ByteString} {credential : Option Credential}
      {roles : List ByteString} {now : Nat} :
      Effect maxUsers w (.create node id username credential roles now)
        { w with drawn := id :: w.drawn }
  | notChanged {node : NodeId} {call : UserCall} {now : Nat} :
      Effect maxUsers w (.change node call now) w
  | created {node : NodeId} {id username : ByteString} {credential : Option Credential}
      {roles : List ByteString} {now : Nat} {user : UserRecord} (hnew : id ∉ w.drawn)
      (hid : user.id = id) (hversion : user.version = 1) (hauthor : user.updatedBy = node)
      (hroom : (w.nodes node).memory.size < maxUsers node) :
      Effect maxUsers w (.create node id username credential roles now)
        (({ w with drawn := id :: w.drawn } : UserWorld).setMemory node
          ((w.nodes node).memory.insert id user))
  | changed {node : NodeId} {call : UserCall} {now : Nat} {user next : UserRecord}
      (hget : (w.nodes node).memory[call.userId]? = some user) (hlive : user.tombstone = false)
      (hchange : call.change user = some next) :
      Effect maxUsers w (.change node call now) (w.setMemory node
        ((w.nodes node).memory.insert call.userId (next.revised now node)))
  | written {node : NodeId} {done : Bool} :
      Effect maxUsers w (.written node done) (w.setNode node
        { w.nodes node with
          disk := if done then (w.nodes node).memory else (w.nodes node).disk
          persisting := false })
  | crash {node : NodeId} :
      Effect maxUsers w (.crash node) (w.setNode node
        { w.nodes node with memory := (w.nodes node).disk, persisting := false })
  | send {node : NodeId} :
      Effect maxUsers w (.send node) { w with
        sent := (w.nodes node).memory.toList.map (fun (_, user) => (node, user)) ++ w.sent }
  | deliver {node : NodeId} {values : List UserRecord} {changed : Bool}
      (hsent : ∀ user ∈ values, ∃ sender, (sender, user) ∈ w.sent) :
      Effect maxUsers w (.deliver node values)
        (({ w with received := values.map (fun user => (node, user)) ++ w.received } :
          UserWorld).setNode node { w.nodes node with
            memory := ((w.nodes node).memory.applyAll (maxUsers node) values).1
            persisting := changed })

variable {maxUsers : NodeId → Nat} {w w' : UserWorld} {event : UserEvent}

theorem effect_of_step (h : w.step maxUsers event = some w') : Effect maxUsers w event w' := by
  cases event with
  | create node id username credential roles now =>
    simp only [step] at h
    split at h
    · cases h
    · next hdrawn =>
      split at h
      · cases h
        exact .notCreated
      · next table hinsert =>
        cases h
        obtain ⟨user, rfl, hid, hversion, hauthor, hroom⟩ := UserTable.insertUser_eq_some hinsert
        exact .created (fun h => hdrawn (.inr h)) hid hversion hauthor hroom
  | change node call now =>
    simp only [step] at h
    split at h
    · cases h
    · split at h
      · cases h
        exact .notChanged
      · next table hmutate =>
        cases h
        obtain ⟨user, next, hget, hlive, hchange, rfl⟩ := UserTable.mutate_eq_some.1 hmutate
        exact .changed hget hlive hchange
  | written node done =>
    simp only [step] at h
    split at h
    · cases h
      exact .written
    · cases h
  | crash node =>
    cases h
    exact .crash
  | send node =>
    cases h
    exact .send
  | deliver node values =>
    simp only [step] at h
    split at h
    · cases h
    · next hsent =>
      cases h
      refine .deliver fun user huser => ?_
      rw [not_or, not_not] at hsent
      obtain ⟨item, hitem, rfl⟩ := List.mem_map.1 (hsent.2 user huser)
      exact ⟨item.1, hitem⟩

theorem Effect.frame (heffect : Effect maxUsers w event w') {other : NodeId}
    (hne : event.node ≠ other) : w'.nodes other = w.nodes other := by
  have hset : ∀ (w : UserWorld) n,
      (w.setNode event.node n).nodes other = w.nodes other := by
    intro w n
    unfold setNode
    dsimp only
    rw [Function.update_of_ne hne.symm]
  cases heffect with
  | notCreated => rfl
  | notChanged => rfl
  | send => rfl
  | _ => exact hset _ _

/-! ## Records that exist -/

theorem change_eq_some {call : UserCall} {user next : UserRecord}
    (h : call.change user = some next) :
    next.id = user.id ∧ next.version = user.version ∧
      next.credentialGeneration = user.credentialGeneration + 1 := by
  cases call with
  | update userId credential roles =>
    obtain ⟨hid, hversion, _, hgeneration, _⟩ := UserTable.updateChange_eq_some h
    exact ⟨hid, hversion, hgeneration⟩
  | remove userId =>
    cases h
    exact ⟨rfl, rfl, rfl⟩

/-- The record is in the node's table or file, or the node sent it. -/
def At (w : UserWorld) (node : NodeId) (user : UserRecord) : Prop :=
  (∃ id : ByteString, (w.nodes node).memory[id]? = some user) ∨
    (∃ id : ByteString, (w.nodes node).disk[id]? = some user) ∨ (node, user) ∈ w.sent

def Stored (w : UserWorld) (user : UserRecord) : Prop :=
  ∃ node, w.At node user

variable {user : UserRecord} {n : UserNode}

theorem at_setNode {node other : NodeId} (h : (w.setNode node n).At other user) :
    w.At other user ∨ other = node ∧ ((∃ id : ByteString, n.memory[id]? = some user) ∨
        ∃ id : ByteString, n.disk[id]? = some user) := by
  unfold setNode at h
  rcases h with ⟨id, hget⟩ | ⟨id, hget⟩ | hsent
  · dsimp only at hget
    rw [Function.update_apply] at hget
    split at hget
    · next heq => exact .inr ⟨heq, .inl ⟨id, hget⟩⟩
    · exact .inl (.inl ⟨id, hget⟩)
  · dsimp only at hget
    rw [Function.update_apply] at hget
    split at hget
    · next heq => exact .inr ⟨heq, .inr ⟨id, hget⟩⟩
    · exact .inl (.inr (.inl ⟨id, hget⟩))
  · exact .inl (.inr (.inr hsent))

theorem nodes_setNode_self (w : UserWorld) (node : NodeId) (n : UserNode) :
    (w.setNode node n).nodes node = n := by
  unfold setNode
  dsimp only
  rw [Function.update_self]

theorem memory_setMemory (w : UserWorld) (node : NodeId) (table : UserTable) :
    ((w.setMemory node table).nodes node).memory = table := by
  unfold setMemory
  rw [nodes_setNode_self]

theorem at_setMemory_insert {node other : NodeId} {id : ByteString}
    {user new : UserRecord}
    (h : (w.setMemory node ((w.nodes node).memory.insert id new)).At other user) :
    w.At other user ∨ other = node ∧ user = new := by
  rcases at_setNode h with h | ⟨rfl, ⟨key, hget⟩ | ⟨key, hget⟩⟩
  · exact .inl h
  · rcases getElem?_insert_eq_some hget with ⟨_, rfl⟩ | ⟨_, hget⟩
    · exact .inr ⟨rfl, rfl⟩
    · exact .inl (.inl ⟨key, hget⟩)
  · exact .inl (.inr (.inl ⟨key, hget⟩))

/-- The records a step makes, in the table of their author. -/
inductive Made (w w' : UserWorld) : UserEvent → UserRecord → Prop
  | created {node : NodeId} {id username : ByteString} {credential : Option Credential}
      {roles : List ByteString} {now : Nat} {user : UserRecord} (hnew : id ∉ w.drawn)
      (hid : user.id = id) (hversion : user.version = 1) (hauthor : user.updatedBy = node)
      (hdrawn : id ∈ w'.drawn) (hafter : (w'.nodes node).memory[id]? = some user) :
      Made w w' (.create node id username credential roles now) user
  | changed {node : NodeId} {call : UserCall} {now : Nat} {user next : UserRecord}
      (hget : (w.nodes node).memory[call.userId]? = some user) (hlive : user.tombstone = false)
      (hchange : call.change user = some next)
      (hafter : (w'.nodes node).memory[call.userId]? = some (next.revised now node)) :
      Made w w' (.change node call now) (next.revised now node)

theorem Effect.at (h : Effect maxUsers w event w') {node : NodeId} (huser : w'.At node user) :
    w.At node user ∨ (∃ sender, (sender, user) ∈ w.sent) ∨
      user.updatedBy = node ∧ Made w w' event user := by
  cases h with
  | notCreated => exact .inl huser
  | notChanged => exact .inl huser
  | created hnew hid hversion hauthor =>
    rcases at_setMemory_insert huser with huser | ⟨rfl, rfl⟩
    · exact .inl huser
    · refine .inr (.inr ⟨hauthor, .created hnew hid hversion hauthor mem_cons_self ?_⟩)
      rw [memory_setMemory, getElem?_insert_self]
  | changed hget hlive hchange =>
    rcases at_setMemory_insert huser with huser | ⟨rfl, rfl⟩
    · exact .inl huser
    · refine .inr (.inr ⟨rfl, .changed hget hlive hchange ?_⟩)
      rw [memory_setMemory, getElem?_insert_self]
  | @written writer done =>
    rcases at_setNode huser with huser | ⟨rfl, hget | ⟨id, hget⟩⟩
    · exact .inl huser
    · exact .inl (.inl hget)
    · cases done with
      | true => exact .inl (.inl ⟨id, hget⟩)
      | false => exact .inl (.inr (.inl ⟨id, hget⟩))
  | crash =>
    rcases at_setNode huser with huser | ⟨rfl, hget | hget⟩
    · exact .inl huser
    · exact .inl (.inr (.inl hget))
    · exact .inl (.inr (.inl hget))
  | @send sender =>
    rcases huser with huser | huser | hsent
    · exact .inl (.inl huser)
    · exact .inl (.inr (.inl huser))
    · rcases mem_append.1 hsent with hsent | hsent
      · obtain ⟨⟨id, record⟩, hget, heq⟩ := List.mem_map.1 hsent
        cases heq
        exact .inl (.inl ⟨id, (OrdMap.mem_toList _ _ _).1 hget⟩)
      · exact .inl (.inr (.inr hsent))
  | deliver hsent =>
    rcases at_setNode huser with huser | ⟨rfl, ⟨id, hget⟩ | hget⟩
    · exact .inl huser
    · rcases UserTable.applyAll_eq_some hget with hget | hvalue
      · exact .inl (.inl ⟨id, hget⟩)
      · exact .inr (.inl (hsent user hvalue))
    · exact .inl (.inr (.inl hget))

theorem Effect.stored (h : Effect maxUsers w event w') (huser : w'.Stored user) :
    w.Stored user ∨ Made w w' event user := by
  obtain ⟨node, huser⟩ := huser
  rcases h.at huser with huser | ⟨sender, hsent⟩ | ⟨_, hmade⟩
  · exact .inl ⟨node, huser⟩
  · exact .inl ⟨sender, .inr (.inr hsent)⟩
  · exact .inr hmade

theorem Made.unique {other : UserRecord} (h : Made w w' event user)
    (hother : Made w w' event other) : user = other := by
  cases h with
  | created _ _ _ _ _ hafter =>
    cases hother with
    | created _ _ _ _ _ hafter' => exact Option.some_inj.1 (hafter.symm.trans hafter')
  | changed _ _ _ hafter =>
    generalize hrecord : other = record at hother
    cases hother with
    | changed _ _ _ hafter' => exact Option.some_inj.1 (hafter.symm.trans hafter')

/-- A record made has a new id, or is the next version of one of its author's. -/
theorem Made.cases (hmade : Made w w' event user) (h : ∀ node, (w.nodes node).memory.Keyed) :
    (w'.nodes user.updatedBy).memory[user.id]? = some user ∧
      (user.id ∉ w.drawn ∧ user.id ∈ w'.drawn ∨
        ∃ old, (w.nodes user.updatedBy).memory[user.id]? = some old ∧
          user.version = old.version + 1 ∧
          user.credentialGeneration = old.credentialGeneration + 1) := by
  cases hmade with
  | created hnew hid hversion hauthor hdrawn hafter =>
    subst hid hauthor
    exact ⟨hafter, .inl ⟨hnew, hdrawn⟩⟩
  | @changed node call now old next hget hlive hchange hafter =>
    obtain ⟨hid, hversion, hgeneration⟩ := change_eq_some hchange
    have hkey : call.userId = (next.revised now node).id := (hid.trans (h node _ _ hget)).symm
    rw [hkey] at hget hafter
    exact ⟨hafter, .inr ⟨old, hget, congrArg (· + 1) hversion, hgeneration⟩⟩

/-- Records stand under their ids, and no id is used before it is drawn. -/
structure Consistent (w : UserWorld) : Prop where
  keyed : ∀ node, (w.nodes node).Keyed
  drawn : ∀ user, w.Stored user → user.id ∈ w.drawn

theorem consistent_start : Consistent {} where
  keyed := fun _ => ⟨fun id user h => by simp at h, fun id user h => by simp at h⟩
  drawn := by
    rintro user ⟨_, ⟨_, h⟩ | ⟨_, h⟩ | h⟩
    · simp at h
    · simp at h
    · cases h

theorem forall_setNode {node : NodeId} {P : NodeId → UserNode → Prop}
    (hnode : P node n) (h : ∀ other, P other (w.nodes other)) :
    ∀ other, P other ((w.setNode node n).nodes other) :=
  (Function.forall_update_iff _ P).2 ⟨hnode, fun other _ => h other⟩

theorem memory_setNode {node other : NodeId} {P : UserTable → Prop}
    (hnode : node = other → P n.memory) (h : P (w.nodes other).memory) :
    P ((w.setNode node n).nodes other).memory := by
  unfold setNode
  dsimp only
  rw [Function.update_apply]
  split
  · next heq => exact hnode heq.symm
  · exact h

theorem Effect.keyed (heffect : Effect maxUsers w event w') (h : ∀ node, (w.nodes node).Keyed) :
    ∀ node, (w'.nodes node).Keyed := by
  cases heffect with
  | notCreated => exact h
  | notChanged => exact h
  | created hnew hid =>
    exact forall_setNode (P := fun _ n => n.Keyed) ⟨(h _).1.insert hid, (h _).2⟩ h
  | changed hget hlive hchange =>
    refine forall_setNode (P := fun _ n => n.Keyed) ⟨(h _).1.insert ?_, (h _).2⟩ h
    exact (change_eq_some hchange).1.trans ((h _).1 _ _ hget)
  | @written node done =>
    refine forall_setNode (P := fun _ n => n.Keyed) ⟨(h node).1, ?_⟩ h
    cases done with
    | true => exact (h node).1
    | false => exact (h node).2
  | crash => exact forall_setNode (P := fun _ n => n.Keyed) ⟨(h _).2, (h _).2⟩ h
  | send => exact h
  | deliver hsent =>
    exact forall_setNode (P := fun _ n => n.Keyed) ⟨(h _).1.applyAll _, (h _).2⟩ h

theorem Effect.drawn (heffect : Effect maxUsers w event w') : w.drawn ⊆ w'.drawn := by
  cases heffect with
  | notCreated => exact subset_cons_self _ _
  | created => exact subset_cons_self _ _
  | _ => exact List.Subset.refl _

theorem Consistent.step (h : w.Consistent) (heffect : Effect maxUsers w event w') :
    w'.Consistent := by
  refine ⟨heffect.keyed h.keyed, fun user huser => ?_⟩
  rcases heffect.stored huser with hold | hmade
  · exact heffect.drawn (h.drawn user hold)
  · obtain ⟨_, ⟨_, hdrawn⟩ | ⟨old, hget, _⟩⟩ := hmade.cases fun node => (h.keyed node).1
    · exact hdrawn
    · have hold := h.drawn old ⟨_, .inl ⟨_, hget⟩⟩
      rw [(h.keyed _).1 _ _ hget] at hold
      exact heffect.drawn hold

/-! ## What a table keeps -/

theorem Effect.covers (heffect : Effect maxUsers w event w') (h : w.Consistent)
    (hcrash : ∀ node, event ≠ .crash node) {node : NodeId}
    (hcovers : (w.nodes node).memory.Covers user) : (w'.nodes node).memory.Covers user := by
  cases heffect with
  | notCreated => exact hcovers
  | notChanged => exact hcovers
  | created hnew hid =>
    refine memory_setNode (P := (UserTable.Covers · user)) ?_ hcovers
    rintro rfl
    subst hid
    refine hcovers.insert fun old hold => ?_
    have hdrawn := h.drawn old ⟨_, .inl ⟨_, hold⟩⟩
    rw [(h.keyed _).1 _ _ hold] at hdrawn
    exact absurd hdrawn hnew
  | @changed author call now old next hget hlive hchange =>
    refine memory_setNode (P := (UserTable.Covers · user)) ?_ hcovers
    rintro rfl
    obtain ⟨hid, hversion, _⟩ := change_eq_some hchange
    have hkey : call.userId = (next.revised now author).id :=
      (hid.trans ((h.keyed author).1 _ _ hget)).symm
    rw [hkey] at hget ⊢
    refine hcovers.insert fun old' hold => ?_
    rw [hget] at hold
    cases hold
    exact (UserRecord.rank_lt_of_version_lt (hversion ▸ Nat.lt_succ_self _)).le
  | written => exact memory_setNode (P := (UserTable.Covers · user)) (fun h => h ▸ hcovers) hcovers
  | @crash crashed => exact absurd rfl (hcrash crashed)
  | send => exact hcovers
  | deliver =>
    refine memory_setNode (P := (UserTable.Covers · user)) ?_ hcovers
    rintro rfl
    exact hcovers.applyAll _

theorem Effect.absent (heffect : Effect maxUsers w event w')
    (hcrash : ∀ node, event ≠ .crash node) {node : NodeId} {id : ByteString}
    (habsent : (w.nodes node).memory.Full (maxUsers node) id) :
    (w'.nodes node).memory.Full (maxUsers node) id := by
  cases heffect with
  | notCreated => exact habsent
  | notChanged => exact habsent
  | created hnew hid hversion hauthor hroom =>
    refine memory_setNode (P := (UserTable.Full (maxUsers node) · id)) ?_ habsent
    rintro rfl
    exact absurd hroom (not_lt.2 habsent.2)
  | changed hget =>
    refine memory_setNode (P := (UserTable.Full (maxUsers node) · id)) ?_ habsent
    rintro rfl
    refine habsent.insert (fun heq => ?_) _
    rw [heq, habsent.1] at hget
    cases hget
  | written =>
    exact memory_setNode (P := (UserTable.Full (maxUsers node) · id)) (fun h => h ▸ habsent)
      habsent
  | @crash crashed => exact absurd rfl (hcrash crashed)
  | send => exact habsent
  | deliver =>
    refine memory_setNode (P := (UserTable.Full (maxUsers node) · id)) ?_ habsent
    rintro rfl
    exact habsent.applyAll _

end UserWorld

end Macha
