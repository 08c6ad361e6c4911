import Macha.Library.Collect
import Macha.Library.Run
import Macha.Library.OrdMap
import Macha.Metadata.Types

/-!
# Which objects a store says it holds

Once the walk over the object files is complete, `has` answers from the presence
index alone. The index is told of every installed, seen, pruned and removed file
by the operation that touched it, under the lock of the object; the walk hands it
the names it read in batches, later, under no object's lock. Names of objects
forgotten or pruned meanwhile are not taken.

A removal forgets the object before it unlinks the file, and one that finds a
pack record does not look for a file. So the index is right about an object whose
unlinks do not fail and which is not removed while it has both.
-/

namespace Macha

inductive PresenceAnswer
  | present
  | absent
  | unknown
deriving DecidableEq

structure PresenceIndex where
  present : Finset ObjectId := ∅
  pruned : Finset ObjectId := ∅
  forgottenWhileWarming : Finset ObjectId := ∅
  authoritative : Bool := false

namespace PresenceIndex

def installed (index : PresenceIndex) (id : ObjectId) : PresenceIndex :=
  { index with present := insert id index.present, pruned := index.pruned.erase id }

def observed (index : PresenceIndex) (id : ObjectId) : PresenceIndex :=
  { index with present := insert id index.present }

def forgotten (index : PresenceIndex) (id : ObjectId) : PresenceIndex :=
  { index with
    present := index.present.erase id
    forgottenWhileWarming :=
      if index.authoritative then index.forgottenWhileWarming
      else insert id index.forgottenWhileWarming }

/-- `pruned`: an empty file was deleted. -/
def prune (index : PresenceIndex) (id : ObjectId) : PresenceIndex :=
  { index.forgotten id with pruned := insert id (index.forgotten id).pruned }

def listed (index : PresenceIndex) (ids : List ObjectId) : PresenceIndex :=
  { index with
    present := ids.foldl
      (fun known id =>
        if id ∉ index.pruned ∧ id ∉ index.forgottenWhileWarming then insert id known else known)
      index.present }

def warmed (index : PresenceIndex) : PresenceIndex :=
  { index with authoritative := true, forgottenWhileWarming := ∅ }

def answer (index : PresenceIndex) (id : ObjectId) : PresenceAnswer :=
  if id ∈ index.present then .present
  else if index.authoritative then .absent else .unknown

theorem mem_foldl_insert_of {keep : ObjectId → Prop} [DecidablePred keep] (ids : List ObjectId)
    (known : Finset ObjectId) (id : ObjectId) :
    id ∈ ids.foldl (fun known id => if keep id then insert id known else known) known ↔
      id ∈ known ∨ id ∈ ids ∧ keep id := by
  induction ids generalizing known with
  | nil => simp
  | cons first ids ih =>
    simp only [List.foldl_cons, ih, List.mem_cons]
    by_cases hkeep : keep first
    · simp only [if_pos hkeep, Finset.mem_insert]
      constructor
      · rintro ((rfl | h) | h)
        · exact .inr ⟨.inl rfl, hkeep⟩
        · exact .inl h
        · exact .inr ⟨.inr h.1, h.2⟩
      · rintro (h | ⟨rfl | h, hid⟩)
        · exact .inl (.inr h)
        · exact .inl (.inl rfl)
        · exact .inr ⟨h, hid⟩
    · simp only [if_neg hkeep]
      constructor
      · rintro (h | h)
        · exact .inl h
        · exact .inr ⟨.inr h.1, h.2⟩
      · rintro (h | ⟨rfl | h, hid⟩)
        · exact .inl h
        · exact (hkeep hid).elim
        · exact .inr ⟨h, hid⟩

theorem mem_listed (index : PresenceIndex) (ids : List ObjectId) (id : ObjectId) :
    id ∈ (index.listed ids).present ↔ id ∈ index.present ∨
      id ∈ ids ∧ id ∉ index.pruned ∧ id ∉ index.forgottenWhileWarming :=
  mem_foldl_insert_of ids index.present id

end PresenceIndex

/-- The walk over the object files: names it must still return, names it may
return (of files that were there since it began), and those read and not yet
handed to the index. -/
structure PresenceWalk where
  unread : Finset ObjectId
  offered : Finset ObjectId
  batch : List ObjectId := []

/-- What holds the lock of an object, between two sections under the store's lock. -/
inductive ObjectStage
  /-- Forgotten, the unlink to come; for a put, then stored anew. -/
  | removing (stores : Option Nat)
  /-- A put of so many bytes, about to be stored. -/
  | storing (size : Nat)
  /-- The file installed, the index not told. -/
  | installed
  /-- The empty file unlinked, the index not told. -/
  | pruning
  /-- The file seen, the index not told. -/
  | observing
deriving DecidableEq

structure PresenceStore where
  packThreshold : Nat := 0
  /-- Sizes of the object files. -/
  loose : OrdMap ObjectId Nat := ∅
  packed : Finset ObjectId := ∅
  presence : PresenceIndex := {}
  walk : Option PresenceWalk := none
  busy : OrdMap ObjectId ObjectStage := ∅

namespace PresenceStore

def looseHeaderSize : Nat := 8 + 8 + 12 + 16

def has (store : PresenceStore) (id : ObjectId) : Bool :=
  if id ∈ store.packed then true
  else
    match store.presence.answer id with
    | .present => true
    | .absent => false
    | .unknown =>
      -- Asked of the device: an empty file is no object.
      match store.loose[id]? with
      | some size => decide (0 < size)
      | none => false

def enter (store : PresenceStore) (id : ObjectId) (stage : ObjectStage) : PresenceStore :=
  { store with busy := store.busy.insert id stage }

/-- The operation on the object returns. -/
def leave (store : PresenceStore) (id : ObjectId) : PresenceStore :=
  { store with busy := store.busy.erase id }

def unlinkFile (store : PresenceStore) (id : ObjectId) : PresenceStore :=
  { store with
    loose := store.loose.erase id
    walk := store.walk.map fun walk => { walk with unread := walk.unread.erase id } }

def installFile (store : PresenceStore) (id : ObjectId) (size : Nat) : PresenceStore :=
  { store with
    loose := store.loose.insert id size
    walk := store.walk.map fun walk => { walk with offered := insert id walk.offered } }

def packs (store : PresenceStore) (size : Nat) : Bool :=
  store.packThreshold ≠ 0 && size ≤ store.packThreshold

end PresenceStore

inductive PresenceEvent
  | put (id : ObjectId) (size : Nat) (damaged : Bool)
  | store (id : ObjectId) (stored : Bool)
  | publish (id : ObjectId)
  | remove (id : ObjectId)
  | unlink (id : ObjectId) (removed : Bool)
  | prune (id : ObjectId)
  | pruned (id : ObjectId)
  | observe (id : ObjectId)
  | observed (id : ObjectId)
  | beginWalk
  | readName (id : ObjectId)
  | flushBatch
  | walkFailed
  | warmed

namespace PresenceStore

/-- `put_impl` up to where it stores; `damaged` where the stored bytes fail their check. -/
def put (store : PresenceStore) (id : ObjectId) (size : Nat) (damaged : Bool) :
    Option PresenceStore := do
  guard (store.busy[id]?.isNone = true)
  if id ∈ store.packed then
    -- A touch, or a record in place of the damaged one.
    some store
  else if store.loose[id]?.isSome then
    if damaged then
      some (({ store with presence := store.presence.forgotten id }).enter id
        (.removing (some size)))
    else
      -- Touched: the stamp is read from the file just found.
      some store
  else some (store.enter id (.storing size))

/-- `put_packed_locked`, or the file of `put_loose_locked`, which may not be stored. -/
def storeObject (store : PresenceStore) (id : ObjectId) (stored : Bool) : Option PresenceStore :=
  match store.busy[id]? with
  | some (.storing size) =>
    if stored then
      if store.packs size then
        some (({ store with packed := insert id store.packed }).leave id)
      else some ((store.installFile id (looseHeaderSize + size)).enter id .installed)
    else some (store.leave id)
  | _ => none

/-- `put_loose_locked` with the file installed. -/
def publish (store : PresenceStore) (id : ObjectId) : Option PresenceStore :=
  match store.busy[id]? with
  | some .installed => some (({ store with presence := store.presence.installed id }).leave id)
  | _ => none

/-- `remove_locked` up to the unlink. -/
def remove (store : PresenceStore) (id : ObjectId) : Option PresenceStore := do
  guard (store.busy[id]?.isNone = true)
  if id ∈ store.packed then
    some { store with presence := store.presence.forgotten id, packed := store.packed.erase id }
  else if store.loose[id]?.isSome then
    some (({ store with presence := store.presence.forgotten id }).enter id (.removing none))
  else some { store with presence := store.presence.forgotten id }

/-- The unlink of `remove_locked`, for a removal or for a put over damaged bytes. -/
def unlink (store : PresenceStore) (id : ObjectId) (removed : Bool) : Option PresenceStore :=
  match store.busy[id]? with
  | some (.removing stores) =>
    if removed then
      match stores with
      | some size => some ((store.unlinkFile id).enter id (.storing size))
      | none => some ((store.unlinkFile id).leave id)
    else some (store.leave id)
  | _ => none

/-- `prune_empty_loose`, the empty file removed. -/
def pruneEmpty (store : PresenceStore) (id : ObjectId) : Option PresenceStore := do
  guard (store.busy[id]?.isNone = true ∧ store.loose[id]? = some 0)
  some ((store.unlinkFile id).enter id .pruning)

/-- `prune_empty_loose`, the index told. -/
def pruned (store : PresenceStore) (id : ObjectId) : Option PresenceStore :=
  match store.busy[id]? with
  | some .pruning => some (({ store with presence := store.presence.prune id }).leave id)
  | _ => none

/-- `has` on a miss, or the scan, finds the file under the object's lock. -/
def observe (store : PresenceStore) (id : ObjectId) : Option PresenceStore := do
  guard (store.busy[id]?.isNone = true ∧ store.loose[id]?.isSome = true)
  some (store.enter id .observing)

def observed (store : PresenceStore) (id : ObjectId) : Option PresenceStore :=
  match store.busy[id]? with
  | some .observing => some (({ store with presence := store.presence.observed id }).leave id)
  | _ => none

/-- `warm_presence_index` opens the directory. -/
def beginWalk (store : PresenceStore) : Option PresenceStore := do
  guard (store.presence.authoritative = false ∧ store.walk.isNone = true)
  some { store with
    walk := some { unread := store.loose.keys.toFinset, offered := store.loose.keys.toFinset } }

def readName (store : PresenceStore) (id : ObjectId) : Option PresenceStore :=
  match store.walk with
  | some walk => do
    guard (id ∈ walk.offered)
    some { store with
      walk := some { walk with unread := walk.unread.erase id, batch := walk.batch ++ [id] } }
  | none => none

def flushBatch (store : PresenceStore) : Option PresenceStore :=
  match store.walk with
  | some walk =>
    some { store with
      presence := store.presence.listed walk.batch
      walk := some { walk with batch := [] } }
  | none => none

/-- The walk ends with an error, to be begun again. -/
def walkFailed (store : PresenceStore) : Option PresenceStore :=
  match store.walk with
  | some walk => some { store with presence := store.presence.listed walk.batch, walk := none }
  | none => none

def warmed (store : PresenceStore) : Option PresenceStore :=
  match store.walk with
  | some walk => do
    guard (walk.unread = ∅ ∧ walk.batch.isEmpty = true)
    some { store with presence := store.presence.warmed, walk := none }
  | none => none

def step (store : PresenceStore) : PresenceEvent → Option PresenceStore
  | .put id size damaged => store.put id size damaged
  | .store id stored => store.storeObject id stored
  | .publish id => store.publish id
  | .remove id => store.remove id
  | .unlink id removed => store.unlink id removed
  | .prune id => store.pruneEmpty id
  | .pruned id => store.pruned id
  | .observe id => store.observe id
  | .observed id => store.observed id
  | .beginWalk => store.beginWalk
  | .readName id => store.readName id
  | .flushBatch => store.flushBatch
  | .walkFailed => store.walkFailed
  | .warmed => store.warmed

end PresenceStore

abbrev PresenceStep := Computes PresenceStore.step

/-- A store as it is opened: any files, any pack records. -/
def PresenceStore.opened (packThreshold : Nat) (loose : OrdMap ObjectId Nat)
    (packed : Finset ObjectId) : PresenceStore where
  packThreshold := packThreshold
  loose := loose
  packed := packed

/-- After warm-up, with no operation on the object under way, `has` is true
exactly when its file or its pack record exists. -/
def PresenceStore.Truthful (store : PresenceStore) (id : ObjectId) : Prop :=
  store.presence.authoritative = true → store.busy[id]? = none →
    (store.has id = true ↔ store.loose[id]?.isSome = true ∨ id ∈ store.packed)

/-- No unlink of the object's file fails, and it is not removed while it has both
a file and a pack record. -/
def RemovesWhole (id : ObjectId) (t : Transition PresenceStore PresenceEvent) : Prop :=
  match t.event with
  | .unlink other removed => other = id → removed = true
  | .remove other => other = id → id ∈ t.before.packed → t.before.loose[id]? = none
  | _ => True

instance (id : ObjectId) : DecidablePred (RemovesWhole id) := by
  intro t
  unfold RemovesWhole
  split <;> infer_instance

end Macha
