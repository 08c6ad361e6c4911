import Macha.Library.Collect
import Macha.Metadata.Delta

/-!
# The history of commits

A replica keeps every commit as an entry of `history.log`: the whole snapshot, or a
delta over the commit before it. An index in memory says where each entry is. A
commit is rebuilt from the nearest whole snapshot, or from one in the cache, by
applying the deltas after it.
-/

namespace Macha

structure MetadataRecord where
  generation : Nat
  previous : Hash256
  hash : Hash256
  payload : ByteString
deriving DecidableEq, Repr

inductive HistoryBody
  | full
  | delta
deriving DecidableEq, Repr

structure MetadataHistoryEntry where
  generation : Nat
  previous : Hash256
  hash : Hash256
  previousKnown : Bool
  mergeParents : List Hash256
  body : HistoryBody
  payload : ByteString
deriving DecidableEq, Repr

/-- The index of an entry: its identity and where its frame is. -/
structure HistoryIndexEntry where
  generation : Nat
  previous : Hash256
  hash : Hash256
  previousKnown : Bool
  mergeParents : List Hash256
  body : HistoryBody
  fileOffset : Nat
  frameBytes : Nat
deriving DecidableEq, Repr

abbrev HistoryIndex := OrdMap Hash256 HistoryIndexEntry

/-- `Reader::bytes` refuses a blob above this. -/
def blobLimit : Nat := 256 * 1024 * 1024

/-- `max_record` of `load_history`. -/
def maxHistoryRecord : Nat := 2 * 1024 * 1024 * 1024

namespace MetadataHistoryEntry

def index (e : MetadataHistoryEntry) (fileOffset frameBytes : Nat) : HistoryIndexEntry where
  generation := e.generation
  previous := e.previous
  hash := e.hash
  previousKnown := e.previousKnown
  mergeParents := e.mergeParents
  body := e.body
  fileOffset := fileOffset
  frameBytes := frameBytes

def matchesIndex (e : MetadataHistoryEntry) (i : HistoryIndexEntry) : Bool :=
  decide (e.hash = i.hash ∧ e.generation = i.generation ∧ e.previous = i.previous ∧
    e.previousKnown = i.previousKnown ∧ e.mergeParents = i.mergeParents ∧ e.body = i.body)

theorem matchesIndex_index (e : MetadataHistoryEntry) (fileOffset frameBytes : Nat) :
    e.matchesIndex (e.index fileOffset frameBytes) = true :=
  decide_eq_true ⟨rfl, rfl, rfl, rfl, rfl, rfl⟩

/-- The bytes of `encode_metadata_history_entry`. -/
def encodedSize (e : MetadataHistoryEntry) : Nat :=
  1 + 8 + 32 + 32 + 1 + 4 + 32 * e.mergeParents.length + 4 + e.payload.length

/-- The parents a reader takes: none is empty, none the commit itself. -/
def parentsNamed (hash : Hash256) (parents : List Hash256) : Bool :=
  parents.all fun parent => decide (parent ≠ Hash256.zero ∧ parent ≠ hash)

/-- What `decode_metadata_history_entry` accepts of what was encoded. -/
def decodes (e : MetadataHistoryEntry) : Bool :=
  decide (e.mergeParents.length ≤ 64 ∧ e.generation ≠ 0 ∧ e.hash ≠ Hash256.zero ∧
      (e.generation ≤ 1 → e.previousKnown = false) ∧
      (e.body = .delta → e.previousKnown = true)) &&
    parentsNamed e.hash e.mergeParents

/-- A reader gets the entry back from its frame. -/
def readable (e : MetadataHistoryEntry) : Bool :=
  e.decodes && decide (e.encodedSize ≤ blobLimit)

/-- The length, the nonce, the tag and the sealed entry with its length. -/
def frameSize (e : MetadataHistoryEntry) : Nat := 4 + 12 + 16 + 4 + e.encodedSize

/-- `encode_history_frame`: the frame's size, unless it throws. -/
def encodeHistoryFrame (e : MetadataHistoryEntry) : Option Nat := do
  guard (e.mergeParents.length ≤ 64 ∧ e.frameSize - 4 < 2 ^ 32)
  some e.frameSize

end MetadataHistoryEntry

/-- What commits rest on: the digest, the codecs of snapshots and deltas, and the
editor of namespace trees. -/
structure CommitCodec where
  metadataHash : Nat → Hash256 → ByteString → Hash256
  decodeSnapshot : ByteString → Option MetadataSnapshot
  /-- `encode_snapshot_v14`, which may throw. -/
  encodeSnapshot : MetadataSnapshot → Option ByteString
  decodeDelta : ByteString → Option MetadataDelta
  legacyFileId : ByteString → NodeId
  applier : Option NamespaceDeltaApplier
  /-- The digest binds what it is taken of. -/
  metadataHash_injective : ∀ {g h : Nat} {p q : Hash256} {d e : ByteString},
    metadataHash g p d = metadataHash h q e → g = h ∧ p = q ∧ d = e
  mergeParents_encodeSnapshot : ∀ {s t : MetadataSnapshot} {d : ByteString},
    encodeSnapshot s = some d → decodeSnapshot d = some t → t.mergeParents = s.mergeParents

def metadataDeltaVersion (data : ByteString) : Nat :=
  if data.length < 8 ∨ data.take 7 ≠ bytes "DHTMDLT" then 0
  else
    let mark := data.getD 7 0
    if mark = 'A'.toNat then 10
    else if mark = 'B'.toNat then 11
    else if mark < '1'.toNat ∨ '9'.toNat < mark then 0
    else mark - '0'.toNat

namespace CommitCodec

variable (codec : CommitCodec)

def validMetadataRecord (r : MetadataRecord) : Bool :=
  decide (r.generation ≠ 0 ∧ codec.metadataHash r.generation r.previous r.payload = r.hash)

def encodeSnapshotForDelta (delta : ByteString) (s : MetadataSnapshot) : Option ByteString := do
  guard (5 ≤ metadataDeltaVersion delta)
  codec.encodeSnapshot s

def applyDelta (s : MetadataSnapshot) (delta : MetadataDelta) : Option MetadataSnapshot :=
  (applyMetadataDelta codec.legacyFileId codec.applier s delta).toOption

def applyBody (parent : MetadataSnapshot) (e : MetadataHistoryEntry) :
    Option (MetadataRecord × MetadataSnapshot) := do
  let delta ← codec.decodeDelta e.payload
  let snapshot ← codec.applyDelta parent delta
  let payload ← codec.encodeSnapshotForDelta e.payload snapshot
  some (⟨e.generation, e.previous, e.hash, payload⟩, snapshot)

def wholeBody (e : MetadataHistoryEntry) : Option (MetadataRecord × MetadataSnapshot) := do
  let snapshot ← codec.decodeSnapshot e.payload
  some (⟨e.generation, e.previous, e.hash, e.payload⟩, snapshot)

theorem eq_of_hash_eq {a b : MetadataRecord} (ha : codec.validMetadataRecord a = true)
    (hb : codec.validMetadataRecord b = true) (h : a.hash = b.hash) : a = b := by
  have hhash : codec.metadataHash a.generation a.previous a.payload =
      codec.metadataHash b.generation b.previous b.payload :=
    (of_decide_eq_true ha).2.trans (h.trans (of_decide_eq_true hb).2.symm)
  obtain ⟨hgeneration, hprevious, hpayload⟩ := codec.metadataHash_injective hhash
  cases a
  cases b
  cases hgeneration
  cases hprevious
  cases hpayload
  cases h
  rfl

/-- What `load_history` requires of an entry beside the frame. -/
def loadable (history : HistoryIndex) (e : MetadataHistoryEntry) : Bool :=
  match e.body with
  | .full => codec.validMetadataRecord ⟨e.generation, e.previous, e.hash, e.payload⟩
  | .delta =>
    e.previousKnown && decide (1 < e.generation) &&
      (history[e.previous]?).any (fun parent => decide (parent.generation < e.generation)) &&
        (codec.decodeDelta e.payload).isSome

/-- What `load_history` does with an entry it has read; what does not fit is skipped,
and of two entries with one hash a whole one is preferred. -/
def indexEntry (history : HistoryIndex) (e : MetadataHistoryEntry) (fileOffset frameBytes : Nat) :
    HistoryIndex :=
  if codec.loadable history e then
    match history[e.hash]? with
    | none => history.insert e.hash (e.index fileOffset frameBytes)
    | some existing =>
      if existing.generation = e.generation ∧ existing.previous = e.previous ∧ e.body = .full then
        history.insert e.hash (e.index fileOffset frameBytes)
      else history
  else history

/-- One frame of `load_history`; what cannot be read is skipped. -/
def loadEntry (history : HistoryIndex) (e : MetadataHistoryEntry) (fileOffset frameBytes : Nat) :
    HistoryIndex :=
  if e.readable then codec.indexEntry history e fileOffset frameBytes else history

variable {history : HistoryIndex} {e : MetadataHistoryEntry}

theorem loadEntry_of_new (hreadable : e.readable = true)
    (hloadable : codec.loadable history e = true) (hnew : history[e.hash]? = none)
    (fileOffset frameBytes : Nat) :
    codec.loadEntry history e fileOffset frameBytes =
      history.insert e.hash (e.index fileOffset frameBytes) := by
  unfold loadEntry indexEntry
  rw [if_pos hreadable, if_pos hloadable, hnew]

theorem loadEntry_of_ne {hash : Hash256} (hne : e.hash ≠ hash) (fileOffset frameBytes : Nat) :
    (codec.loadEntry history e fileOffset frameBytes)[hash]? = history[hash]? := by
  have hinsert : (history.insert e.hash (e.index fileOffset frameBytes))[hash]? = history[hash]? :=
    OrdMap.getElem?_insert_of_ne _ _ hne
  unfold loadEntry indexEntry
  split
  · split
    · split
      · exact hinsert
      · split
        · exact hinsert
        · rfl
    · rfl
  · rfl

end CommitCodec

end Macha
