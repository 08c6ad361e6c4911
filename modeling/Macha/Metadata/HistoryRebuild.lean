import Macha.Library.Run
import Macha.Metadata.History

/-!
# Rebuilding a stored commit

`store_commit`, `import_history` and `reanchor_history` check that the entry they
append rebuilds the commit, and then write it. They do not check that a reader
accepts the entry: a frame above the reader's limit is written and never read again.
-/

namespace Macha

open List Option OrdMap

/-- A frame of `history.log`, all of it written. -/
structure HistoryFrame where
  fileOffset : Nat
  frameBytes : Nat
  entry : MetadataHistoryEntry
deriving DecidableEq, Repr

structure HistoryReplica where
  frames : List HistoryFrame := []
  historyBytes : Nat := 0
  history : HistoryIndex := ∅
  /-- `materialized_history_`. -/
  cache : OrdMap Hash256 (MetadataRecord × MetadataSnapshot) := ∅
  /-- Commits that were stored and not discarded since. -/
  stored : List MetadataRecord := []

inductive HistoryEvent
  | storeCommit (record : MetadataRecord) (encodedDelta : ByteString)
  | importHistory (entry : MetadataHistoryEntry)
  | reanchorHistory (entry : MetadataHistoryEntry)
  | materialize (hash : Hash256)
  /-- The cache lets a commit go. -/
  | evict (hash : Hash256)
  | restart
  /-- `compact_history_if_safe` with the sole accepted head. -/
  | compact (head : Hash256)

section

variable (codec : CommitCodec)

/-- `load_history`, which refuses a log with a record that is too large. -/
def loadHistory (frames : List HistoryFrame) : Option HistoryIndex := do
  guard (∀ f ∈ frames, f.frameBytes - 4 ≤ maxHistoryRecord)
  some (frames.foldl
    (fun history f => codec.loadEntry history f.entry f.fileOffset f.frameBytes) ∅)

namespace HistoryReplica

def readHistoryEntry (r : HistoryReplica) (index : HistoryIndexEntry) :
    Option MetadataHistoryEntry := do
  let frame ← r.frames.find? fun f =>
    f.fileOffset = index.fileOffset ∧ f.frameBytes = index.frameBytes
  guard (frame.entry.readable = true ∧ frame.entry.matchesIndex index = true)
  some frame.entry

/-- The body of an entry rebuilt, and checked against the entry. -/
def checkBody (e : MetadataHistoryEntry) (body : MetadataRecord × MetadataSnapshot) :
    Option (MetadataRecord × MetadataSnapshot) := do
  guard (codec.validMetadataRecord body.1 = true ∧ body.2.mergeParents = e.mergeParents)
  some body

/-- The walk of `materialized` from a commit to a whole body or one in the cache, and
back over the deltas. Generations fall on the way, so that of the commit bounds it;
the source gives up at a hash it has seen. -/
def rebuild (r : HistoryReplica) : Nat → Hash256 → Option (MetadataRecord × MetadataSnapshot)
  | 0, _ => none
  | fuel + 1, hash => do
    let index ← r.history[hash]?
    match r.cache[hash]? with
    | some cached => some cached
    | none =>
      match index.body with
      | .full => do
        let anchor ← r.readHistoryEntry index
        let body ← codec.wholeBody anchor
        checkBody codec anchor body
      | .delta => do
        guard (index.previousKnown = true)
        let parent ← r.rebuild fuel index.previous
        let child ← r.readHistoryEntry index
        guard (child.previous = parent.1.hash ∧ parent.1.generation < child.generation)
        let body ← codec.applyBody parent.2 child
        checkBody codec child body

def materialized (r : HistoryReplica) (hash : Hash256) :
    Option (MetadataRecord × MetadataSnapshot) := do
  let index ← r.history[hash]?
  let value ← r.rebuild codec (index.generation + 1) hash
  guard (value.1.hash = hash)
  some value

/-- `write_history_frame` and the index of the entry, new or in place of the old. -/
def push (r : HistoryReplica) (e : MetadataHistoryEntry) (frameBytes : Nat)
    (value : MetadataRecord × MetadataSnapshot) : HistoryReplica where
  frames := r.frames ++ [⟨r.historyBytes, frameBytes, e⟩]
  historyBytes := r.historyBytes + frameBytes
  history := r.history.insert e.hash (e.index r.historyBytes frameBytes)
  cache := r.cache.insert e.hash value
  stored := value.1 :: r.stored

/-- The end of `store_commit` and `import_history`: a commit that is here is left
alone, a delta needs the commit before it. -/
def appendEntry (r : HistoryReplica) (e : MetadataHistoryEntry)
    (value : MetadataRecord × MetadataSnapshot) : Option HistoryReplica := do
  let frameBytes ← e.encodeHistoryFrame
  if (r.history[e.hash]?).isSome then some { r with stored := value.1 :: r.stored }
  else do
    guard (e.body = .delta → (r.history[e.previous]?).isSome = true)
    some (r.push e frameBytes value)

def knows (r : HistoryReplica) (record : MetadataRecord) : Bool :=
  decide (1 < record.generation ∧ record.previous ≠ Hash256.zero) &&
    (r.history[record.previous]?).isSome

/-- The entry `store_commit` makes: a delta if there is one and the commit before it
can be rebuilt. -/
def commitEntry (r : HistoryReplica) (record : MetadataRecord) (encodedDelta : ByteString)
    (snapshot : MetadataSnapshot) : MetadataHistoryEntry :=
  let delta := decide (encodedDelta ≠ []) && r.knows record &&
    (r.materialized codec record.previous).isSome
  { generation := record.generation
    previous := record.previous
    hash := record.hash
    previousKnown := r.knows record
    mergeParents := snapshot.mergeParents
    body := if delta then .delta else .full
    payload := if delta then encodedDelta else record.payload }

/-- The body of an entry over what is here. -/
def rebuildBody (r : HistoryReplica) (e : MetadataHistoryEntry) :
    Option (MetadataRecord × MetadataSnapshot) :=
  match e.body with
  | .full => codec.wholeBody e
  | .delta => do
    let parent ← r.materialized codec e.previous
    guard (parent.1.generation < e.generation)
    codec.applyBody parent.2 e

def storeCommit (r : HistoryReplica) (record : MetadataRecord) (encodedDelta : ByteString) :
    Option HistoryReplica := do
  guard (codec.validMetadataRecord record = true)
  let snapshot ← codec.decodeSnapshot record.payload
  let e := r.commitEntry codec record encodedDelta snapshot
  let value ← r.rebuildBody codec e
  guard (value.1 = record)
  r.appendEntry e value

/-- The entry `import_history` makes: a whole one claims no commit that is absent. -/
def importedEntry (r : HistoryReplica) (e : MetadataHistoryEntry) : MetadataHistoryEntry :=
  if e.body = .full ∧ e.previousKnown = true ∧ e.previous ≠ Hash256.zero ∧
      r.history[e.previous]? = none then
    { e with previousKnown := false }
  else e

def importHistory (r : HistoryReplica) (e : MetadataHistoryEntry) : Option HistoryReplica := do
  guard (e.generation ≠ 0 ∧ e.hash ≠ Hash256.zero ∧ e.mergeParents.length ≤ 64)
  guard (e.body = .delta → e.previousKnown = true)
  let e := r.importedEntry e
  let value ← r.rebuildBody codec e
  let value ← checkBody codec e value
  r.appendEntry e value

def reanchorHistory (r : HistoryReplica) (e : MetadataHistoryEntry) : Option HistoryReplica := do
  guard (e.body = .full ∧ e.generation ≠ 0 ∧ e.hash ≠ Hash256.zero ∧ e.mergeParents.length ≤ 64)
  let value ← codec.wholeBody e
  let value ← checkBody codec e value
  guard ((r.history[e.hash]?).all fun existing =>
    decide (existing.generation = e.generation ∧ existing.previous = e.previous))
  if (r.history[e.hash]?).isSome && (r.materialized codec e.hash).isSome then
    some { r with stored := value.1 :: r.stored }
  else do
    let e := { e with previousKnown := r.knows value.1 }
    let frameBytes ← e.encodeHistoryFrame
    some (r.push e frameBytes value)

/-- The next process, with an empty history if the log is refused. -/
def restart (r : HistoryReplica) : HistoryReplica :=
  { r with history := (loadHistory codec r.frames).getD ∅, cache := ∅ }

def compact (r : HistoryReplica) (head : Hash256) : Option HistoryReplica := do
  let value ← r.materialized codec head
  let snapshot ← codec.decodeSnapshot value.1.payload
  let root : MetadataHistoryEntry :=
    { generation := value.1.generation
      previous := value.1.previous
      hash := value.1.hash
      previousKnown := false
      mergeParents := snapshot.mergeParents
      body := .full
      payload := value.1.payload }
  let frameBytes ← root.encodeHistoryFrame
  some (push {} root frameBytes (value.1, snapshot))

def step (r : HistoryReplica) : HistoryEvent → Option HistoryReplica
  | .storeCommit record encodedDelta => r.storeCommit codec record encodedDelta
  | .importHistory e => r.importHistory codec e
  | .reanchorHistory e => r.reanchorHistory codec e
  | .materialize hash => do
    let value ← r.materialized codec hash
    some { r with cache := r.cache.insert hash value }
  | .evict hash => some { r with cache := r.cache.erase hash }
  | .restart => some (r.restart codec)
  | .compact head => r.compact codec head

end HistoryReplica

abbrev HistoryStep := Computes (HistoryReplica.step codec)

def AllRebuilt (r : HistoryReplica) : Prop :=
  ∀ record ∈ r.stored, (r.materialized codec record.hash).map (·.1) = some record

/-- What is appended can be read again: the commit and its merge parents have names,
a first commit claims none before it, and the frame is within the reader's limit. -/
def AppendsReadable (t : Transition HistoryReplica HistoryEvent) : Prop :=
  match t.event with
  | .storeCommit record encodedDelta =>
    record.hash ≠ Hash256.zero ∧ ∀ snapshot, codec.decodeSnapshot record.payload = some snapshot →
        MetadataHistoryEntry.parentsNamed record.hash snapshot.mergeParents = true ∧
          82 + 32 * snapshot.mergeParents.length + max record.payload.length encodedDelta.length ≤
            blobLimit
  | .importHistory e => e.readable = true
  | .reanchorHistory e =>
    MetadataHistoryEntry.parentsNamed e.hash e.mergeParents = true ∧ e.encodedSize ≤ blobLimit
  | .compact head =>
    head ≠ Hash256.zero ∧ ∀ value snapshot, t.before.materialized codec head = some value →
      codec.decodeSnapshot value.1.payload = some snapshot →
        MetadataHistoryEntry.parentsNamed head snapshot.mergeParents = true ∧
          82 + 32 * snapshot.mergeParents.length + value.1.payload.length ≤ blobLimit
  | _ => True

end

namespace HistoryReplica

section

variable {codec : CommitCodec} {r next : HistoryReplica} {e : MetadataHistoryEntry}

theorem checkBody_eq_some {body value : MetadataRecord × MetadataSnapshot}
    (h : checkBody codec e body = some value) :
    value = body ∧ codec.validMetadataRecord body.1 = true ∧
      body.2.mergeParents = e.mergeParents := by
  obtain ⟨hcheck, h⟩ := guard_bind_eq_some h
  cases h
  exact ⟨rfl, hcheck⟩

theorem checkBody_of {body : MetadataRecord × MetadataSnapshot}
    (hvalid : codec.validMetadataRecord body.1 = true)
    (hparents : body.2.mergeParents = e.mergeParents) : checkBody codec e body = some body := by
  unfold checkBody
  rw [guard_of ⟨hvalid, hparents⟩]
  rfl

/-- What a commit is rebuilt to from the log alone. -/
inductive Chain (codec : CommitCodec) (r : HistoryReplica) :
    Hash256 → MetadataRecord × MetadataSnapshot → Prop
  | full {hash : Hash256} {index : HistoryIndexEntry} {e : MetadataHistoryEntry}
      {value : MetadataRecord × MetadataSnapshot} :
      r.history[hash]? = some index → index.body = .full → r.readHistoryEntry index = some e →
        codec.wholeBody e = some value → checkBody codec e value = some value →
          Chain codec r hash value
  | delta {hash : Hash256} {index : HistoryIndexEntry} {e : MetadataHistoryEntry}
      {parent value : MetadataRecord × MetadataSnapshot} :
      r.history[hash]? = some index → index.body = .delta → index.previousKnown = true →
        Chain codec r index.previous parent → r.readHistoryEntry index = some e →
          e.previous = parent.1.hash → parent.1.generation < e.generation →
            codec.applyBody parent.2 e = some value → checkBody codec e value = some value →
              Chain codec r hash value

theorem Chain.unique {hash : Hash256} {a b : MetadataRecord × MetadataSnapshot}
    (ha : Chain codec r hash a) (hb : Chain codec r hash b) : a = b := by
  induction ha generalizing b with
  | full hindex hbody hread hvalue _ =>
    cases hb with
    | full hindex' _ hread' hvalue' _ =>
      cases hindex.symm.trans hindex'
      cases hread.symm.trans hread'
      exact some_inj.1 (hvalue.symm.trans hvalue')
    | delta hindex' hbody' =>
      cases hindex.symm.trans hindex'
      rw [hbody] at hbody'
      cases hbody'
  | delta hindex hbody _ _ hread _ _ hvalue _ ih =>
    cases hb with
    | full hindex' hbody' =>
      cases hindex.symm.trans hindex'
      rw [hbody] at hbody'
      cases hbody'
    | delta hindex' _ _ hparent' hread' _ _ hvalue' _ =>
      cases hindex.symm.trans hindex'
      cases hread.symm.trans hread'
      cases ih hparent'
      exact some_inj.1 (hvalue.symm.trans hvalue')

theorem readHistoryEntry_matches {index : HistoryIndexEntry}
    (h : r.readHistoryEntry index = some e) : e.hash = index.hash ∧
      e.generation = index.generation := by
  obtain ⟨frame, -, h⟩ := bind_eq_some_iff.1 h
  obtain ⟨⟨-, hmatches⟩, h⟩ := guard_bind_eq_some h
  cases h
  have hall := of_decide_eq_true hmatches
  exact ⟨hall.1, hall.2.1⟩

variable {value : MetadataRecord × MetadataSnapshot} {frameBytes : Nat}

theorem wholeBody_record (h : codec.wholeBody e = some value) :
    value.1 = ⟨e.generation, e.previous, e.hash, e.payload⟩ ∧
      codec.decodeSnapshot e.payload = some value.2 := by
  obtain ⟨snapshot, hsnapshot, h⟩ := bind_eq_some_iff.1 h
  cases h
  exact ⟨rfl, hsnapshot⟩

theorem applyBody_record {parent : MetadataSnapshot} (h : codec.applyBody parent e = some value) :
    value.1.generation = e.generation ∧ value.1.hash = e.hash ∧
      codec.encodeSnapshot value.2 = some value.1.payload ∧
        (codec.decodeDelta e.payload).isSome = true := by
  obtain ⟨delta, hdelta, h⟩ := bind_eq_some_iff.1 h
  obtain ⟨snapshot, -, h⟩ := bind_eq_some_iff.1 h
  obtain ⟨payload, hpayload, h⟩ := bind_eq_some_iff.1 h
  obtain ⟨-, hpayload⟩ := guard_bind_eq_some hpayload
  cases h
  refine ⟨rfl, rfl, hpayload, ?_⟩
  rw [hdelta]
  rfl

def Keyed (history : HistoryIndex) : Prop :=
  ∀ (hash : Hash256) index, history[hash]? = some index → index.hash = hash

theorem Chain.identity (keyed : Keyed r.history) {hash : Hash256} (h : Chain codec r hash value) :
    value.1.hash = hash ∧ codec.validMetadataRecord value.1 = true ∧
      ∃ index, r.history[hash]? = some index ∧ value.1.generation = index.generation := by
  cases h with
  | full hindex _ hread hvalue hcheck =>
    obtain ⟨hhash, hgeneration⟩ := readHistoryEntry_matches hread
    obtain ⟨hrecord, -⟩ := wholeBody_record hvalue
    refine ⟨?_, (checkBody_eq_some hcheck).2.1, _, hindex, ?_⟩
    · rw [hrecord]
      exact hhash.trans (keyed _ _ hindex)
    · rw [hrecord]
      exact hgeneration
  | delta hindex _ _ _ hread _ _ hvalue hcheck =>
    obtain ⟨hhash, hgeneration⟩ := readHistoryEntry_matches hread
    obtain ⟨hgen, hrecord, -, -⟩ := applyBody_record hvalue
    exact ⟨hrecord.trans (hhash.trans (keyed _ _ hindex)), (checkBody_eq_some hcheck).2.1, _,
      hindex, hgen.trans hgeneration⟩

def CacheSound (codec : CommitCodec) (r : HistoryReplica) : Prop :=
  ∀ (hash : Hash256) value, r.cache[hash]? = some value → Chain codec r hash value

theorem rebuild_of_chain (hcache : CacheSound codec r) {hash : Hash256}
    (h : Chain codec r hash value) {fuel : Nat} (hfuel : value.1.generation < fuel) :
    r.rebuild codec fuel hash = some value := by
  induction h generalizing fuel with
  | @full hash index e value hindex hbody hread hvalue hcheck =>
    cases fuel with
    | zero => omega
    | succ fuel =>
      unfold rebuild
      rw [hindex, bind_eq_bind, bind_some]
      cases hcached : r.cache[hash]? with
      | some cached =>
        exact congrArg some ((hcache hash cached hcached).unique
          (.full hindex hbody hread hvalue hcheck))
      | none =>
        rw [hbody]
        rw [hread, bind_eq_bind, bind_some, hvalue, bind_eq_bind,
          bind_some]
        exact hcheck
  | @delta hash index e parent value hindex hbody hknown hparent hread hprevious hgeneration hvalue
      hcheck ih =>
      have hvalueGeneration := (applyBody_record hvalue).1
      cases fuel with
      | zero => omega
      | succ fuel =>
        unfold rebuild
        rw [hindex, bind_eq_bind, bind_some]
        cases hcached : r.cache[hash]? with
        | some cached =>
          exact congrArg some ((hcache hash cached hcached).unique
            (.delta hindex hbody hknown hparent hread hprevious hgeneration hvalue hcheck))
        | none =>
          rw [hbody]
          rw [guard_of hknown, ih (by omega)]
          show Option.bind (r.readHistoryEntry index) _ = _
          rw [hread, bind_some, guard_of ⟨hprevious, hgeneration⟩]
          show Option.bind (codec.applyBody parent.2 e) _ = _
          rw [hvalue, bind_some]
          exact hcheck

theorem chain_of_rebuild (hcache : CacheSound codec r) {fuel : Nat} {hash : Hash256}
    (h : r.rebuild codec fuel hash = some value) :
    Chain codec r hash value := by
  induction fuel generalizing hash value with
  | zero => cases h
  | succ fuel ih =>
    obtain ⟨index, hindex, h⟩ := bind_eq_some_iff.1 h
    cases hcached : r.cache[hash]? with
    | some cached =>
      rw [hcached] at h
      cases h
      exact hcache hash _ hcached
    | none =>
      rw [hcached] at h
      dsimp only at h
      split at h
      · next hbody =>
        obtain ⟨e, hread, h⟩ := bind_eq_some_iff.1 h
        obtain ⟨body, hvalue, h⟩ := bind_eq_some_iff.1 h
        obtain ⟨rfl, hvalid, hparents⟩ := checkBody_eq_some h
        exact .full hindex hbody hread hvalue (checkBody_of hvalid hparents)
      · next hbody =>
        obtain ⟨hknown, h⟩ := guard_bind_eq_some h
        obtain ⟨parent, hparent, h⟩ := bind_eq_some_iff.1 h
        obtain ⟨e, hread, h⟩ := bind_eq_some_iff.1 h
        obtain ⟨⟨hprevious, hgeneration⟩, h⟩ := guard_bind_eq_some h
        obtain ⟨body, hvalue, h⟩ := bind_eq_some_iff.1 h
        obtain ⟨rfl, hvalid, hparents⟩ := checkBody_eq_some h
        exact .delta hindex hbody hknown (ih hparent) hread hprevious hgeneration hvalue
          (checkBody_of hvalid hparents)

theorem materialized_of_chain (keyed : Keyed r.history) (hcache : CacheSound codec r)
    {hash : Hash256} (h : Chain codec r hash value) :
    r.materialized codec hash = some value := by
  obtain ⟨hhash, -, index, hindex, hgeneration⟩ := h.identity keyed
  unfold materialized
  rw [hindex, bind_eq_bind, bind_some,
    rebuild_of_chain hcache h (by omega), bind_eq_bind, bind_some,
    guard_of hhash]
  rfl

theorem chain_of_materialized (hcache : CacheSound codec r) {hash : Hash256}
    (h : r.materialized codec hash = some value) :
    Chain codec r hash value ∧ value.1.hash = hash := by
  obtain ⟨index, -, h⟩ := bind_eq_some_iff.1 h
  obtain ⟨found, hfound, h⟩ := bind_eq_some_iff.1 h
  obtain ⟨hhash, h⟩ := guard_bind_eq_some h
  cases h
  exact ⟨chain_of_rebuild hcache hfound, hhash⟩

theorem Chain.mono {hash : Hash256} (h : Chain codec r hash value)
    (hhistory : ∀ (hash : Hash256) index, r.history[hash]? = some index →
      next.history[hash]? = some index)
    (hread : ∀ index e, r.readHistoryEntry index = some e → next.readHistoryEntry index = some e) :
    Chain codec next hash value := by
  induction h with
  | full hindex hbody hentry hvalue hcheck =>
    exact .full (hhistory _ _ hindex) hbody (hread _ _ hentry) hvalue hcheck
  | delta hindex hbody hknown _ hentry hprevious hgeneration hvalue hcheck ih =>
    exact .delta (hhistory _ _ hindex) hbody hknown ih (hread _ _ hentry) hprevious hgeneration
      hvalue hcheck

structure Sound (codec : CommitCodec) (r : HistoryReplica) : Prop where
  keyed : Keyed r.history
  cache : CacheSound codec r
  chains : ∀ (hash : Hash256) index, r.history[hash]? = some index →
    ∃ value, Chain codec r hash value
  reload : loadHistory codec r.frames = some r.history
  placed : ∀ f ∈ r.frames, 0 < f.frameBytes ∧ f.fileOffset + f.frameBytes ≤ r.historyBytes
  stored : ∀ record ∈ r.stored, codec.validMetadataRecord record = true ∧
    (r.history[record.hash]?).isSome = true

theorem Sound.allRebuilt (inv : Sound codec r) : AllRebuilt codec r := by
  intro record hrecord
  obtain ⟨hvalid, hsome⟩ := inv.stored record hrecord
  obtain ⟨index, hindex⟩ := isSome_iff_exists.1 hsome
  obtain ⟨value, hchain⟩ := inv.chains record.hash index hindex
  obtain ⟨hhash, hvalid', -⟩ := hchain.identity inv.keyed
  rw [materialized_of_chain inv.keyed inv.cache hchain, map_some]
  exact congrArg some (codec.eq_of_hash_eq hvalid' hvalid hhash)

def BodyOf (codec : CommitCodec) (r : HistoryReplica) (e : MetadataHistoryEntry)
    (value : MetadataRecord × MetadataSnapshot) : Prop :=
  checkBody codec e value = some value ∧ (e.body = .full ∧ codec.wholeBody e = some value ∨
      e.body = .delta ∧ e.previousKnown = true ∧ ∃ parent, Chain codec r e.previous parent ∧
        e.previous = parent.1.hash ∧ parent.1.generation < e.generation ∧
          codec.applyBody parent.2 e = some value)

theorem BodyOf.hash (h : BodyOf codec r e value) : value.1.hash = e.hash := by
  rcases h.2 with ⟨-, hvalue⟩ | ⟨-, -, parent, -, -, -, hvalue⟩
  · rw [(wholeBody_record hvalue).1]
  · exact (applyBody_record hvalue).2.1

theorem BodyOf.loadable (keyed : Keyed r.history) (h : BodyOf codec r e value) :
    codec.loadable r.history e = true := by
  obtain ⟨hcheck, h⟩ := h
  unfold CommitCodec.loadable
  rcases h with ⟨hbody, hvalue⟩ | ⟨hbody, hknown, parent, hparent, -, hgeneration, hvalue⟩
  · rw [hbody]
    rw [← (wholeBody_record hvalue).1]
    exact (checkBody_eq_some hcheck).2.1
  · obtain ⟨-, hvalid, index, hindex, hparentGeneration⟩ := hparent.identity keyed
    have hpositive := (of_decide_eq_true hvalid).1
    rw [hbody]
    rw [hknown, hindex, any_some, (applyBody_record hvalue).2.2.2,
      decide_eq_true (by omega : 1 < e.generation),
      decide_eq_true (by omega : index.generation < e.generation)]
    rfl

theorem readHistoryEntry_push {index : HistoryIndexEntry} {found : MetadataHistoryEntry}
    (h : r.readHistoryEntry index = some found) :
    (r.push e frameBytes value).readHistoryEntry index = some found := by
  obtain ⟨frame, hframe, h⟩ := bind_eq_some_iff.1 h
  unfold readHistoryEntry push
  rw [find?_append, hframe]
  exact h

theorem Sound.read_push (inv : Sound codec r) (frameBytes : Nat)
    (value : MetadataRecord × MetadataSnapshot) (hreadable : e.readable = true) :
    (r.push e frameBytes value).readHistoryEntry (e.index r.historyBytes frameBytes) = some e := by
  have hnone : r.frames.find? (fun f => decide (f.fileOffset = r.historyBytes ∧
      f.frameBytes = frameBytes)) = none := by
    refine find?_eq_none.2 fun f hf hsame => ?_
    obtain ⟨hpositive, hplace⟩ := inv.placed f hf
    have heq := of_decide_eq_true hsame
    omega
  show Option.bind (find? (fun f => decide (f.fileOffset = r.historyBytes ∧
    f.frameBytes = frameBytes)) (r.frames ++ [⟨r.historyBytes, frameBytes, e⟩])) _ = _
  rw [find?_append, hnone, none_or,
    find?_cons_of_pos (p := fun f : HistoryFrame => decide (f.fileOffset = r.historyBytes ∧
      f.frameBytes = frameBytes)) (decide_eq_true ⟨rfl, rfl⟩), bind_some,
    guard_of ⟨hreadable, e.matchesIndex_index _ _⟩]
  rfl

theorem loadHistory_snoc {frames : List HistoryFrame} {history : HistoryIndex}
    (h : loadHistory codec frames = some history) {f : HistoryFrame}
    (hsize : f.frameBytes - 4 ≤ maxHistoryRecord) :
    loadHistory codec (frames ++ [f]) =
      some (codec.loadEntry history f.entry f.fileOffset f.frameBytes) := by
  obtain ⟨hall, h⟩ := guard_bind_eq_some h
  unfold loadHistory
  rw [guard_of, bind_eq_bind, bind_some, foldl_append, some_inj.1 h]
  · rfl
  · intro g hg
    rcases mem_append.1 hg with hg | hg
    · exact hall g hg
    · rw [mem_singleton.1 hg]
      exact hsize

theorem readable_size (h : e.readable = true) : e.frameSize - 4 ≤ maxHistoryRecord := by
  have hsize := of_decide_eq_true ((Bool.and_eq_true _ _).mp h).2
  unfold MetadataHistoryEntry.frameSize maxHistoryRecord
  unfold blobLimit at hsize
  omega

theorem encodeHistoryFrame_eq (h : e.encodeHistoryFrame = some frameBytes) :
    e.mergeParents.length ≤ 64 ∧ frameBytes = e.frameSize := by
  obtain ⟨hfits, h⟩ := guard_bind_eq_some h
  cases h
  exact ⟨hfits.1, rfl⟩

section

variable (inv : Sound codec r)

include inv

theorem Sound.push (hnew : r.history[e.hash]? = none) (hreadable : e.readable = true)
    (hframe : e.encodeHistoryFrame = some frameBytes) (hbody : BodyOf codec r e value) :
    Sound codec (r.push e frameBytes value) := by
  obtain ⟨-, rfl⟩ := encodeHistoryFrame_eq hframe
  have hindex : ∀ (hash : Hash256) index, r.history[hash]? = some index →
      (r.push e e.frameSize value).history[hash]? = some index := by
    intro hash index hold
    have hne : e.hash ≠ hash := by
      rintro rfl
      rw [hnew] at hold
      cases hold
    exact (getElem?_insert_of_ne _ _ hne).trans hold
  have hchain : ∀ {hash : Hash256} {value' : MetadataRecord × MetadataSnapshot},
      Chain codec r hash value' → Chain codec (r.push e e.frameSize value) hash value' :=
    fun h => h.mono hindex fun _ _ => readHistoryEntry_push
  have hread := inv.read_push e.frameSize value hreadable
  have hhere : (r.push e e.frameSize value).history[e.hash]? =
      some (e.index r.historyBytes e.frameSize) := getElem?_insert_self _ _ _
  have hself : Chain codec (r.push e e.frameSize value) e.hash value := by
    obtain ⟨hcheck, hfull | ⟨hdelta, hknown, parent, hparent, hprevious, hgeneration, hvalue⟩⟩ :=
      hbody
    · exact .full hhere hfull.1 hread hfull.2 hcheck
    · exact .delta hhere hdelta hknown (hchain hparent) hread hprevious hgeneration hvalue hcheck
  refine ⟨fun hash index h => ?_, fun hash found h => ?_, fun hash index h => ?_, ?_,
    fun f hf => ?_, fun record hrecord => ?_⟩
  · rcases getElem?_insert_eq_some h with ⟨rfl, rfl⟩ | ⟨-, hold⟩
    · rfl
    · exact inv.keyed hash index hold
  · rcases getElem?_insert_eq_some h with ⟨rfl, rfl⟩ | ⟨-, hold⟩
    · exact hself
    · exact hchain (inv.cache hash found hold)
  · rcases getElem?_insert_eq_some h with ⟨rfl, -⟩ | ⟨-, hold⟩
    · exact ⟨value, hself⟩
    · obtain ⟨found, hfound⟩ := inv.chains hash index hold
      exact ⟨found, hchain hfound⟩
  · refine (loadHistory_snoc inv.reload (readable_size hreadable)).trans (congrArg some ?_)
    exact codec.loadEntry_of_new hreadable (hbody.loadable inv.keyed) hnew _ _
  · rcases mem_append.1 hf with hf | hf
    · obtain ⟨hpositive, hplace⟩ := inv.placed f hf
      exact ⟨hpositive, hplace.trans (Nat.le_add_right _ _)⟩
    · rw [mem_singleton.1 hf]
      refine ⟨?_, Nat.le_refl _⟩
      show 0 < e.frameSize
      unfold MetadataHistoryEntry.frameSize
      omega
  · rcases mem_cons.1 hrecord with rfl | hrecord
    · refine ⟨(checkBody_eq_some hbody.1).2.1, ?_⟩
      rw [hbody.hash, hhere]
      rfl
    · obtain ⟨hvalid, hsome⟩ := inv.stored record hrecord
      obtain ⟨index, hold⟩ := isSome_iff_exists.1 hsome
      refine ⟨hvalid, ?_⟩
      rw [hindex _ _ hold]
      rfl

/-- What the log says depends neither on the cache nor on what was stored. -/
theorem Sound.withMemory {cache : OrdMap Hash256 (MetadataRecord × MetadataSnapshot)}
    {stored : List MetadataRecord}
    (hcache : ∀ hash value, cache[hash]? = some value → Chain codec r hash value)
    (hstored : ∀ record ∈ stored, codec.validMetadataRecord record = true ∧
      (r.history[record.hash]?).isSome = true) :
    Sound codec { r with cache := cache, stored := stored } := by
  have hchain : ∀ {hash : Hash256} {value : MetadataRecord × MetadataSnapshot},
      Chain codec r hash value → Chain codec { r with cache := cache, stored := stored } hash value :=
    fun h => h.mono (fun _ _ h => h) fun _ _ h => h
  refine ⟨inv.keyed, fun hash value h => hchain (hcache hash value h), fun hash index h => ?_,
    inv.reload, inv.placed, hstored⟩
  obtain ⟨value, hvalue⟩ := inv.chains hash index h
  exact ⟨value, hchain hvalue⟩

theorem Sound.again {record : MetadataRecord} (hvalid : codec.validMetadataRecord record = true)
    (hhere : (r.history[record.hash]?).isSome = true) :
    Sound codec { r with stored := record :: r.stored } := by
  refine inv.withMemory inv.cache fun other hother => ?_
  rcases mem_cons.1 hother with rfl | hother
  · exact ⟨hvalid, hhere⟩
  · exact inv.stored other hother

omit inv in
theorem sound_start : Sound codec {} where
  keyed _ _ h := elim_empty h
  cache _ _ h := elim_empty h
  chains _ _ h := elim_empty h
  reload := rfl
  placed := nofun
  stored := nofun

theorem sound_appendEntry (hreadable : e.mergeParents.length ≤ 64 → e.readable = true)
    (hbody : BodyOf codec r e value) (h : r.appendEntry e value = some next) :
    Sound codec next := by
  obtain ⟨frameBytes, hframe, h⟩ := bind_eq_some_iff.1 h
  have hread := hreadable (encodeHistoryFrame_eq hframe).1
  split at h
  · next hhere =>
    cases h
    refine inv.again (checkBody_eq_some hbody.1).2.1 ?_
    rw [hbody.hash]
    exact hhere
  · next habsent =>
    obtain ⟨-, h⟩ := guard_bind_eq_some h
    cases h
    exact inv.push (not_isSome_iff_eq_none.1 habsent) hread hframe hbody

theorem Sound.bodyOf (h : r.rebuildBody codec e = some value)
    (hknown : e.body = .delta → e.previousKnown = true)
    (hcheck : checkBody codec e value = some value) : BodyOf codec r e value := by
  refine ⟨hcheck, ?_⟩
  unfold rebuildBody at h
  cases hbody : e.body with
  | full =>
    rw [hbody] at h
    exact .inl ⟨rfl, h⟩
  | delta =>
    rw [hbody] at h
    obtain ⟨parent, hparent, h⟩ := bind_eq_some_iff.1 h
    obtain ⟨hgeneration, h⟩ := guard_bind_eq_some h
    obtain ⟨hchain, hhash⟩ := chain_of_materialized inv.cache hparent
    exact .inr ⟨rfl, hknown hbody, parent, hchain, hhash.symm, hgeneration, h⟩

omit inv in
theorem mergeParents_of_rebuildBody {snapshot : MetadataSnapshot}
    (h : r.rebuildBody codec e = some value)
    (hsnapshot : codec.decodeSnapshot value.1.payload = some snapshot) :
    value.2.mergeParents = snapshot.mergeParents := by
  unfold rebuildBody at h
  cases hbody : e.body with
  | full =>
    rw [hbody] at h
    obtain ⟨hrecord, hdecode⟩ := wholeBody_record h
    rw [hrecord] at hsnapshot
    cases hdecode.symm.trans hsnapshot
    rfl
  | delta =>
    rw [hbody] at h
    obtain ⟨parent, -, h⟩ := bind_eq_some_iff.1 h
    obtain ⟨-, h⟩ := guard_bind_eq_some h
    exact (codec.mergeParents_encodeSnapshot (applyBody_record h).2.2.1 hsnapshot).symm

theorem sound_storeCommit {record : MetadataRecord} {encodedDelta : ByteString}
    (hsafe : AppendsReadable codec ⟨r, .storeCommit record encodedDelta, next⟩)
    (h : r.storeCommit codec record encodedDelta = some next) : Sound codec next := by
  obtain ⟨hzero, hsafe⟩ := hsafe
  obtain ⟨hvalid, h⟩ := guard_bind_eq_some h
  obtain ⟨snapshot, hsnapshot, h⟩ := bind_eq_some_iff.1 h
  obtain ⟨value, hvalue, h⟩ := bind_eq_some_iff.1 h
  obtain ⟨hrecord, h⟩ := guard_bind_eq_some h
  obtain ⟨hparents, hsize⟩ := hsafe snapshot hsnapshot
  have hmerge : value.2.mergeParents = snapshot.mergeParents :=
    mergeParents_of_rebuildBody hvalue (hrecord ▸ hsnapshot)
  have hknown : (r.commitEntry codec record encodedDelta snapshot).body = .delta →
      (r.commitEntry codec record encodedDelta snapshot).previousKnown = true := by
    unfold commitEntry
    dsimp only
    intro hdelta
    split at hdelta
    · next hall => exact ((Bool.and_eq_true _ _).mp ((Bool.and_eq_true _ _).mp hall).1).2
    · cases hdelta
  refine sound_appendEntry inv (fun hcount => ?_)
    (inv.bodyOf hvalue hknown (checkBody_of (hrecord ▸ hvalid) hmerge)) h
  refine (Bool.and_eq_true _ _).mpr ⟨(Bool.and_eq_true _ _).mpr ⟨decide_eq_true ?_, hparents⟩,
    decide_eq_true ?_⟩
  · refine ⟨hcount, (of_decide_eq_true hvalid).1, hzero, fun hfirst => ?_, hknown⟩
    show r.knows record = false
    unfold knows
    rw [decide_eq_false (fun hlater => absurd hlater.1 (Nat.not_lt_of_le hfirst))]
    rfl
  · unfold MetadataHistoryEntry.encodedSize commitEntry
    dsimp only
    split <;> omega

theorem sound_importHistory (hsafe : e.readable = true) (h : r.importHistory codec e = some next) :
    Sound codec next := by
  obtain ⟨-, h⟩ := guard_bind_eq_some h
  obtain ⟨hknown, h⟩ := guard_bind_eq_some h
  obtain ⟨body, hvalue, h⟩ := bind_eq_some_iff.1 h
  obtain ⟨value, hcheck, happend⟩ := bind_eq_some_iff.1 h
  obtain ⟨rfl, hvalid, hparents⟩ := checkBody_eq_some hcheck
  have hentry : (r.importedEntry e).readable = true ∧
      ((r.importedEntry e).body = .delta → (r.importedEntry e).previousKnown = true) := by
    unfold importedEntry
    split
    · next hwhole =>
      refine ⟨?_, fun hdelta => ?_⟩
      · obtain ⟨hdecodes, hsize⟩ := (Bool.and_eq_true _ _).mp hsafe
        obtain ⟨hfields, hnamed⟩ := (Bool.and_eq_true _ _).mp hdecodes
        obtain ⟨hcount, hgeneration, hhash, -, -⟩ := of_decide_eq_true hfields
        refine (Bool.and_eq_true _ _).mpr ⟨(Bool.and_eq_true _ _).mpr ⟨decide_eq_true ?_,
          hnamed⟩, hsize⟩
        refine ⟨hcount, hgeneration, hhash, fun _ => rfl, fun hdelta => ?_⟩
        rw [show e.body = .delta from hdelta] at hwhole
        cases hwhole.1
      · rw [show e.body = .delta from hdelta] at hwhole
        cases hwhole.1
    · exact ⟨hsafe, hknown⟩
  exact sound_appendEntry inv (fun _ => hentry.1)
    (inv.bodyOf hvalue hentry.2 (checkBody_of hvalid hparents)) happend

theorem sound_reanchorHistory (hsafe : AppendsReadable codec ⟨r, .reanchorHistory e, next⟩)
    (h : r.reanchorHistory codec e = some next) : Sound codec next := by
  obtain ⟨hnamed, hsize⟩ := hsafe
  obtain ⟨⟨hfull, hgeneration, hhash, hcount⟩, h⟩ := guard_bind_eq_some h
  obtain ⟨body, hvalue, h⟩ := bind_eq_some_iff.1 h
  obtain ⟨value, hcheck, happend⟩ := bind_eq_some_iff.1 h
  obtain ⟨rfl, hvalid, hparents⟩ := checkBody_eq_some hcheck
  obtain ⟨-, happend⟩ := guard_bind_eq_some happend
  have hrecord := (wholeBody_record hvalue).1
  split at happend
  · next hhere =>
    cases happend
    refine inv.again hvalid ?_
    rw [hrecord]
    exact ((Bool.and_eq_true _ _).mp hhere).1
  · next habsent =>
    obtain ⟨frameBytes, hframe, happend⟩ := bind_eq_some_iff.1 happend
    cases happend
    have hnew : r.history[e.hash]? = none := by
      cases hfound : r.history[e.hash]? with
      | none => rfl
      | some index =>
        obtain ⟨found, hchain⟩ := inv.chains e.hash index hfound
        rw [hfound, materialized_of_chain inv.keyed inv.cache hchain] at habsent
        exact absurd rfl habsent
    refine inv.push hnew ?_ hframe
      ⟨checkBody_of hvalid hparents, .inl ⟨hfull, hvalue⟩⟩
    refine (Bool.and_eq_true _ _).mpr ⟨(Bool.and_eq_true _ _).mpr ⟨decide_eq_true ?_, hnamed⟩,
      decide_eq_true hsize⟩
    refine ⟨hcount, hgeneration, hhash, fun hfirst => ?_, fun hdelta => ?_⟩
    · unfold knows
      rw [hrecord, decide_eq_false (fun hlater => absurd hlater.1 (Nat.not_lt_of_le hfirst))]
      rfl
    · rw [show e.body = .delta from hdelta] at hfull
      cases hfull

theorem sound_compact {head : Hash256} (hsafe : AppendsReadable codec ⟨r, .compact head, next⟩)
    (h : r.compact codec head = some next) : Sound codec next := by
  obtain ⟨hzero, hsafe⟩ := hsafe
  obtain ⟨value, hvalue, h⟩ := bind_eq_some_iff.1 h
  obtain ⟨snapshot, hsnapshot, h⟩ := bind_eq_some_iff.1 h
  obtain ⟨frameBytes, hframe, h⟩ := bind_eq_some_iff.1 h
  cases h
  obtain ⟨hnamed, hsize⟩ := hsafe value snapshot hvalue hsnapshot
  obtain ⟨hchain, hhash⟩ := chain_of_materialized inv.cache hvalue
  obtain ⟨-, hvalid, -⟩ := hchain.identity inv.keyed
  refine sound_start.push Std.ExtTreeMap.getElem?_empty ?_ hframe
    ⟨checkBody_of hvalid rfl, .inl ⟨rfl, ?_⟩⟩
  · refine (Bool.and_eq_true _ _).mpr ⟨(Bool.and_eq_true _ _).mpr ⟨decide_eq_true ?_, ?_⟩,
      decide_eq_true ?_⟩
    · refine ⟨(encodeHistoryFrame_eq hframe).1, (of_decide_eq_true hvalid).1, ?_, fun _ => rfl,
        nofun⟩
      rw [hhash]
      exact hzero
    · rw [hhash]
      exact hnamed
    · unfold MetadataHistoryEntry.encodedSize
      dsimp only
      omega
  · unfold CommitCodec.wholeBody
    rw [hsnapshot]
    rfl

theorem sound_of_step {event : HistoryEvent} (h : HistoryStep codec r event next)
    (hsafe : AppendsReadable codec ⟨r, event, next⟩) : Sound codec next := by
  cases event with
  | storeCommit record encodedDelta => exact sound_storeCommit inv hsafe h
  | importHistory e => exact sound_importHistory inv hsafe h
  | reanchorHistory e => exact sound_reanchorHistory inv hsafe h
  | materialize hash =>
    obtain ⟨value, hvalue, h⟩ := bind_eq_some_iff.1 h
    cases h
    refine inv.withMemory (fun other found hfound => ?_) inv.stored
    rcases getElem?_insert_eq_some hfound with ⟨rfl, rfl⟩ | ⟨-, hold⟩
    · exact (chain_of_materialized inv.cache hvalue).1
    · exact inv.cache other found hold
  | evict hash =>
    cases h
    exact inv.withMemory
      (fun other found hfound => inv.cache other found (getElem?_erase_eq_some hfound).2) inv.stored
  | restart =>
    cases h
    unfold restart
    rw [inv.reload]
    exact inv.withMemory (fun other found hfound => elim_empty hfound) inv.stored
  | compact head => exact sound_compact inv hsafe h

end

theorem sound_of_run {events : List (Transition HistoryReplica HistoryEvent)}
    {last : HistoryReplica} (run : Run (Traced (HistoryStep codec)) {} events last)
    (hsafe : Always (fun _ t => AppendsReadable codec t) events) : Sound codec last :=
  run.invariant_of_always hsafe sound_start fun _ _ _ hstep inv hlast =>
    sound_of_step inv hstep hlast

end

end HistoryReplica

/-! ## A commit that is written and not read -/

namespace NumberedCommits

/-- A snapshot that differs by one sequence, and is as long as that. -/
def snapshot (n : Nat) : MetadataSnapshot :=
  { namespaceRoot := some [7], mutationSequences := (∅ : VersionClock).insert 1 n }

def encodeSnapshot (s : MetadataSnapshot) : Option ByteString := do
  let n ← s.mutationSequences[1]?
  guard (s = snapshot n)
  some (replicate n 0)

def decodeSnapshot (data : ByteString) : Option MetadataSnapshot := some (snapshot data.length)

def metadataHash (generation : Nat) (previous : Hash256) (payload : ByteString) : Hash256 :=
  [generation, previous.length] ++ previous ++ payload

theorem metadataHash_inj {g h : Nat} {p q : Hash256} {d e : ByteString}
    (heq : metadataHash g p d = metadataHash h q e) : g = h ∧ p = q ∧ d = e := by
  obtain ⟨hgeneration, htail⟩ := List.cons.inj heq
  obtain ⟨hlength, hrest⟩ := List.cons.inj htail
  obtain ⟨hprevious, hpayload⟩ := append_inj hrest hlength
  exact ⟨hgeneration, hprevious, hpayload⟩

theorem mergeParents_encode {s t : MetadataSnapshot} {d : ByteString}
    (hencode : encodeSnapshot s = some d) (hdecode : decodeSnapshot d = some t) :
    t.mergeParents = s.mergeParents := by
  obtain ⟨n, -, h⟩ := bind_eq_some_iff.1 hencode
  obtain ⟨hs, h⟩ := guard_bind_eq_some h
  cases h
  cases hdecode
  rw [hs]
  rfl

/-- The delta's last byte is the sequence it sets. -/
def codec : CommitCodec where
  metadataHash := metadataHash
  decodeSnapshot := decodeSnapshot
  encodeSnapshot := encodeSnapshot
  decodeDelta data := data.getLast?.map fun n => { mutationSequences := (∅ : VersionClock).insert 1 n }
  legacyFileId _ := 0
  applier := some fun root _ => .ok root
  metadataHash_injective := metadataHash_inj
  mergeParents_encodeSnapshot := mergeParents_encode

def record (generation : Nat) (previous : Hash256) (n : Nat) : MetadataRecord :=
  let payload := replicate n 0
  ⟨generation, previous, metadataHash generation previous payload, payload⟩

end NumberedCommits

namespace LargeEntry

open NumberedCommits HistoryReplica

def first (n : Nat) : MetadataRecord := record 1 Hash256.zero n

def entry (n : Nat) : MetadataHistoryEntry :=
  ⟨1, Hash256.zero, (first n).hash, false, [], .full, (first n).payload⟩

def written (n : Nat) : HistoryReplica :=
  push {} (entry n) (entry n).frameSize (first n, snapshot n)

theorem encodedSize_entry (n : Nat) : (entry n).encodedSize = 82 + n := by
  simp [MetadataHistoryEntry.encodedSize, entry, first, record]

theorem frameSize_entry (n : Nat) : (entry n).frameSize - 4 = 114 + n := by
  unfold MetadataHistoryEntry.frameSize
  rw [encodedSize_entry]
  omega

theorem storeCommit_first {n : Nat} (h : 114 + n < 2 ^ 32) :
    storeCommit codec {} (first n) [] = some (written n) := by
  have hvalid : codec.validMetadataRecord (first n) = true :=
    decide_eq_true ⟨Nat.one_ne_zero, rfl⟩
  have hdecode : codec.decodeSnapshot (first n).payload = some (snapshot n) :=
    congrArg (fun k => some (snapshot k)) length_replicate
  have hentry : commitEntry codec {} (first n) [] (snapshot n) = entry n := rfl
  have hbody : rebuildBody codec {} (entry n) = some (first n, snapshot n) := by
    show codec.wholeBody (entry n) = _
    unfold CommitCodec.wholeBody
    exact congrArg (Option.bind · fun s => some (first n, s)) hdecode
  have hframe : (entry n).encodeHistoryFrame = some (entry n).frameSize := by
    unfold MetadataHistoryEntry.encodeHistoryFrame
    rw [frameSize_entry, guard_of ⟨Nat.zero_le _, h⟩]
    rfl
  have happend : HistoryReplica.appendEntry {} (entry n) (first n, snapshot n) = some (written n) := by
    unfold HistoryReplica.appendEntry
    rw [hframe]
    rfl
  simp [storeCommit, guard_of hvalid, hdecode, hentry, hbody, happend]

theorem history_restart {n : Nat} (h : blobLimit < 82 + n) (hfits : 114 + n ≤ maxHistoryRecord) :
    ((written n).restart codec).history = ∅ := by
  have hunread : (entry n).readable = false := by
    unfold MetadataHistoryEntry.readable
    rw [encodedSize_entry, decide_eq_false (Nat.not_le_of_lt h), Bool.and_false]
  have hload : codec.loadEntry ∅ (entry n) 0 (entry n).frameSize = ∅ := by
    unfold CommitCodec.loadEntry
    rw [hunread, if_neg Bool.false_ne_true]
  show ((loadHistory codec [⟨0, (entry n).frameSize, entry n⟩]).getD ∅) = _
  unfold loadHistory
  rw [foldl_cons, hload, foldl_nil]
  rw [guard_of fun f hf => ?_]
  · rfl
  · rw [mem_singleton.1 hf]
    exact (frameSize_entry n).le.trans hfits

/-- A commit of more than 256 MiB is stored, and after a restart it is gone. -/
theorem stored_commit_lost : ∃ trace last, Run (Traced (HistoryStep codec)) {} trace last ∧
    trace.map (·.event) = [.storeCommit (first blobLimit) [], .restart] ∧
      last.stored = [first blobLimit] ∧
        last.materialized codec (first blobLimit).hash = none ∧ ¬ AllRebuilt codec last := by
  have hstore : HistoryStep codec {} (.storeCommit (first blobLimit) []) (written blobLimit) :=
    storeCommit_first (by decide)
  have hgone : ((written blobLimit).restart codec).materialized codec (first blobLimit).hash =
      none := by
    unfold materialized
    rw [history_restart (by decide) (by decide), Std.ExtTreeMap.getElem?_empty]
    rfl
  refine ⟨_, _, Run.trace_snoc (Run.trace_snoc .refl hstore)
    (show HistoryStep codec _ .restart ((written blobLimit).restart codec) from rfl), rfl, rfl,
    hgone, fun hall => ?_⟩
  have hsome := hall (first blobLimit) mem_cons_self
  rw [hgone] at hsome
  cases hsome

end LargeEntry

/-- Over every run of stores, imports, re-anchorings, restarts and compactions a
stored commit is rebuilt exactly, as long as every entry appended is one that a
reader accepts. -/
theorem stored_commits_rebuilt {codec : CommitCodec}
    {events : List (Transition HistoryReplica HistoryEvent)} {last : HistoryReplica}
    (run : Run (Traced (HistoryStep codec)) {} events last)
    (hsafe : Always (fun _ t => AppendsReadable codec t) events) : AllRebuilt codec last :=
  (HistoryReplica.sound_of_run run hsafe).allRebuilt

namespace DeltaRestarted

open NumberedCommits

def first : MetadataRecord := record 1 Hash256.zero 1

def second : MetadataRecord := record 2 first.hash 2

def whole : HistoryReplica := (HistoryReplica.storeCommit codec {} first []).getD {}

def changed : HistoryReplica :=
  (whole.storeCommit codec second (bytes "DHTMDLT5" ++ [2])).getD {}

def restarted : HistoryReplica := changed.restart codec

/-- A whole commit and a delta over it, rebuilt in the next process. -/
theorem delta_rebuilt : restarted.stored = [second, first] ∧ AllRebuilt codec restarted := by
  refine ⟨by decide +kernel, ?_⟩
  have hwhole : HistoryStep codec {} (.storeCommit first []) whole :=
    computes_getD (by decide +kernel)
  have hchanged : HistoryStep codec whole
      (.storeCommit second (bytes "DHTMDLT5" ++ [2])) changed :=
    computes_getD (by decide +kernel)
  refine stored_commits_rebuilt
    (Run.trace_snoc (u := restarted)
      (Run.trace_snoc (Run.trace_snoc .refl hwhole) hchanged)
      (show HistoryStep codec changed .restart restarted from rfl)) ?_
  refine always_snoc.2 ⟨always_snoc.2 ⟨always_snoc.2 ⟨always_nil _, ?_⟩, ?_⟩, trivial⟩
  · refine ⟨by decide, fun snapshot h => ?_⟩
    cases h
    decide
  · refine ⟨by decide, fun snapshot h => ?_⟩
    cases h
    decide

end DeltaRestarted

end Macha
