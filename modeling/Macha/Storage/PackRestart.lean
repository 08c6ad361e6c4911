import Macha.Library.Run
import Macha.Storage.Packs

/-!
# The pack index after a restart

A start rebuilds the index from the records of all packs, in the order of their
names. Compaction copies only the put records the index names: what the victim pack
says of other objects, a remove or a touch, is gone with it, and a copied put has the
time of its own header. Whether the log still means the index depends on which pack
was taken.
-/

namespace Macha

open List OrdMap

/-- `decode_pack_header` takes a put only with a payload, and not too large a one. -/
def PackRecord.decodable (r : PackRecord) : Bool :=
  decide (r.type = .put → r.payload ≠ [] ∧ r.payload.length ≤ 128 * 1024 * 1024)

structure PlacedRecord where
  file : Nat
  offset : Nat
  record : PackRecord
deriving DecidableEq

def PlacedRecord.entry (p : PlacedRecord) : PackEntry where
  file := p.file
  offset := p.offset
  recordSize := p.record.size
  touchedMs := p.record.touchedMs

def placeRecords (sequence : Nat) : Nat → List PackRecord → List PlacedRecord
  | _, [] => []
  | offset, r :: rs => ⟨sequence, offset, r⟩ :: placeRecords sequence (offset + r.size) rs

/-- All records in the order a rebuild reads them. -/
def replayOrder (packs : List Pack) : List PlacedRecord :=
  packs.flatMap fun p => placeRecords p.sequence 0 p.records

/-- A torn tail, after which no header decodes, is cut off. -/
def trimTail (records : List PackRecord) : List PackRecord :=
  (records.reverse.dropWhile fun r => !r.decodable).reverse

def trimPacks (packs : List Pack) : List Pack :=
  packs.map fun p => { p with records := trimTail p.records }

/-- The index and the dead bytes a rebuild has found so far. -/
structure RebuiltIndex where
  index : PackIndex := ∅
  deadBytes : Nat := 0

/-- One record of `rebuild_pack_index`; one that does not decode is passed over. -/
def rebuildRecord (rebuilt : RebuiltIndex) (p : PlacedRecord) : RebuiltIndex :=
  let old := rebuilt.index[p.record.id]?
  if !p.record.decodable then
    { rebuilt with deadBytes := rebuilt.deadBytes + p.record.size }
  else
    match p.record.type with
    | .put =>
      { index := rebuilt.index.insert p.record.id p.entry
        deadBytes := rebuilt.deadBytes + (old.map (·.recordSize)).getD 0 }
    | .remove =>
      { index := rebuilt.index.erase p.record.id
        deadBytes := rebuilt.deadBytes + (old.map (·.recordSize)).getD 0 + p.record.size }
    | .touch =>
      { index :=
          match old with
          | some entry =>
            rebuilt.index.insert p.record.id { entry with touchedMs := p.record.touchedMs }
          | none => rebuilt.index
        deadBytes := rebuilt.deadBytes + p.record.size }

/-- `rebuild_pack_index` from the packs on disk. -/
def rebuildPackIndex (packs : List Pack) : RebuiltIndex :=
  (replayOrder (trimPacks packs)).foldl rebuildRecord {}

/-- What the record makes of one object's entry. -/
def onEntry (id : ObjectId) (entry : Option PackEntry) (p : PlacedRecord) : Option PackEntry :=
  if p.record.id = id then
    match p.record.type with
    | .put => some p.entry
    | .remove => none
    | .touch => entry.map fun e => { e with touchedMs := p.record.touchedMs }
  else entry

def replayEntry (id : ObjectId) (placed : List PlacedRecord) : Option PackEntry :=
  placed.foldl (onEntry id) none

variable {p : PlacedRecord} {records : List PackRecord}

theorem rebuildRecord_getElem? (rebuilt : RebuiltIndex) (hdecodable : p.record.decodable = true)
    (id : ObjectId) :
    (rebuildRecord rebuilt p).index[id]? = onEntry id rebuilt.index[id]? p := by
  unfold rebuildRecord onEntry
  rw [hdecodable]
  by_cases hid : p.record.id = id
  · subst hid
    rw [if_pos rfl]
    cases p.record.type with
    | put => exact getElem?_insert_self _ _ _
    | remove => exact (getElem?_erase _ _ _).trans (if_pos rfl)
    | touch =>
      cases hold : rebuilt.index[p.record.id]? with
      | none => exact hold
      | some old => exact getElem?_insert_self _ _ _
  · rw [if_neg hid]
    cases p.record.type with
    | put => exact getElem?_insert_of_ne _ _ hid
    | remove => exact (getElem?_erase _ _ _).trans (if_neg hid)
    | touch =>
      cases rebuilt.index[p.record.id]? with
      | none => rfl
      | some old => exact getElem?_insert_of_ne _ _ hid

def AllDecodable (packs : List Pack) : Prop :=
  ∀ p ∈ packs, ∀ r ∈ p.records, r.decodable = true

theorem trimTail_eq (h : ∀ r ∈ records, r.decodable = true) : trimTail records = records := by
  unfold trimTail
  cases hlast : records.reverse with
  | nil => rw [reverse_eq_nil_iff.1 hlast]; rfl
  | cons r rest =>
    have hr : r.decodable = true := h r (mem_reverse.1 (hlast ▸ mem_cons_self))
    rw [dropWhile_cons_of_neg (by rw [hr]; nofun), ← hlast, reverse_reverse]

variable {packs : List Pack}

theorem trimPacks_eq (h : AllDecodable packs) : trimPacks packs = packs := by
  refine (map_congr_left fun p hp => ?_).trans (List.map_id packs)
  rw [trimTail_eq (h p hp)]
  rfl

theorem mem_placeRecords {sequence offset : Nat} (h : p ∈ placeRecords sequence offset records) :
    p.file = sequence ∧ p.record ∈ records := by
  induction records generalizing offset with
  | nil => cases h
  | cons r rs ih =>
    rcases mem_cons.1 h with rfl | h
    · exact ⟨rfl, mem_cons_self⟩
    · obtain ⟨hfile, hmem⟩ := ih h
      exact ⟨hfile, mem_cons_of_mem _ hmem⟩

theorem mem_replayOrder (h : p ∈ replayOrder packs) :
    ∃ pack ∈ packs, pack.sequence = p.file ∧ p.record ∈ pack.records := by
  obtain ⟨pack, hpack, hp⟩ := mem_flatMap.1 h
  obtain ⟨hfile, hrecord⟩ := mem_placeRecords hp
  exact ⟨pack, hpack, hfile.symm, hrecord⟩

theorem rebuildPackIndex_getElem? (h : AllDecodable packs) (id : ObjectId) :
    (rebuildPackIndex packs).index[id]? = replayEntry id (replayOrder packs) := by
  unfold rebuildPackIndex replayEntry
  rw [trimPacks_eq h]
  have hall : ∀ p ∈ replayOrder packs, p.record.decodable = true := by
    intro p hp
    obtain ⟨pack, hpack, -, hrecord⟩ := mem_replayOrder hp
    exact h pack hpack p.record hrecord
  have hfold : ∀ rebuilt (placed : List PlacedRecord),
      (∀ p ∈ placed, p.record.decodable = true) → (placed.foldl rebuildRecord rebuilt).index[id]? =
          placed.foldl (onEntry id) rebuilt.index[id]? := by
    intro rebuilt placed hplaced
    induction placed generalizing rebuilt with
    | nil => rfl
    | cons p placed ih =>
      rw [foldl_cons, foldl_cons, ih _ fun q hq => hplaced q (mem_cons_of_mem _ hq),
        rebuildRecord_getElem? rebuilt (hplaced p mem_cons_self)]
  rw [hfold {} _ hall]
  exact congrArg (fun start => List.foldl (onEntry id) start _) Std.ExtTreeMap.getElem?_empty

theorem placeRecords_append (sequence offset : Nat) (a b : List PackRecord) :
    placeRecords sequence offset (a ++ b) =
      placeRecords sequence offset a ++ placeRecords sequence (offset + recordsSize a) b := by
  induction a generalizing offset with
  | nil => rfl
  | cons r a ih =>
    have hsize : recordsSize (r :: a) = r.size + recordsSize a := by
      unfold recordsSize
      rw [map_cons, sum_cons]
    show _ :: placeRecords sequence (offset + r.size) (a ++ b) =
      _ :: (placeRecords sequence (offset + r.size) a ++ _)
    rw [ih, hsize, Nat.add_assoc]

theorem replayOrder_append (a b : List Pack) :
    replayOrder (a ++ b) = replayOrder a ++ replayOrder b :=
  flatMap_append

variable {sequence : Nat}

theorem recordAt_of_placed {front records : List PackRecord}
    (h : p ∈ placeRecords sequence (recordsSize front) records) :
    recordAt (front ++ records) p.offset = some p.record := by
  induction records generalizing front with
  | nil => cases h
  | cons r rs ih =>
    rcases mem_cons.1 h with rfl | h
    · exact recordAt_size front rs r
    · have hsize : recordsSize front + r.size = recordsSize (front ++ [r]) := by
        rw [recordsSize_append]
        rfl
      rw [hsize] at h
      have hat := ih h
      rw [append_assoc] at hat
      exact hat

theorem readRecord_of_mem {next : Nat} (named : PacksNamed packs next) (h : p ∈ replayOrder packs) :
    readRecord packs p.entry = some p.record := by
  obtain ⟨pack, hpack, hp⟩ := mem_flatMap.1 h
  have hfile : pack.sequence = p.file := (mem_placeRecords hp).1.symm
  have hat := @recordAt_of_placed p pack.sequence [] pack.records hp
  show (packAt packs p.file).bind _ = _
  rw [← hfile, named.packAt_mem hpack]
  exact hat

theorem replayOrder_filter (packs : List Pack) (victim : Nat) :
    replayOrder (packs.filter fun p => p.sequence ≠ victim) =
      (replayOrder packs).filter fun p => p.file ≠ victim := by
  unfold replayOrder
  induction packs with
  | nil => rfl
  | cons pack packs ih =>
    rw [filter_cons, flatMap_cons, filter_append, ← ih]
    by_cases hvictim : pack.sequence = victim
    · have hnone : (placeRecords pack.sequence 0 pack.records).filter
          (fun p => p.file ≠ victim) = [] := by
        refine filter_eq_nil_iff.2 fun p hp => ?_
        rw [(mem_placeRecords hp).1]
        simp [hvictim]
      rw [hnone]
      simp [hvictim]
    · have hall : (placeRecords pack.sequence 0 pack.records).filter
          (fun p => p.file ≠ victim) = placeRecords pack.sequence 0 pack.records := by
        refine filter_eq_self.2 fun p hp => ?_
        rw [(mem_placeRecords hp).1]
        simp [hvictim]
      rw [hall]
      simp [hvictim]

theorem appendTo_last {front : List Pack} {last : Pack} {next : Nat}
    (named : PacksNamed (front ++ [last]) next) (record : PackRecord) :
    appendTo (front ++ [last]) last.sequence record =
      front ++ [{ last with records := last.records ++ [record] }] := by
  have hordered := named.ordered
  clear named
  induction front with
  | nil =>
    show (if last.sequence = last.sequence then _ else _) = _
    rw [if_pos rfl]
    rfl
  | cons p front ih =>
    rw [cons_append, map_cons, pairwise_cons] at hordered
    have hlt := hordered.1 last.sequence
      (List.mem_map_of_mem (mem_append_right _ mem_cons_self))
    rw [cons_append]
    unfold appendTo
    rw [if_neg (by omega), ih hordered.2]
    rfl

theorem appendTo_new (h : packAt packs sequence = none) (record : PackRecord) :
    appendTo packs sequence record = packs ++ [⟨sequence, [record]⟩] := by
  unfold packAt at h
  induction packs with
  | nil => rfl
  | cons p packs ih =>
    rw [find?_cons] at h
    by_cases hp : p.sequence = sequence
    · simp [hp] at h
    · simp only [hp, decide_false] at h
      unfold appendTo
      rw [if_neg hp, ih h]
      rfl

theorem replayEntry_snoc (id : ObjectId) (placed : List PlacedRecord) (p : PlacedRecord) :
    replayEntry id (placed ++ [p]) = onEntry id (replayEntry id placed) p := by
  unfold replayEntry
  rw [foldl_append]
  rfl

/-- The time of the object's last record, or the one given. -/
def lastTimeFrom (id : ObjectId) (time : Nat) (placed : List PlacedRecord) : Nat :=
  placed.foldl (fun time p => if p.record.id = id then p.record.touchedMs else time) time

def lastTime (id : ObjectId) (placed : List PlacedRecord) : Nat := lastTimeFrom id 0 placed

/-- Records that are touches of the object, or not of it at all. -/
def OnlyTouches (id : ObjectId) (placed : List PlacedRecord) : Prop :=
  ∀ p ∈ placed, p.record.id = id → p.record.type = .touch

variable {id : ObjectId} {placed : List PlacedRecord}

theorem foldl_onEntry_touches (h : OnlyTouches id placed) (entry : PackEntry) :
    placed.foldl (onEntry id) (some entry) =
      some { entry with touchedMs := lastTimeFrom id entry.touchedMs placed } := by
  induction placed generalizing entry with
  | nil => rfl
  | cons p placed ih =>
    have hrest : OnlyTouches id placed := fun q hq => h q (mem_cons_of_mem _ hq)
    unfold lastTimeFrom
    rw [foldl_cons, foldl_cons]
    unfold onEntry
    by_cases hid : p.record.id = id
    · rw [if_pos hid, if_pos hid, h p mem_cons_self hid]
      exact ih hrest _
    · rw [if_neg hid, if_neg hid]
      exact ih hrest entry

theorem exists_put_of_replayEntry {entry : PackEntry} (h : replayEntry id placed = some entry) :
    ∃ before p after, placed = before ++ p :: after ∧ p.record.id = id ∧ p.record.type = .put ∧
      OnlyTouches id after ∧
        entry = { p.entry with touchedMs := lastTimeFrom id p.entry.touchedMs after } := by
  induction placed using reverseRecOn generalizing entry with
  | nil => cases h
  | append_singleton placed last ih =>
    rw [replayEntry_snoc] at h
    unfold onEntry at h
    have extend : ∀ old, replayEntry id placed = some old →
        (last.record.id = id → last.record.type = .touch) →
        entry = { old with touchedMs := lastTimeFrom id old.touchedMs [last] } →
        ∃ before p after, placed ++ [last] = before ++ p :: after ∧ p.record.id = id ∧
          p.record.type = .put ∧ OnlyTouches id after ∧
            entry = { p.entry with touchedMs := lastTimeFrom id p.entry.touchedMs after } := by
      intro old hold htouch hentry
      obtain ⟨before, p, after, rfl, hid, hput, honly, rfl⟩ := ih hold
      refine ⟨before, p, after ++ [last], by rw [append_assoc]; rfl, hid, hput, ?_, ?_⟩
      · intro q hq hqid
        rcases mem_append.1 hq with hq | hq
        · exact honly q hq hqid
        · rw [mem_singleton.1 hq] at hqid ⊢
          exact htouch hqid
      · rw [hentry]
        unfold lastTimeFrom
        rw [foldl_append]
    by_cases hid : last.record.id = id
    · rw [if_pos hid] at h
      cases htype : last.record.type with
      | put =>
        rw [htype] at h
        cases h
        exact ⟨placed, last, [], rfl, hid, htype, nofun, rfl⟩
      | remove =>
        rw [htype] at h
        cases h
      | touch =>
        rw [htype] at h
        obtain ⟨old, hold, rfl⟩ := Option.map_eq_some_iff.1 h
        refine extend old hold (fun _ => htype) ?_
        unfold lastTimeFrom
        rw [foldl_cons, if_pos hid]
        rfl
    · rw [if_neg hid] at h
      refine extend entry h (fun hsame => absurd hsame hid) ?_
      unfold lastTimeFrom
      rw [foldl_cons, if_neg hid]
      rfl

def PutsRemoved (id : ObjectId) (placed : List PlacedRecord) : Prop :=
  ∀ before p after, placed = before ++ p :: after → p.record.type = .put → p.record.id = id →
    ∃ q ∈ after, q.record.type = .remove ∧ q.record.id = id

theorem replayEntry_eq_none (h : PutsRemoved id placed) : replayEntry id placed = none := by
  cases hentry : replayEntry id placed with
  | none => rfl
  | some entry =>
    obtain ⟨before, p, after, hplaced, hid, hput, honly, -⟩ := exists_put_of_replayEntry hentry
    obtain ⟨q, hq, hremove, hqid⟩ := h before p after hplaced hput hid
    rw [honly q hq hqid] at hremove
    cases hremove

/-- Without the records of a pack that does not hold the object, its entry is the
same but for the time, which is that of its last record left. -/
theorem replayEntry_filter {entry : PackEntry} (h : replayEntry id placed = some entry)
    {victim : Nat} (hother : entry.file ≠ victim) :
    replayEntry id (placed.filter fun p => p.file ≠ victim) =
      some { entry with touchedMs := lastTime id (placed.filter fun p => p.file ≠ victim) } := by
  obtain ⟨before, p, after, rfl, hid, hput, honly, rfl⟩ := exists_put_of_replayEntry h
  have hkeep : p.file ≠ victim := hother
  have hafter : OnlyTouches id (after.filter fun q => q.file ≠ victim) :=
    fun q hq => honly q (mem_filter.1 hq).1
  rw [filter_append, filter_cons, if_pos (by simpa using hkeep)]
  unfold replayEntry lastTime lastTimeFrom
  rw [foldl_append, foldl_cons, foldl_append, foldl_cons, if_pos hid]
  have hstart : ∀ start, onEntry id start p = some p.entry := by
    intro start
    unfold onEntry
    rw [if_pos hid, hput]
  rw [hstart, foldl_onEntry_touches hafter]
  rfl

theorem foldl_onEntry_puts (hputs : ∀ p ∈ placed, p.record.type = .put)
    (hdistinct : placed.Pairwise fun p q => p.record.id ≠ q.record.id) (id : ObjectId)
    (start : Option PackEntry) :
    (∀ p ∈ placed, p.record.id = id → placed.foldl (onEntry id) start = some p.entry) ∧
      ((∀ p ∈ placed, p.record.id ≠ id) → placed.foldl (onEntry id) start = start) := by
  induction placed generalizing start with
  | nil => exact ⟨nofun, fun _ => rfl⟩
  | cons first rest ih =>
    obtain ⟨hfirst, hrest⟩ := pairwise_cons.1 hdistinct
    obtain ⟨ihfound, ihother⟩ :=
      ih (fun p hp => hputs p (mem_cons_of_mem _ hp)) hrest (onEntry id start first)
    rw [foldl_cons]
    constructor
    · intro p hp hid
      rcases mem_cons.1 hp with rfl | hp
      · rw [ihother fun q hq hqid => hfirst q hq (hid.trans hqid.symm)]
        unfold onEntry
        rw [if_pos hid, hputs p mem_cons_self]
      · exact ihfound p hp hid
    · intro hnone
      rw [ihother fun q hq => hnone q (mem_cons_of_mem _ hq)]
      unfold onEntry
      rw [if_neg (hnone first mem_cons_self)]

inductive PackOp
  | put (id : ObjectId) (data : ByteString) (now : Nat)
  | touch (id : ObjectId) (now : Nat)
  | remove (id : ObjectId) (now : Nat)
  | compact (victim : Pack) (unlinked : Bool)
  /-- Copying throws. -/
  | compactFails
  /-- The call throws once the replacement is in place. -/
  | compactThrows (victim : Pack)

namespace PackStore

/-- A record is appended and indexed. -/
def write (store : PackStore) (targetSize : Nat) (record : PackRecord) : PackStore :=
  let appended := store.appendRecord targetSize record
  appended.1.indexRecord record appended.2

/-- `compact_packs` with its victim. -/
def compact (store : PackStore) (targetSize : Nat) (victim : Pack) (unlinked : Bool) :
    Option PackStore := do
  guard (store.deadBytes ≠ 0 ∧ store.IsVictim victim)
  let (copied, rebuilt, replacement, replacementSize) ←
    store.copyVictim store.index victim.sequence
  let switched := copied.switchTo targetSize replacement rebuilt replacementSize
  let deadAfter := store.totalDead - packDead store.index victim
  some { switched.unlinkPack victim.sequence unlinked with
    deadBytes := if unlinked then deadAfter else deadAfter + victim.size }

def opStep (objectId : ByteString → ObjectId) (targetSize : Nat) (store : PackStore) :
    PackOp → Option PackStore
  | .put id data now => do
    guard (objectId data = id)
    some (store.write targetSize (store.putRecord objectId id data now))
  | .touch id now => do
    guard ((store.index[id]?).isSome = true)
    some (store.write targetSize ⟨.touch, id, now, []⟩)
  | .remove id now => do
    guard ((store.index[id]?).isSome = true)
    some (store.write targetSize ⟨.remove, id, now, []⟩)
  | .compact victim unlinked => store.compact targetSize victim unlinked
  | .compactFails => some { store with nextSequence := store.nextSequence + 1 }
  | .compactThrows victim => do
    guard (store.deadBytes ≠ 0 ∧ store.IsVictim victim)
    let (copied, _) ← store.copyVictim store.index victim.sequence
    some copied

end PackStore

abbrev PackOpStep (objectId : ByteString → ObjectId) (targetSize : Nat) :=
  Computes (PackStore.opStep objectId targetSize)

/-- A rebuild from the packs gives the index, and every entry names a record with
the object in it. -/
def ReplaysToIndex (objectId : ByteString → ObjectId) (store : PackStore) : Prop :=
  (rebuildPackIndex store.packs).index = store.index ∧
    ∀ (id : ObjectId) entry, store.index[id]? = some entry → Holds objectId store.packs id entry

/-- What the records outside the victim say without it. Objects that are gone stay
gone: each of their puts is followed by a remove. Those elsewhere were affirmed last
by a record that stays, those in the victim by their put record itself. -/
structure PackStore.Compactable (store : PackStore) (victim : Nat) (unlinked : Bool) : Prop where
  gone : ∀ id : ObjectId, store.index[id]? = none →
    PutsRemoved id (replayOrder (store.unlinkPack victim unlinked).packs)
  elsewhere : ∀ (id : ObjectId) entry, store.index[id]? = some entry → entry.file ≠ victim →
    lastTime id (replayOrder (store.unlinkPack victim unlinked).packs) = entry.touchedMs
  inside : ∀ (id : ObjectId) entry, store.index[id]? = some entry → entry.file = victim →
    ∃ record, readRecord store.packs entry = some record ∧ record.touchedMs = entry.touchedMs

/-- Objects are not empty and not too large for a pack, compaction takes no pack whose
removes and touches still matter, and does not throw over copies it has put in place. -/
def ReplaySafe (t : Transition PackStore PackOp) : Prop :=
  match t.event with
  | .put _ data _ => data ≠ [] ∧ data.length ≤ 128 * 1024 * 1024
  | .compact victim unlinked => t.before.Compactable victim.sequence unlinked
  | .compactThrows victim => PackStore.victimEntries t.before.index victim.sequence = []
  | _ => True

namespace PackStore

/-- The packs replay to the index, and the active pack is the last. -/
structure Replays (objectId : ByteString → ObjectId) (store : PackStore) : Prop where
  sound : store.Sound
  last : ∀ a, store.active = some a → ∃ front p, store.packs = front ++ [p] ∧ p.sequence = a
  records : ∀ p ∈ store.packs, ∀ r ∈ p.records,
    r.decodable = true ∧ (r.type = .put → objectId r.payload = r.id)
  exact : ∀ id : ObjectId, store.index[id]? = replayEntry id (replayOrder store.packs)

section

variable {objectId : ByteString → ObjectId} {targetSize : Nat} {store next : PackStore}
  {record : PackRecord}

theorem Replays.holds (inv : store.Replays objectId) {entry : PackEntry}
    (h : store.index[id]? = some entry) : Holds objectId store.packs id entry := by
  rw [inv.exact] at h
  obtain ⟨before, p, after, hplaced, hid, hput, -, rfl⟩ := exists_put_of_replayEntry h
  have hmem : p ∈ replayOrder store.packs := by
    rw [hplaced]
    exact mem_append_right _ mem_cons_self
  obtain ⟨pack, hpack, -, hrecord⟩ := mem_replayOrder hmem
  have hpayload := (inv.records pack hpack p.record hrecord).2 hput
  have hheld : Holds objectId store.packs id p.entry :=
    ⟨p.record, readRecord_of_mem inv.sound.named hmem, hput, hid, hpayload.trans hid, rfl⟩
  exact hheld.congr rfl rfl rfl

theorem Replays.replaysToIndex (inv : store.Replays objectId) : ReplaysToIndex objectId store := by
  refine ⟨OrdMap.ext fun id => ?_, fun id entry h => inv.holds h⟩
  rw [rebuildPackIndex_getElem? fun p hp r hr => (inv.records p hp r hr).1]
  exact (inv.exact id).symm

theorem appendRecord_file (store : PackStore) (targetSize : Nat) (record : PackRecord) :
    (store.appendRecord targetSize record).2.file = store.nextSequence ∨
      store.active = some (store.appendRecord targetSize record).2.file := by
  unfold appendRecord selectActive
  by_cases hfresh : store.active = none ∨
      store.activeSize ≠ 0 ∧ targetSize < store.activeSize + record.size
  · simp only [if_pos hfresh]
    exact .inl rfl
  · simp only [if_neg hfresh]
    cases hactive : store.active with
    | none => exact absurd (.inl hactive) hfresh
    | some a => exact .inr rfl

theorem Replays.packs_appendRecord (inv : store.Replays objectId) (targetSize : Nat)
    (record : PackRecord) :
    ∃ front p entry, (store.appendRecord targetSize record).1.packs = front ++ [p] ∧
      (store.appendRecord targetSize record).2 = entry ∧ p.sequence = entry.file ∧
        replayOrder (front ++ [p]) =
          replayOrder store.packs ++ [⟨entry.file, entry.offset, record⟩] ∧
        ∀ q ∈ front ++ [p], ∀ r ∈ q.records, r = record ∨ ∃ q' ∈ store.packs, r ∈ q'.records := by
  have happended := inv.sound.appendRecord targetSize record
  have hfile := appendRecord_file store targetSize record
  generalize store.appendRecord targetSize record = result at happended hfile ⊢
  obtain ⟨next, entry⟩ := result
  have hpacks := happended.packs
  have hoffset := happended.offset
  rcases hfile with hfile | hactive
  · have hnone := packAt_eq_none inv.sound.named (Nat.le_of_eq hfile.symm)
    rw [hnone] at hoffset
    rw [appendTo_new hnone] at hpacks
    refine ⟨store.packs, ⟨entry.file, [record]⟩, entry, hpacks, rfl, rfl, ?_, ?_⟩
    · rw [replayOrder_append, hoffset]
      rfl
    · intro q hq r hr
      rcases mem_append.1 hq with hq | hq
      · exact .inr ⟨q, hq, hr⟩
      · rw [mem_singleton.1 hq] at hr
        exact .inl (mem_singleton.1 hr)
  · obtain ⟨front, p, hstore, hsequence⟩ := inv.last _ hactive
    have hnamed := inv.sound.named
    rw [hstore] at hpacks hoffset hnamed ⊢
    have hfound := hnamed.packAt_mem (mem_append_right front (mem_singleton_self p))
    rw [hsequence] at hfound
    rw [hfound] at hoffset
    rw [← hsequence, appendTo_last hnamed] at hpacks
    refine ⟨front, _, entry, hpacks, rfl, hsequence, ?_, ?_⟩
    · rw [replayOrder_append, replayOrder_append, append_assoc, hoffset, ← hsequence]
      congr 1
      show placeRecords p.sequence 0 (p.records ++ [record]) ++ [] =
        (placeRecords p.sequence 0 p.records ++ []) ++ _
      rw [placeRecords_append, append_nil, append_nil, Nat.zero_add]
      rfl
    · intro q hq r hr
      rcases mem_append.1 hq with hq | hq
      · exact .inr ⟨q, mem_append_left _ hq, hr⟩
      · rw [mem_singleton.1 hq] at hr
        rcases mem_append.1 hr with hr | hr
        · exact .inr ⟨p, mem_append_right _ (mem_singleton_self p), hr⟩
        · exact .inl (mem_singleton.1 hr)

theorem indexRecord_getElem? (store : PackStore) {entry : PackEntry}
    (hsize : entry.recordSize = record.size) (htime : entry.touchedMs = record.touchedMs)
    (id : ObjectId) :
    (store.indexRecord record entry).index[id]? =
      onEntry id store.index[id]? ⟨entry.file, entry.offset, record⟩ := by
  have hentry : entry = PlacedRecord.entry ⟨entry.file, entry.offset, record⟩ := by
    obtain ⟨file, offset, recordSize, touchedMs⟩ := entry
    cases hsize
    cases htime
    rfl
  unfold indexRecord onEntry
  by_cases hid : record.id = id
  · subst hid
    rw [if_pos rfl]
    cases record.type with
    | put => exact (getElem?_insert_self _ _ _).trans (congrArg some hentry)
    | remove =>
      cases hold : store.index[record.id]? with
      | none => exact hold
      | some old => exact (getElem?_erase _ _ _).trans (if_pos rfl)
    | touch =>
      cases hold : store.index[record.id]? with
      | none => exact hold
      | some old => exact getElem?_insert_self _ _ _
  · rw [if_neg hid]
    cases record.type with
    | put => exact getElem?_insert_of_ne _ _ hid
    | remove =>
      cases store.index[record.id]? with
      | none => rfl
      | some old => exact (getElem?_erase _ _ _).trans (if_neg hid)
    | touch =>
      cases store.index[record.id]? with
      | none => rfl
      | some old => exact getElem?_insert_of_ne _ _ hid

theorem indexRecord_frame (store : PackStore) (record : PackRecord) (entry : PackEntry) :
    ∃ index deadBytes,
      store.indexRecord record entry = { store with index := index, deadBytes := deadBytes } := by
  unfold indexRecord
  split
  · exact ⟨_, _, rfl⟩
  · split <;> exact ⟨_, _, rfl⟩
  · split <;> exact ⟨_, _, rfl⟩

theorem Replays.write (inv : store.Replays objectId) (targetSize : Nat)
    (hdecodable : record.decodable = true)
    (hpayload : record.type = .put → objectId record.payload = record.id) :
    (store.write targetSize record).Replays objectId := by
  obtain ⟨front, p, entry, hpacks, rfl, hsequence, hreplay, hrecords⟩ :=
    inv.packs_appendRecord targetSize record
  have happended := inv.sound.appendRecord targetSize record
  unfold PackStore.write
  generalize store.appendRecord targetSize record = result at *
  obtain ⟨next, entry⟩ := result
  have hindex := next.indexRecord_getElem? happended.recordSize happended.touchedMs
  obtain ⟨index, deadBytes, hframe⟩ := next.indexRecord_frame record entry
  rw [hframe] at hindex ⊢
  refine ⟨⟨happended.sound.named, happended.sound.active⟩, ?_, ?_, ?_⟩
  · intro a ha
    cases happended.active.symm.trans ha
    exact ⟨front, p, hpacks, hsequence⟩
  · intro q hq r hr
    rw [show _ = front ++ [p] from hpacks] at hq
    rcases hrecords q hq r hr with rfl | ⟨q', hq', hr'⟩
    · exact ⟨hdecodable, hpayload⟩
    · exact inv.records q' hq' r hr'
  · intro id
    rw [hindex id, happended.index, inv.exact id]
    rw [hpacks, hreplay, replayEntry_snoc]

def leftPacks (packs : List Pack) (victim : Nat) (unlinked : Bool) : List Pack :=
  if unlinked then packs.filter fun p => p.sequence ≠ victim else packs

theorem unlinkPack_eq (store : PackStore) (victim : Nat) (unlinked : Bool) :
    store.unlinkPack victim unlinked =
      { store with packs := leftPacks store.packs victim unlinked } := by
  cases unlinked <;> rfl

variable {packs : List Pack} {unlinked : Bool}

theorem mem_of_mem_leftPacks {victim : Nat} {p : Pack} (h : p ∈ leftPacks packs victim unlinked) :
    p ∈ packs := by
  cases unlinked with
  | false => exact h
  | true => exact (mem_filter.1 h).1

theorem leftPacks_snoc {victim : Nat} {p : Pack} (h : p.sequence ≠ victim) (packs : List Pack)
    (unlinked : Bool) :
    leftPacks (packs ++ [p]) victim unlinked = leftPacks packs victim unlinked ++ [p] := by
  cases unlinked with
  | false => rfl
  | true =>
    show List.filter _ (packs ++ [p]) = List.filter _ packs ++ [p]
    rw [filter_append, filter_cons, if_pos (by simpa using h)]
    rfl

theorem named_leftPacks {bound : Nat} (named : PacksNamed packs bound) (victim : Nat)
    (unlinked : Bool) : PacksNamed (leftPacks packs victim unlinked) bound := by
  cases unlinked with
  | false => exact named
  | true => exact named.filter victim

/-- Without the victim, the records left replay to the index but for what was in it. -/
theorem Replays.left (inv : store.Replays objectId) {victim : Nat}
    (hsafe : store.Compactable victim unlinked) (id : ObjectId) :
    (store.index[id]? = none →
        replayEntry id (replayOrder (leftPacks store.packs victim unlinked)) = none) ∧
      ∀ entry, store.index[id]? = some entry → entry.file ≠ victim →
        replayEntry id (replayOrder (leftPacks store.packs victim unlinked)) = some entry := by
  have hgone := hsafe.gone id
  have helsewhere := hsafe.elsewhere id
  rw [unlinkPack_eq] at hgone helsewhere
  refine ⟨fun hnone => replayEntry_eq_none (hgone hnone), fun entry hentry hother => ?_⟩
  have htime := helsewhere entry hentry hother
  rw [inv.exact id] at hentry
  cases unlinked with
  | false => exact hentry
  | true =>
    show replayEntry id (replayOrder (List.filter _ store.packs)) = _
    replace htime : lastTime id (replayOrder (List.filter _ store.packs)) = _ := htime
    rw [replayOrder_filter] at htime ⊢
    rw [replayEntry_filter hentry hother, htime]

theorem mem_of_recordAt {records : List PackRecord} {offset : Nat}
    (h : recordAt records offset = some record) : record ∈ records := by
  induction records generalizing offset with
  | nil => cases h
  | cons first rest ih =>
    unfold recordAt at h
    split at h
    · cases h
      exact mem_cons_self
    · split at h
      · cases h
      · exact mem_cons_of_mem _ (ih h)

theorem mem_of_readRecord {entry : PackEntry} (h : readRecord packs entry = some record) :
    ∃ p ∈ packs, record ∈ p.records := by
  obtain ⟨p, hp, hat⟩ := Option.bind_eq_some_iff.1 h
  exact ⟨p, (packAt_eq_some hp).1, mem_of_recordAt hat⟩

theorem placed_copies {entries : List (ObjectId × PackEntry)} {copies : List PackRecord}
    (hcopy : copyRecords packs entries = some copies)
    (hentries : ∀ item ∈ entries, ∃ record, readRecord packs item.2 = some record ∧
      record.type = .put ∧ record.id = item.1 ∧ record.size = item.2.recordSize ∧
        record.touchedMs = item.2.touchedMs) (sequence offset : Nat) :
    (placeRecords sequence offset copies).map (fun p => (p.record.id, p.entry)) =
        placeEntries sequence offset entries ∧
      ∀ r ∈ copies, r.type = .put ∧ ∃ p ∈ packs, r ∈ p.records := by
  induction entries generalizing copies offset with
  | nil =>
    cases hcopy
    exact ⟨rfl, nofun⟩
  | cons item entries ih =>
    obtain ⟨id, entry⟩ := item
    obtain ⟨record, rest, hread, hrest, rfl⟩ := copyRecords_cons hcopy
    obtain ⟨found, hfound, hput, hid, hsize, htime⟩ := hentries (id, entry) mem_cons_self
    have hsame : found = record := Option.some_inj.1 (hfound.symm.trans hread)
    subst hsame
    obtain ⟨ihplaced, ihputs⟩ := ih hrest
      (fun item hitem => hentries item (mem_cons_of_mem _ hitem)) (offset + found.size)
    constructor
    · unfold placeRecords placeEntries
      rw [map_cons, ihplaced, hsize]
      congr 1
      obtain ⟨file, start, recordSize, touchedMs⟩ := entry
      unfold PlacedRecord.entry
      rw [hid, hsize, htime]
    · intro r hr
      rcases mem_cons.1 hr with rfl | hr
      · exact ⟨hput, mem_of_readRecord hread⟩
      · exact ihputs r hr

section

variable (inv : store.Replays objectId)

include inv

/-- What is copied: the put records of the entries, each affirmed last by itself. -/
theorem Replays.victim_records {victim : Nat} (hsafe : store.Compactable victim unlinked) :
    ∀ item ∈ victimEntries store.index victim, ∃ record,
      readRecord store.packs item.2 = some record ∧ record.type = .put ∧ record.id = item.1 ∧
        record.size = item.2.recordSize ∧ record.touchedMs = item.2.touchedMs := by
  rintro ⟨id, entry⟩ hitem
  obtain ⟨hentry, hfile⟩ := mem_victimEntries.1 hitem
  obtain ⟨record, hread, htime⟩ := hsafe.inside id entry hentry hfile
  obtain ⟨found, hfound, hput, hid, -, hsize⟩ := inv.holds hentry
  have hsame : found = record := Option.some_inj.1 (hfound.symm.trans hread)
  subst hsame
  exact ⟨found, hread, hput, hid, hsize, htime⟩

/-- After the copies the log means the index that has switched to them. -/
theorem Replays.exact_switched {victim : Nat} (hsafe : store.Compactable victim unlinked)
    {copies : List PackRecord}
    (hcopy : copyRecords store.packs (victimEntries store.index victim) = some copies)
    (targetSize sequence size : Nat) (replacement : Option Nat) (id : ObjectId) :
    (store.switchTo targetSize replacement
        (placeEntries sequence 0 (victimEntries store.index victim)) size).index[id]? =
      replayEntry id (replayOrder (leftPacks store.packs victim unlinked) ++
        placeRecords sequence 0 copies) := by
  have hdistinct := placeEntries_distinct (victimEntries_distinct store.index victim) sequence 0
  obtain ⟨hplaced, hputs⟩ :=
    placed_copies hcopy (inv.victim_records hsafe) sequence 0
  obtain ⟨hswitched, hother⟩ :=
    getElem?_switchTo hdistinct store targetSize replacement size id
  have hids : (placeRecords sequence 0 copies).Pairwise fun p q => p.record.id ≠ q.record.id := by
    have hkeys : ((placeRecords sequence 0 copies).map fun p => (p.record.id, p.entry)).Pairwise
        fun x y => x.1 ≠ y.1 := by
      rw [hplaced]
      exact hdistinct
    rw [pairwise_map] at hkeys
    exact hkeys
  obtain ⟨hfound, hrest⟩ := foldl_onEntry_puts
    (fun p hp => (hputs p.record (mem_placeRecords hp).2).1) hids id
    (replayEntry id (replayOrder (leftPacks store.packs victim unlinked)))
  have hfold : replayEntry id (replayOrder (leftPacks store.packs victim unlinked) ++
      placeRecords sequence 0 copies) = (placeRecords sequence 0 copies).foldl (onEntry id)
        (replayEntry id (replayOrder (leftPacks store.packs victim unlinked))) :=
    foldl_append
  have hkeep : (∀ entry, (id, entry) ∉ victimEntries store.index victim) →
      (store.switchTo targetSize replacement
        (placeEntries sequence 0 (victimEntries store.index victim)) size).index[id]? =
          store.index[id]? ∧
      replayEntry id (replayOrder (leftPacks store.packs victim unlinked) ++
        placeRecords sequence 0 copies) =
          replayEntry id (replayOrder (leftPacks store.packs victim unlinked)) := by
    intro habsent
    have hnone : id ∉ (placeEntries sequence 0 (victimEntries store.index victim)).map (·.1) := by
      rw [placeEntries_keys]
      intro hmem
      obtain ⟨⟨key, entry⟩, hitem, rfl⟩ := List.mem_map.1 hmem
      exact habsent entry hitem
    refine ⟨hother fun placed hmem => hnone (List.mem_map_of_mem hmem), ?_⟩
    rw [hfold]
    refine hrest fun p hp hpid => hnone ?_
    rw [← hplaced, List.map_map]
    exact hpid ▸ List.mem_map_of_mem (f := fun p : PlacedRecord => p.record.id) hp
  obtain ⟨hgone, helsewhere⟩ := inv.left hsafe id
  cases hentry : store.index[id]? with
  | none =>
    obtain ⟨hindex, hreplay⟩ := hkeep fun entry hitem => by
      rw [(mem_victimEntries.1 hitem).1] at hentry
      cases hentry
    rw [hindex, hreplay, hgone hentry, hentry]
  | some entry =>
    by_cases hfile : entry.file = victim
    · obtain ⟨placed, hmem⟩ :=
        exists_placed sequence 0 (mem_victimEntries.2 ⟨hentry, hfile⟩)
      rw [hswitched placed hmem, hfold]
      rw [← hplaced] at hmem
      obtain ⟨p, hp, heq⟩ := List.mem_map.1 hmem
      cases heq
      exact (hfound p hp rfl).symm
    · obtain ⟨hindex, hreplay⟩ := hkeep fun other hitem => by
        obtain ⟨hother, hvictim⟩ := mem_victimEntries.1 hitem
        cases hentry.symm.trans hother
        exact hfile hvictim
      rw [hindex, hreplay, helsewhere entry hentry hfile, hentry]

theorem Replays.compact {victim : Pack} (hsafe : store.Compactable victim.sequence unlinked)
    (h : store.compact targetSize victim unlinked = some next) : next.Replays objectId := by
  obtain ⟨⟨-, hvictim⟩, h⟩ := guard_bind_eq_some h
  obtain ⟨⟨copied, rebuilt, replacement, size⟩, hcopy, h⟩ := Option.bind_eq_some_iff.1 h
  dsimp only at h
  rw [unlinkPack_eq] at h
  cases h
  have hrecords : ∀ p ∈ leftPacks store.packs victim.sequence unlinked, ∀ r ∈ p.records,
      r.decodable = true ∧ (r.type = .put → objectId r.payload = r.id) :=
    fun p hp => inv.records p (mem_of_mem_leftPacks hp)
  have hnamed := named_leftPacks inv.sound.named victim.sequence unlinked
  by_cases hempty : victimEntries store.index victim.sequence = []
  · rw [copyVictim_eq_none hempty] at hcopy
    cases hcopy
    have hnothing : copyRecords store.packs (victimEntries store.index victim.sequence) =
        some [] := by
      rw [hempty]
      rfl
    have hexact := inv.exact_switched hsafe hnothing targetSize 0 0 none
    rw [hempty] at hexact
    have hinactive : (store.switchTo targetSize none [] 0).active = none := by
      unfold switchTo
      split <;> rfl
    refine ⟨⟨hnamed, ?_⟩, ?_, hrecords, ?_⟩
    · intro a ha
      cases hinactive.symm.trans ha
    · intro a ha
      cases hinactive.symm.trans ha
    · intro id
      refine (hexact id).trans ?_
      show replayEntry id (_ ++ []) = _
      rw [append_nil]
      rfl
  · obtain ⟨copies, hcopies, rfl, rfl, rfl, rfl⟩ := copyVictim_eq_some hempty hcopy
    have hlt := inv.sound.named.below victim hvictim.1
    have hleft : leftPacks (store.packs ++ [⟨store.nextSequence, copies⟩]) victim.sequence
        unlinked = leftPacks store.packs victim.sequence unlinked ++
          [⟨store.nextSequence, copies⟩] :=
      leftPacks_snoc (p := ⟨store.nextSequence, copies⟩) (by dsimp only; omega) _ _
    obtain ⟨-, hputs⟩ := placed_copies hcopies (inv.victim_records hsafe) store.nextSequence 0
    have hsize := recordsSize_copies (fun item hitem =>
      inv.holds (mem_victimEntries.1 (show (item.1, item.2) ∈ _ from hitem)).1) hcopies
    have hswitched := hnamed.snoc copies
    refine ⟨⟨?_, ?_⟩, ?_, ?_, ?_⟩
    · show PacksNamed (leftPacks (store.packs ++ _) _ _) _
      rw [hleft]
      exact hswitched
    · intro a ha
      unfold switchTo at ha
      split at ha
      · next hfits =>
        cases ha
        refine ⟨⟨store.nextSequence, copies⟩, ?_, ?_⟩
        · show packAt (leftPacks (store.packs ++ _) _ _) _ = _
          rw [hleft]
          exact packAt_snoc hnamed copies
        · unfold switchTo
          dsimp only
          rw [if_pos ⟨rfl, hfits⟩]
          exact hsize.symm
      · cases ha
    · intro a ha
      refine ⟨leftPacks store.packs victim.sequence unlinked, ⟨store.nextSequence, copies⟩,
        hleft, ?_⟩
      unfold switchTo at ha
      split at ha
      · exact Option.some_inj.1 ha
      · cases ha
    · intro p hp r hr
      replace hp : p ∈ leftPacks (store.packs ++ _) _ _ := hp
      rw [hleft] at hp
      rcases mem_append.1 hp with hp | hp
      · exact hrecords p hp r hr
      · rw [mem_singleton.1 hp] at hr
        obtain ⟨-, q, hq, hr⟩ := hputs r hr
        exact inv.records q hq r hr
    · intro id
      refine (inv.exact_switched hsafe hcopies targetSize store.nextSequence 0
        (some store.nextSequence) id).trans ?_
      show _ = replayEntry id (replayOrder (leftPacks (store.packs ++ _) _ _))
      rw [hleft, replayOrder_append]
      show _ = replayEntry id (_ ++ (placeRecords _ 0 copies ++ []))
      rw [append_nil]

omit inv in
theorem replays_start : Replays objectId {} where
  sound := ⟨⟨List.Pairwise.nil, nofun⟩, nofun⟩
  last := nofun
  records := nofun
  exact _ := Std.ExtTreeMap.getElem?_empty

theorem replays_of_step {op : PackOp} (h : PackOpStep objectId targetSize store op next)
    (hsafe : ReplaySafe ⟨store, op, next⟩) : next.Replays objectId := by
  cases op with
  | put id data now =>
    obtain ⟨hdata, h⟩ := guard_bind_eq_some h
    cases h
    obtain ⟨hid, hpayload⟩ := store.putRecord_spec objectId id data now
    refine inv.write targetSize ?_ fun hput => ?_
    · refine decide_eq_true fun hput => ?_
      rw [hpayload hput]
      exact hsafe
    · rw [hpayload hput, hid]
      exact hdata
  | touch id now =>
    obtain ⟨-, h⟩ := guard_bind_eq_some h
    cases h
    exact inv.write targetSize rfl nofun
  | remove id now =>
    obtain ⟨-, h⟩ := guard_bind_eq_some h
    cases h
    exact inv.write targetSize rfl nofun
  | compact victim unlinked => exact inv.compact hsafe h
  | compactFails =>
    cases h
    exact ⟨⟨inv.sound.named.mono (Nat.le_succ _), inv.sound.active⟩, inv.last, inv.records,
      inv.exact⟩
  | compactThrows victim =>
    obtain ⟨-, h⟩ := guard_bind_eq_some h
    have hempty : victimEntries store.index victim.sequence = [] := hsafe
    rw [PackStore.copyVictim, hempty] at h
    cases h
    exact inv

end

theorem replays_of_run {events : List (Transition PackStore PackOp)} {last : PackStore}
    (run : Run (Traced (PackOpStep objectId targetSize)) {} events last)
    (hsafe : Always (fun _ t => ReplaySafe t) events) : last.Replays objectId :=
  run.invariant_of_always hsafe replays_start fun _ _ _ hstep inv hlast =>
    replays_of_step inv hstep hlast

end

end PackStore

/-- After any puts, re-affirmations, removals and compactions a rebuild from the packs
gives the index, its entries and times, as long as every compaction takes a pack whose
removes and touches no longer matter and none throws with its replacement in place. -/
theorem packs_replay_to_index {objectId : ByteString → ObjectId} {targetSize : Nat}
    {events : List (Transition PackStore PackOp)} {last : PackStore}
    (run : Run (Traced (PackOpStep objectId targetSize)) {} events last)
    (hsafe : Always (fun _ t => ReplaySafe t) events) : ReplaysToIndex objectId last :=
  (PackStore.replays_of_run run hsafe).replaysToIndex

namespace RemovePackCompacted

def objectId (data : ByteString) : ObjectId := data

def removed : ObjectId := [1]

def kept : ObjectId := [2]

/-- The second pack has only the remove and the touch of objects of the first, so all
of it counts as dead. -/
def victim : Pack := ⟨2, [⟨.remove, removed, 12, []⟩, ⟨.touch, kept, 13, []⟩]⟩

def events : List PackOp :=
  [.put removed removed 10, .put kept kept 11, .remove removed 12, .touch kept 13,
    .compact victim true]

def last : PackStore := (events.foldlM (PackStore.opStep objectId 260) {}).getD {}

theorem possible : (events.foldlM (PackStore.opStep objectId 260) {}).isSome = true := by
  decide +kernel

theorem back : last.index[removed]? = none ∧
    ((rebuildPackIndex last.packs).index[removed]?).isSome = true := by
  decide +kernel

theorem aged : (last.index[kept]?).map (·.touchedMs) = some 13 ∧
    ((rebuildPackIndex last.packs).index[kept]?).map (·.touchedMs) = some 11 := by
  decide +kernel

/-- A rebuild brings the removed object back, and the other one is older. -/
theorem rebuild_restores_removed : ∃ trace, Run (Traced (PackOpStep objectId 260)) {} trace last ∧
      trace.map (·.event) = events ∧ ¬ ReplaysToIndex objectId last ∧ (last.index[removed]? = none ∧
          ((rebuildPackIndex last.packs).index[removed]?).isSome = true) ∧
        (last.index[kept]?).map (·.touchedMs) = some 13 ∧
          ((rebuildPackIndex last.packs).index[kept]?).map (·.touchedMs) = some 11 := by
  obtain ⟨trace, run, htrace⟩ := exists_run_last possible (rfl : _ = last)
  refine ⟨trace, run, htrace, fun hreplays => ?_, back, aged⟩
  obtain ⟨hnone, hsome⟩ := back
  rw [hreplays.1, hnone] at hsome
  cases hsome

end RemovePackCompacted

namespace WholePackCompacted

open RemovePackCompacted (objectId removed kept)

/-- Everything is in one pack. -/
def ops : List PackOp :=
  [.put removed removed 10, .put kept kept 11, .remove removed 12]

def written : PackStore := (ops.foldlM (PackStore.opStep objectId 1000) {}).getD {}

def victim : Pack :=
  ⟨1, [⟨.put, removed, 10, removed⟩, ⟨.put, kept, 11, kept⟩, ⟨.remove, removed, 12, []⟩]⟩

def last : PackStore := (written.opStep objectId 1000 (.compact victim true)).getD {}

theorem possible : (ops.foldlM (PackStore.opStep objectId 1000) {}).isSome = true := by
  decide +kernel

theorem entries : written.index.toList = [(kept, ⟨1, 126, 126, 11⟩)] := by decide +kernel

theorem read : readRecord written.packs ⟨1, 126, 126, 11⟩ = some ⟨.put, kept, 11, kept⟩ := by
  decide +kernel

theorem compactable : written.Compactable victim.sequence true := by
  have hentry : ∀ (id : ObjectId) entry, written.index[id]? = some entry →
      entry = ⟨1, 126, 126, 11⟩ := by
    intro id entry h
    have hmem := (OrdMap.mem_toList _ _ _).2 h
    rw [entries, mem_singleton] at hmem
    cases hmem
    rfl
  refine ⟨fun id _ before p after h => ?_, fun id entry h hother => ?_, fun id entry h _ => ?_⟩
  · cases before <;> cases h
  · rw [hentry id entry h] at hother
    exact absurd rfl hother
  · rw [hentry id entry h]
    exact ⟨_, read, rfl⟩

/-- The object left is in the new pack, and a rebuild finds it there with its time. -/
theorem whole_pack_replays : ReplaysToIndex objectId last ∧ last.packs.map (·.sequence) = [2] ∧
      last.index.toList = [(kept, ⟨2, 0, 126, 11⟩)] := by
  obtain ⟨trace, run, htrace⟩ := exists_run_last possible (rfl : _ = written)
  have hputs : Always (fun _ t => ReplaySafe t) trace := by
    refine always_of_events htrace fun t ht => ?_
    unfold ReplaySafe
    simp only [ops, mem_cons, not_mem_nil, or_false] at ht
    rcases ht with ht | ht | ht <;> rw [ht]
    · exact ⟨nofun, by decide⟩
    · exact ⟨nofun, by decide⟩
    · trivial
  have hrun := run.trace_snoc (u := last) (computes_getD (by decide +kernel))
  exact ⟨packs_replay_to_index hrun (always_snoc.2 ⟨hputs, compactable⟩), by decide +kernel,
    by decide +kernel⟩

end WholePackCompacted

end Macha
