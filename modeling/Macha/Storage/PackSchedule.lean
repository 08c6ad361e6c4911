import Macha.Library.Run
import Macha.Storage.Packs

/-!
# Packed puts and compaction under their locks

A packed put appends its record under the pack I/O lock and indexes it under the
store's lock, and holds neither in between. Compaction holds the pack I/O lock from
its start to its end and the store's lock only now and then. The steps below are
these sections, in any order the locks allow.
-/

namespace Macha

open List OrdMap

/-- Where a call stands that holds its object's lock. -/
inductive PackCallStage
  /-- The record is made, and waits for the pack I/O lock. -/
  | waiting
  /-- The record is on disk, and waits for the store's lock. -/
  | appended (entry : PackEntry)
deriving DecidableEq

structure PackCall where
  record : PackRecord
  stage : PackCallStage
deriving DecidableEq

/-- Where `compact_packs` stands, which holds the pack I/O lock. -/
inductive PackCompaction
  /-- The victim is chosen; what the index named then. -/
  | started (victim : Pack) (snapshot : PackIndex) (deadAfter : Nat)
  /-- The replacement is written. -/
  | copied (victim : Pack) (rebuilt : List (ObjectId × PackEntry)) (replacement : Option Nat)
      (replacementSize deadAfter : Nat)
  /-- The index has switched to it. -/
  | switched (victim : Pack) (deadAfter : Nat)

structure PackWorld where
  store : PackStore := {}
  /-- The calls in flight; the object's lock lets one in. -/
  calls : OrdMap ObjectId PackCall := ∅
  compaction : Option PackCompaction := none
  /-- Objects whose put has returned, and that were not removed since. -/
  acknowledged : List ObjectId := []

inductive PackEvent
  | beginPut (id : ObjectId) (data : ByteString) (now : Nat)
  | beginTouch (id : ObjectId) (now : Nat)
  | beginRemove (id : ObjectId) (now : Nat)
  | append (id : ObjectId)
  | finish (id : ObjectId)
  | compactStart (victim : Pack)
  | compactCopy
  /-- Copying throws, or the call does once the replacement is in place. -/
  | compactAbandon
  | compactSwitch
  | compactUnlink (unlinked : Bool)

section

variable (objectId : ByteString → ObjectId) (targetSize : Nat)

namespace PackWorld

/-- A call takes its object's lock. -/
def beginCall (world : PackWorld) (record : PackRecord) : Option PackWorld := do
  guard (world.calls[record.id]? = none)
  some { world with calls := world.calls.insert record.id ⟨record, .waiting⟩ }

/-- The call appends its record, while no compaction runs. -/
def append (world : PackWorld) (id : ObjectId) : Option PackWorld := do
  guard (world.compaction.isNone = true)
  match world.calls[id]? with
  | some ⟨record, .waiting⟩ =>
    let (store, entry) := world.store.appendRecord targetSize record
    some { world with store, calls := world.calls.insert id ⟨record, .appended entry⟩ }
  | _ => none

/-- Puts and re-affirmations that return acknowledge the object. -/
def acknowledge (world : PackWorld) (record : PackRecord) : List ObjectId :=
  match record.type with
  | .put => record.id :: world.acknowledged
  | .touch =>
    -- a re-affirmation of an object that the index lost throws
    if (world.store.index[record.id]?).isSome then record.id :: world.acknowledged
    else world.acknowledged
  | .remove => world.acknowledged.filter fun id => id ≠ record.id

/-- The call indexes its record and returns. -/
def finish (world : PackWorld) (id : ObjectId) : Option PackWorld :=
  match world.calls[id]? with
  | some ⟨record, .appended entry⟩ =>
    some { world with
      store := world.store.indexRecord record entry
      calls := world.calls.erase id
      acknowledged := world.acknowledge record }
  | _ => none

def compactStart (world : PackWorld) (victim : Pack) : Option PackWorld := do
  guard (world.compaction.isNone = true ∧ world.store.deadBytes ≠ 0 ∧ world.store.IsVictim victim)
  let deadAfter := world.store.totalDead - PackStore.packDead world.store.index victim
  some { world with compaction := some (.started victim world.store.index deadAfter) }

def compactCopy (world : PackWorld) : Option PackWorld :=
  match world.compaction with
  | some (.started victim snapshot deadAfter) => do
    let (store, rebuilt, replacement, replacementSize) ←
      world.store.copyVictim snapshot victim.sequence
    some { world with
      store
      compaction := some (.copied victim rebuilt replacement replacementSize deadAfter) }
  | _ => none

def compactAbandon (world : PackWorld) : Option PackWorld :=
  match world.compaction with
  | some (.started _ _ _) =>
    some { world with
      store := { world.store with nextSequence := world.store.nextSequence + 1 }
      compaction := none }
  | some (.copied _ _ _ _ _) => some { world with compaction := none }
  | _ => none

def compactSwitch (world : PackWorld) : Option PackWorld :=
  match world.compaction with
  | some (.copied victim rebuilt replacement replacementSize deadAfter) =>
    some { world with
      store := world.store.switchTo targetSize replacement rebuilt replacementSize
      compaction := some (.switched victim deadAfter) }
  | _ => none

def compactUnlink (world : PackWorld) (unlinked : Bool) : Option PackWorld :=
  match world.compaction with
  | some (.switched victim deadAfter) =>
    some { world with
      store := { world.store.unlinkPack victim.sequence unlinked with
        deadBytes := if unlinked then deadAfter else deadAfter + victim.size }
      compaction := none }
  | _ => none

def step (world : PackWorld) : PackEvent → Option PackWorld
  | .beginPut id data now => do
    guard (objectId data = id)
    world.beginCall (world.store.putRecord objectId id data now)
  | .beginTouch id now => do
    guard ((world.store.index[id]?).isSome = true)
    world.beginCall ⟨.touch, id, now, []⟩
  | .beginRemove id now => do
    guard ((world.store.index[id]?).isSome = true)
    world.beginCall ⟨.remove, id, now, []⟩
  | .append id => world.append targetSize id
  | .finish id => world.finish id
  | .compactStart victim => world.compactStart victim
  | .compactCopy => world.compactCopy
  | .compactAbandon => world.compactAbandon
  | .compactSwitch => world.compactSwitch targetSize
  | .compactUnlink unlinked => world.compactUnlink unlinked

end PackWorld

abbrev PackStep := Computes (PackWorld.step objectId targetSize)

end

/-- No put has a record in the pack that it has not yet indexed. -/
def PackWorld.NonePendingIn (world : PackWorld) (sequence : Nat) : Prop :=
  ∀ (id : ObjectId) record entry, world.calls[id]? = some ⟨record, .appended entry⟩ →
    record.type = .put → entry.file ≠ sequence

/-- An acknowledged object is readable from the record its index entry names. -/
def AllReadable (objectId : ByteString → ObjectId) (world : PackWorld) : Prop :=
  ∀ id ∈ world.acknowledged, ∃ entry data, world.store.index[id]? = some entry ∧
    getPacked objectId world.store.packs id entry = some data ∧ objectId data = id

/-- Compaction does not take a pack in which a put has a record that it has not yet
indexed. -/
def NoneUnindexed (t : Transition PackWorld PackEvent) : Prop :=
  ∀ victim, t.event = .compactStart victim → t.before.NonePendingIn victim.sequence

namespace PackWorld

/-- What a compaction relies on at each of its stages. -/
def CompactionSafe (objectId : ByteString → ObjectId) (world : PackWorld) : PackCompaction → Prop
  | .started victim snapshot _ =>
    world.NonePendingIn victim.sequence ∧ victim.sequence < world.store.nextSequence ∧
      (∀ (id : ObjectId) entry, world.store.index[id]? = some entry → entry.file = victim.sequence →
          ∃ old, snapshot[id]? = some old ∧ old.file = victim.sequence) ∧
      ∀ (id : ObjectId) entry, snapshot[id]? = some entry → entry.file = victim.sequence →
        Holds objectId world.store.packs id entry
  | .copied victim rebuilt replacement replacementSize _ =>
    world.NonePendingIn victim.sequence ∧
      (∀ (id : ObjectId) entry, world.store.index[id]? = some entry →
        entry.file = victim.sequence → ∃ placed, (id, placed) ∈ rebuilt) ∧
      (rebuilt.Pairwise fun x y => x.1 ≠ y.1) ∧
      (∀ item ∈ rebuilt, Holds objectId world.store.packs item.1 item.2 ∧
        item.2.file ≠ victim.sequence) ∧
      ∀ sequence, replacement = some sequence → sequence ≠ victim.sequence ∧
        ∃ p, packAt world.store.packs sequence = some p ∧ replacementSize = p.size
  | .switched victim _ =>
    world.NonePendingIn victim.sequence ∧
      (∀ (id : ObjectId) entry, world.store.index[id]? = some entry →
        entry.file ≠ victim.sequence) ∧
      world.store.active ≠ some victim.sequence

structure Scheduled (objectId : ByteString → ObjectId) (world : PackWorld) : Prop where
  sound : world.store.Sound
  held : ∀ (id : ObjectId) entry, world.store.index[id]? = some entry →
    Holds objectId world.store.packs id entry
  calls : ∀ (id : ObjectId) call, world.calls[id]? = some call → call.record.id = id ∧
    (call.record.type = .put → objectId call.record.payload = id)
  pending : ∀ (id : ObjectId) record entry,
    world.calls[id]? = some ⟨record, .appended entry⟩ → record.type = .put →
      Holds objectId world.store.packs id entry
  acknowledged : ∀ id ∈ world.acknowledged, (world.store.index[id]?).isSome = true
  compaction : ∀ stage, world.compaction = some stage → world.CompactionSafe objectId stage

theorem Scheduled.allReadable {objectId : ByteString → ObjectId} {world : PackWorld}
    (inv : world.Scheduled objectId) : AllReadable objectId world := by
  intro id hid
  obtain ⟨entry, hentry⟩ := Option.isSome_iff_exists.1 (inv.acknowledged id hid)
  obtain ⟨data, hdata, hobject⟩ := (inv.held id entry hentry).getPacked
  exact ⟨entry, data, hentry, hdata, hobject⟩

variable {objectId : ByteString → ObjectId} {targetSize : Nat} {world next : PackWorld}

/-- Records that wait to be indexed after the change waited before it. -/
def NoneNewPending (world next : PackWorld) : Prop :=
  ∀ (id : ObjectId) record entry, next.calls[id]? = some ⟨record, .appended entry⟩ →
    world.calls[id]? = some ⟨record, .appended entry⟩

theorem NonePendingIn.mono {sequence : Nat} (h : world.NonePendingIn sequence)
    (hnew : NoneNewPending world next) : next.NonePendingIn sequence :=
  fun id record entry hcall => h id record entry (hnew id record entry hcall)

variable {record : PackRecord}

theorem scheduled_beginCall (inv : world.Scheduled objectId)
    (hpayload : record.type = .put → objectId record.payload = record.id)
    (h : world.beginCall record = some next) : next.Scheduled objectId := by
  obtain ⟨-, h⟩ := guard_bind_eq_some h
  cases h
  have hnew : NoneNewPending world
      { world with calls := world.calls.insert record.id ⟨record, .waiting⟩ } := by
    intro id other entry hcall
    have hget := (OrdMap.getElem?_insert world.calls record.id id _).symm.trans hcall
    split at hget
    · cases hget
    · exact hget
  refine ⟨inv.sound, inv.held, fun id call hcall => ?_, fun id other entry hcall => ?_,
    inv.acknowledged, fun stage hstage => ?_⟩
  · have hget := (OrdMap.getElem?_insert world.calls record.id id _).symm.trans hcall
    split at hget
    · next heq =>
      subst heq
      cases hget
      exact ⟨rfl, hpayload⟩
    · exact inv.calls id call hget
  · exact inv.pending id other entry (hnew id other entry hcall)
  · have hsafe := inv.compaction stage hstage
    cases stage with
    | started victim snapshot dead =>
      exact ⟨NonePendingIn.mono hsafe.1 hnew, hsafe.2⟩
    | copied victim rebuilt replacement size dead =>
      exact ⟨NonePendingIn.mono hsafe.1 hnew, hsafe.2⟩
    | switched victim dead => exact ⟨NonePendingIn.mono hsafe.1 hnew, hsafe.2⟩

variable {id : ObjectId}

theorem scheduled_append (inv : world.Scheduled objectId)
    (h : world.append targetSize id = some next) : next.Scheduled objectId := by
  obtain ⟨hnone, h⟩ := guard_bind_eq_some h
  have hidle : world.compaction = none := Option.isNone_iff_eq_none.1 hnone
  split at h
  · next record hcall =>
    have appended := inv.sound.appendRecord targetSize record
    generalize world.store.appendRecord targetSize record = result at appended h
    obtain ⟨store, entry⟩ := result
    cases h
    obtain ⟨hid, hpayload⟩ := inv.calls id _ hcall
    refine ⟨appended.sound, fun other found hfound => ?_, fun other call hother => ?_,
      fun other record' found hother hput => ?_, ?_, fun stage hstage => ?_⟩
    · have hindex : world.store.index[other]? = some found := by
        rw [← appended.index]
        exact hfound
      rw [appended.packs]
      exact (inv.held other found hindex).appendTo _ _
    · have hget := (OrdMap.getElem?_insert world.calls id other _).symm.trans hother
      split at hget
      · next heq =>
        subst heq
        cases hget
        exact ⟨hid, hpayload⟩
      · exact inv.calls other call hget
    · have hget := (OrdMap.getElem?_insert world.calls id other _).symm.trans hother
      split at hget
      · next heq =>
        subst heq
        cases hget
        exact ⟨record, appended.read, hput, hid, hpayload hput, appended.recordSize.symm⟩
      · rw [appended.packs]
        exact (inv.pending other record' found hget hput).appendTo _ _
    · intro other hother
      rw [appended.index]
      exact inv.acknowledged other hother
    · have hstage : world.compaction = some stage := hstage
      rw [hidle] at hstage
      cases hstage
  · cases h

theorem index_of_indexRecord {store : PackStore} {entry found : PackEntry}
    (h : (store.indexRecord record entry).index[id]? = some found) :
    record.type = .put ∧ id = record.id ∧ found = entry ∨
      ∃ old, store.index[id]? = some old ∧ found.file = old.file ∧ found.offset = old.offset ∧
        found.recordSize = old.recordSize := by
  unfold PackStore.indexRecord at h
  cases htype : record.type with
  | put =>
    simp only [htype] at h
    rw [OrdMap.getElem?_insert] at h
    split at h
    · next heq =>
      cases h
      exact .inl ⟨rfl, heq.symm, rfl⟩
    · exact .inr ⟨found, h, rfl, rfl, rfl⟩
  | touch =>
    simp only [htype] at h
    cases hold : store.index[record.id]? with
    | none =>
      rw [hold] at h
      exact .inr ⟨found, h, rfl, rfl, rfl⟩
    | some old =>
      simp only [hold] at h
      rw [OrdMap.getElem?_insert] at h
      split at h
      · next heq =>
        cases h
        rw [heq] at hold
        exact .inr ⟨old, hold, rfl, rfl, rfl⟩
      · exact .inr ⟨found, h, rfl, rfl, rfl⟩
  | remove =>
    simp only [htype] at h
    cases hold : store.index[record.id]? with
    | none =>
      rw [hold] at h
      exact .inr ⟨found, h, rfl, rfl, rfl⟩
    | some old =>
      simp only [hold] at h
      rw [getElem?_erase] at h
      split at h
      · cases h
      · exact .inr ⟨found, h, rfl, rfl, rfl⟩

/-- Only a remove takes an object out of the index, its own; a put puts its own in. -/
theorem isSome_indexRecord {store : PackStore} {entry : PackEntry}
    (h : record.type = .put ∧ id = record.id ∨
      (store.index[id]?).isSome = true ∧ (record.type = .remove → id ≠ record.id)) :
    ((store.indexRecord record entry).index[id]?).isSome = true := by
  unfold PackStore.indexRecord
  cases htype : record.type with
  | put =>
    rw [OrdMap.getElem?_insert]
    split
    · rfl
    · next hne =>
      rcases h with ⟨-, rfl⟩ | ⟨hsome, -⟩
      · exact absurd rfl hne
      · exact hsome
  | touch =>
    have hsome : (store.index[id]?).isSome = true := by
      rcases h with ⟨hput, -⟩ | ⟨hsome, -⟩
      · rw [htype] at hput
        cases hput
      · exact hsome
    cases store.index[record.id]? with
    | none => exact hsome
    | some old =>
      rw [OrdMap.getElem?_insert]
      split
      · rfl
      · exact hsome
  | remove =>
    obtain ⟨hsome, hne⟩ : (store.index[id]?).isSome = true ∧ id ≠ record.id := by
      rcases h with ⟨hput, -⟩ | ⟨hsome, hne⟩
      · rw [htype] at hput
        cases hput
      · exact ⟨hsome, hne htype⟩
    cases store.index[record.id]? with
    | none => exact hsome
    | some old =>
      rw [getElem?_erase, if_neg (Ne.symm hne)]
      exact hsome

theorem indexRecord_frame (store : PackStore) (record : PackRecord) (entry : PackEntry) :
    (store.indexRecord record entry).packs = store.packs ∧
      (store.indexRecord record entry).nextSequence = store.nextSequence ∧
      (store.indexRecord record entry).active = store.active ∧
      (store.indexRecord record entry).activeSize = store.activeSize := by
  unfold PackStore.indexRecord
  cases record.type with
  | put => exact ⟨rfl, rfl, rfl, rfl⟩
  | touch => cases store.index[record.id]? <;> exact ⟨rfl, rfl, rfl, rfl⟩
  | remove => cases store.index[record.id]? <;> exact ⟨rfl, rfl, rfl, rfl⟩

theorem mem_acknowledge (h : id ∈ world.acknowledge record) : record.type = .put ∧ id = record.id ∨
      ((world.store.index[id]?).isSome = true ∨ id ∈ world.acknowledged) ∧
        (record.type = .remove → id ≠ record.id) := by
  unfold acknowledge at h
  cases htype : record.type with
  | put =>
    simp only [htype] at h
    rcases mem_cons.1 h with rfl | h
    · exact .inl ⟨rfl, rfl⟩
    · exact .inr ⟨.inr h, nofun⟩
  | touch =>
    simp only [htype] at h
    split at h
    · next hsome =>
      rcases mem_cons.1 h with rfl | h
      · exact .inr ⟨.inl hsome, nofun⟩
      · exact .inr ⟨.inr h, nofun⟩
    · exact .inr ⟨.inr h, nofun⟩
  | remove =>
    simp only [htype] at h
    obtain ⟨hmem, hne⟩ := mem_filter.1 h
    exact .inr ⟨.inr hmem, fun _ => of_decide_eq_true hne⟩

section

variable (inv : world.Scheduled objectId)

include inv

theorem scheduled_finish (h : world.finish id = some next) : next.Scheduled objectId := by
  unfold finish at h
  split at h
  · next record entry hcall =>
    cases h
    obtain ⟨hpacks, hnext, hactive, hsize⟩ := indexRecord_frame world.store record entry
    obtain ⟨hid, -⟩ := inv.calls id _ hcall
    have hnew : NoneNewPending world
        { world with
          store := world.store.indexRecord record entry
          calls := world.calls.erase id
          acknowledged := world.acknowledge record } := by
      intro other record' found hother
      have hget := (getElem?_erase world.calls id other).symm.trans hother
      split at hget
      · cases hget
      · exact hget
    -- the entries of one pack that are not old ones are in a pack nobody compacts
    have hentries : ∀ victim, world.NonePendingIn victim → ∀ (other : ObjectId) found,
        (world.store.indexRecord record entry).index[other]? = some found →
        found.file = victim → ∃ old, world.store.index[other]? = some old ∧ old.file = victim := by
      intro victim hclear other found hfound hfile
      rcases index_of_indexRecord hfound with ⟨hput, -, rfl⟩ | ⟨old, hold, hsame, -, -⟩
      · exact absurd hfile (hclear id record found hcall hput)
      · exact ⟨old, hold, hsame.symm.trans hfile⟩
    refine ⟨⟨?_, ?_⟩, fun other found hfound => ?_, fun other call hother => ?_,
      fun other record' found hother hput => ?_, fun other hother => ?_, fun stage hstage => ?_⟩
    · rw [hpacks, hnext]
      exact inv.sound.named
    · rw [hactive, hsize, hpacks]
      exact inv.sound.active
    · rw [hpacks]
      rcases index_of_indexRecord hfound with ⟨hput, hsame, rfl⟩ | ⟨old, hold, hfile, hoffset, hrecord⟩
      · rw [hsame, hid]
        exact inv.pending id record found hcall hput
      · exact (inv.held other old hold).congr hfile hoffset hrecord
    · have hget := (getElem?_erase world.calls id other).symm.trans hother
      split at hget
      · cases hget
      · exact inv.calls other call hget
    · rw [hpacks]
      exact inv.pending other record' found (hnew other record' found hother) hput
    · refine isSome_indexRecord ?_
      rcases mem_acknowledge hother with hown | ⟨hsome | hmem, hne⟩
      · exact .inl hown
      · exact .inr ⟨hsome, hne⟩
      · exact .inr ⟨inv.acknowledged other hmem, hne⟩
    · have hsafe := inv.compaction stage hstage
      cases stage with
      | started victim snapshot dead =>
        obtain ⟨hclear, hbelow, hsnapshot, hheld⟩ := hsafe
        refine ⟨hclear.mono hnew, ?_, fun other found hfound hfile => ?_, ?_⟩
        · rw [hnext]
          exact hbelow
        · obtain ⟨old, hold, hsame⟩ := hentries _ hclear other found hfound hfile
          exact hsnapshot other old hold hsame
        · rw [hpacks]
          exact hheld
      | copied victim rebuilt replacement size dead =>
        obtain ⟨hclear, hmoved, hdistinct, hheld, hreplacement⟩ := hsafe
        refine ⟨hclear.mono hnew, fun other found hfound hfile => ?_, hdistinct, ?_, ?_⟩
        · obtain ⟨old, hold, hsame⟩ := hentries _ hclear other found hfound hfile
          exact hmoved other old hold hsame
        · rw [hpacks]
          exact hheld
        · rw [hpacks]
          exact hreplacement
      | switched victim dead =>
        obtain ⟨hclear, hgone, hinactive⟩ := hsafe
        refine ⟨hclear.mono hnew, fun other found hfound hfile => ?_, ?_⟩
        · obtain ⟨old, hold, hsame⟩ := hentries _ hclear other found hfound hfile
          exact hgone other old hold hsame
        · rw [hactive]
          exact hinactive
  · cases h

theorem scheduled_compactStart {victim : Pack} (hclear : world.NonePendingIn victim.sequence)
    (h : world.compactStart victim = some next) : next.Scheduled objectId := by
  obtain ⟨⟨-, -, hvictim⟩, h⟩ := guard_bind_eq_some h
  cases h
  refine ⟨inv.sound, inv.held, inv.calls, inv.pending, inv.acknowledged, fun stage hstage => ?_⟩
  cases hstage
  exact ⟨hclear, inv.sound.named.below victim hvictim.1,
    fun id entry hentry hfile => ⟨entry, hentry, hfile⟩,
    fun id entry hentry _ => inv.held id entry hentry⟩

theorem scheduled_compactCopy (h : world.compactCopy = some next) : next.Scheduled objectId := by
  unfold compactCopy at h
  split at h
  · next victim snapshot dead hstage =>
    obtain ⟨hclear, hbelow, hsnapshot, hheld⟩ := inv.compaction _ hstage
    obtain ⟨⟨store, rebuilt, replacement, size⟩, hcopied, h⟩ := Option.bind_eq_some_iff.1 h
    cases h
    by_cases hempty : PackStore.victimEntries snapshot victim.sequence = []
    · rw [copyVictim_eq_none hempty] at hcopied
      cases hcopied
      refine ⟨inv.sound, inv.held, inv.calls, inv.pending, inv.acknowledged, fun stage hnew => ?_⟩
      cases hnew
      refine ⟨hclear, fun id entry hentry hfile => ?_, List.Pairwise.nil, nofun, nofun⟩
      obtain ⟨old, hold, hsame⟩ := hsnapshot id entry hentry hfile
      have hmem := mem_victimEntries.2 ⟨hold, hsame⟩
      rw [hempty] at hmem
      cases hmem
    · obtain ⟨copies, hcopy, rfl, rfl, rfl, rfl⟩ := copyVictim_eq_some hempty hcopied
      have hentries : ∀ item ∈ PackStore.victimEntries snapshot victim.sequence,
          Holds objectId world.store.packs item.1 item.2 := by
        rintro ⟨id, entry⟩ hitem
        obtain ⟨hentry, hfile⟩ := mem_victimEntries.1 hitem
        exact hheld id entry hentry hfile
      have named := inv.sound.named
      refine ⟨⟨named.snoc copies, fun a ha => ?_⟩,
        fun id entry hentry => (inv.held id entry hentry).snoc _, inv.calls,
        fun id record entry hcall hput => (inv.pending id record entry hcall hput).snoc _,
        inv.acknowledged, fun stage hnew => ?_⟩
      · obtain ⟨p, hp, hsize⟩ := inv.sound.active a ha
        exact ⟨p, packAt_append hp _, hsize⟩
      · cases hnew
        have hdistinct := victimEntries_distinct snapshot victim.sequence
        refine ⟨hclear, fun id entry hentry hfile => ?_, placeEntries_distinct hdistinct _ _,
          fun item hitem => ⟨holds_placed named hentries hcopy hitem, ?_⟩,
          fun sequence hsequence => ?_⟩
        · obtain ⟨old, hold, hsame⟩ := hsnapshot id entry hentry hfile
          exact exists_placed _ 0 (mem_victimEntries.2 ⟨hold, hsame⟩)
        · obtain ⟨old, offset, -, heq, -⟩ := placeEntries_read hentries hcopy _ [] hitem
          rw [heq]
          exact Ne.symm (Nat.ne_of_lt hbelow)
        · cases hsequence
          exact ⟨Ne.symm (Nat.ne_of_lt hbelow), _, packAt_snoc named copies,
            (recordsSize_copies hentries hcopy).symm⟩
  · cases h

theorem scheduled_compactAbandon (h : world.compactAbandon = some next) :
    next.Scheduled objectId := by
  unfold compactAbandon at h
  split at h
  · cases h
    exact ⟨⟨inv.sound.named.mono (Nat.le_succ _), inv.sound.active⟩, inv.held, inv.calls,
      inv.pending, inv.acknowledged, nofun⟩
  · cases h
    exact ⟨inv.sound, inv.held, inv.calls, inv.pending, inv.acknowledged, nofun⟩
  · cases h

theorem scheduled_compactSwitch (h : world.compactSwitch targetSize = some next) :
    next.Scheduled objectId := by
  unfold compactSwitch at h
  split at h
  · next victim rebuilt replacement size dead hstage =>
    cases h
    obtain ⟨hclear, hmoved, hdistinct, hheld, hreplacement⟩ := inv.compaction _ hstage
    have hindex := getElem?_switchTo hdistinct world.store targetSize replacement size
    have hfound : ∀ id entry,
        (world.store.switchTo targetSize replacement rebuilt size).index[id]? = some entry →
          Holds objectId world.store.packs id entry ∧ entry.file ≠ victim.sequence := by
      intro id entry hentry
      by_cases hplaced : ∃ placed, (id, placed) ∈ rebuilt
      · obtain ⟨placed, hplaced⟩ := hplaced
        rw [(hindex id).1 placed hplaced] at hentry
        cases hentry
        exact hheld _ hplaced
      · have hnot : ∀ placed, (id, placed) ∉ rebuilt := fun placed hmem => hplaced ⟨placed, hmem⟩
        rw [(hindex id).2 hnot] at hentry
        exact ⟨inv.held id entry hentry, fun hfile => hplaced (hmoved id entry hentry hfile)⟩
    refine ⟨⟨inv.sound.named, fun a ha => ?_⟩, fun id entry hentry => (hfound id entry hentry).1,
      inv.calls, inv.pending, fun id hid => ?_, fun stage hnew => ?_⟩
    · have hactive : (if size < targetSize then replacement else none) = some a := ha
      split at hactive
      · next hsmall =>
        obtain ⟨-, p, hp, hsize⟩ := hreplacement a hactive
        refine ⟨p, hp, ?_⟩
        show (if replacement.isSome ∧ size < targetSize then size else 0) = p.size
        rw [if_pos ⟨by rw [hactive]; rfl, hsmall⟩, hsize]
      · cases hactive
    · by_cases hplaced : ∃ placed, (id, placed) ∈ rebuilt
      · obtain ⟨placed, hplaced⟩ := hplaced
        rw [(hindex id).1 placed hplaced]
        rfl
      · have hnot : ∀ placed, (id, placed) ∉ rebuilt := fun placed hmem => hplaced ⟨placed, hmem⟩
        rw [(hindex id).2 hnot]
        exact inv.acknowledged id hid
    · cases hnew
      refine ⟨hclear, fun id entry hentry => (hfound id entry hentry).2, ?_⟩
      show (if size < targetSize then replacement else none) ≠ some victim.sequence
      split
      · exact fun hsame => (hreplacement _ hsame).1 rfl
      · nofun
  · cases h

theorem scheduled_compactUnlink {unlinked : Bool} (h : world.compactUnlink unlinked = some next) :
    next.Scheduled objectId := by
  unfold compactUnlink at h
  split at h
  · next victim dead hstage =>
    cases h
    obtain ⟨hclear, hgone, hinactive⟩ := inv.compaction _ hstage
    cases unlinked with
    | false =>
      exact ⟨⟨inv.sound.named, inv.sound.active⟩, inv.held, inv.calls, inv.pending,
        inv.acknowledged, nofun⟩
    | true =>
      refine ⟨⟨inv.sound.named.filter _, fun a ha => ?_⟩,
        fun id entry hentry => (inv.held id entry hentry).unlink (hgone id entry hentry),
        inv.calls, fun id record entry hcall hput =>
          (inv.pending id record entry hcall hput).unlink (hclear id record entry hcall hput),
        inv.acknowledged, nofun⟩
      obtain ⟨p, hp, hsize⟩ := inv.sound.active a ha
      have hother : a ≠ victim.sequence := by
        rintro rfl
        exact hinactive ha
      exact ⟨p, (packAt_filter hother).trans hp, hsize⟩
  · cases h

theorem scheduled_of_step {event : PackEvent} (h : PackStep objectId targetSize world event next)
    (hcondition : NoneUnindexed ⟨world, event, next⟩) : next.Scheduled objectId := by
  cases event with
  | beginPut id data now =>
    obtain ⟨hdata, h⟩ := guard_bind_eq_some h
    obtain ⟨hid, hpayload⟩ := PackStore.putRecord_spec objectId world.store id data now
    refine scheduled_beginCall inv (fun hput => ?_) h
    rw [hid, hpayload hput]
    exact hdata
  | beginTouch id now =>
    obtain ⟨-, h⟩ := guard_bind_eq_some h
    exact scheduled_beginCall inv (fun hput => by cases hput) h
  | beginRemove id now =>
    obtain ⟨-, h⟩ := guard_bind_eq_some h
    exact scheduled_beginCall inv (fun hput => by cases hput) h
  | append id => exact scheduled_append inv h
  | finish id => exact scheduled_finish inv h
  | compactStart victim => exact scheduled_compactStart inv (hcondition victim rfl) h
  | compactCopy => exact scheduled_compactCopy inv h
  | compactAbandon => exact scheduled_compactAbandon inv h
  | compactSwitch => exact scheduled_compactSwitch inv h
  | compactUnlink unlinked => exact scheduled_compactUnlink inv h

end

theorem scheduled_start : Scheduled objectId {} where
  sound := ⟨⟨List.Pairwise.nil, nofun⟩, nofun⟩
  held _ _ h := elim_empty h
  calls _ _ h := elim_empty h
  pending _ _ _ h := elim_empty h
  acknowledged := nofun
  compaction := nofun

theorem scheduled_of_run {events : List (Transition PackWorld PackEvent)} {last : PackWorld}
    (run : Run (Traced (PackStep objectId targetSize)) {} events last)
    (hcondition : Always (fun _ t => NoneUnindexed t) events) : last.Scheduled objectId :=
  run.invariant_of_always hcondition scheduled_start fun _ _ _ hstep inv hlast =>
    scheduled_of_step inv hstep hlast

end PackWorld

/-- In every schedule of puts, removals and compactions an object whose put has
returned, and that was not removed since, is readable from the record its index
entry names, as long as no compaction takes a pack in which a put has a record it
has not yet indexed. -/
theorem packed_puts_readable {objectId : ByteString → ObjectId} {targetSize : Nat}
    {events : List (Transition PackWorld PackEvent)} {last : PackWorld}
    (run : Run (Traced (PackStep objectId targetSize)) {} events last)
    (hcondition : Always (fun _ t => NoneUnindexed t) events) : AllReadable objectId last :=
  (PackWorld.scheduled_of_run run hcondition).allReadable

namespace CompactedUnderPut

def objectId (data : ByteString) : ObjectId := data

def other : ObjectId := [1]

def object : ObjectId := [2]

/-- Something was put and removed, so there is something to compact. A put has its
record in the pack when compaction takes it. -/
def victim : Pack :=
  ⟨1, [⟨.put, other, 10, other⟩, ⟨.remove, other, 11, []⟩, ⟨.put, object, 12, object⟩]⟩

def events : List PackEvent :=
  [.beginPut other other 10, .append other, .finish other, .beginRemove other 11, .append other,
    .finish other, .beginPut object object 12, .append object, .compactStart victim, .compactCopy,
    .compactSwitch, .compactUnlink true, .finish object]

def last : PackWorld := (events.foldlM (PackWorld.step objectId 1000) {}).getD {}

theorem possible : (events.foldlM (PackWorld.step objectId 1000) {}).isSome = true := by
  decide +kernel

theorem returned : last.acknowledged = [object] := by decide +kernel

theorem gone : (last.store.index[object]?).bind (getPacked objectId last.store.packs object) =
    none := by
  decide +kernel

/-- The put has returned, and the pack its index entry names is gone. -/
theorem put_returns_unreadable : ∃ trace, Run (Traced (PackStep objectId 1000)) {} trace last ∧
      trace.map (·.event) = events ∧ last.acknowledged = [object] ∧
        ¬ AllReadable objectId last := by
  obtain ⟨trace, run, htrace⟩ := exists_run_last possible (rfl : _ = last)
  refine ⟨trace, run, htrace, returned, fun hreadable => ?_⟩
  have hmem : object ∈ last.acknowledged := by
    exact mem_cons_self
  obtain ⟨entry, data, hentry, hdata, -⟩ := hreadable object hmem
  have hgone := gone
  rw [hentry, Option.bind_some, hdata] at hgone
  cases hgone

end CompactedUnderPut

namespace CompactedAfterPut

open CompactedUnderPut (objectId other object victim)

/-- The put indexes its record before compaction starts. -/
def calls : List PackEvent :=
  [.beginPut other other 10, .append other, .finish other, .beginRemove other 11, .append other,
    .finish other, .beginPut object object 12, .append object, .finish object]

def indexed : PackWorld := (calls.foldlM (PackWorld.step objectId 1000) {}).getD {}

def started : PackWorld :=
  (indexed.step objectId 1000 (.compactStart victim)).getD {}

def copied : PackWorld := (started.step objectId 1000 .compactCopy).getD {}

def switched : PackWorld := (copied.step objectId 1000 .compactSwitch).getD {}

def last : PackWorld := (switched.step objectId 1000 (.compactUnlink true)).getD {}

theorem possible : (calls.foldlM (PackWorld.step objectId 1000) {}).isSome = true := by
  decide +kernel

/-- No call is in flight when compaction starts; the object is read from its copy. -/
theorem compacted_put_readable : AllReadable objectId last ∧ last.acknowledged = [object] ∧
      (last.store.packs.map (·.sequence)) = [2] := by
  obtain ⟨trace, run, htrace⟩ := exists_run_last possible (rfl : _ = indexed)
  have hquiet : Always (fun _ t => NoneUnindexed t) trace := by
    refine always_of_events htrace fun t ht victim hstart => ?_
    rw [hstart] at ht
    simp [calls] at ht
  have hclear : NoneUnindexed ⟨indexed, .compactStart victim, started⟩ := by
    intro _ _ id record entry hcall
    have hnone : indexed.calls[id]? = none := by
      exact Std.ExtTreeMap.getElem?_empty
    cases hcall
  have hrun := (((run.trace_snoc (u := started) (computes_getD (by decide +kernel))).trace_snoc
    (u := copied) (computes_getD (by decide +kernel))).trace_snoc
    (u := switched) (computes_getD (by decide +kernel))).trace_snoc
    (u := last) (computes_getD (by decide +kernel))
  refine ⟨packed_puts_readable hrun ?_, by decide +kernel, by decide +kernel⟩
  exact always_snoc.2 ⟨always_snoc.2 ⟨always_snoc.2 ⟨always_snoc.2 ⟨hquiet, hclear⟩, nofun⟩,
    nofun⟩, nofun⟩

end CompactedAfterPut

end Macha
