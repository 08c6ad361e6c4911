import Macha.Library.Collect
import Macha.Library.Run
import Macha.Ledger.Records

/-!
# The held ledger

A store queues each change of what it holds under its own lock and flushes
outside it. A flush takes the whole queue, journals it, installs it in the trie
and perhaps folds the journal into the node file; until the ledger is seeded it
leaves the queue alone. A seed lists what the store holds, replaces the trie by
it, installs what was queued meanwhile and marks the ledger seeded on disk and
in memory. A restart keeps the files only, with what a crash let a write leave.

A flush whose journal write fails drops the changes it took, those of other
callers among them, and a caller whose change was taken by another's flush
returns at once. So a change lasts when no journal write that took it fails and
none of those writes goes after the part of a frame an earlier failure left.
-/

namespace Macha

open List

/-- What is appended to the journal: a whole frame, or what a failed append left
of one, which stops every later replay. -/
inductive JournalPiece
  | frame (changes : List LedgerChange)
  | torn
deriving DecidableEq

/-- The records under the published root, and the journal written since. -/
structure LedgerFiles where
  root : LedgerRecords := ∅
  journal : List JournalPiece := []

namespace LedgerFiles

/-- The changes a replay delivers: those of the frames before the first torn one. -/
def readable : List JournalPiece → List LedgerChange
  | .frame changes :: rest => changes ++ readable rest
  | _ => []

def append (files : LedgerFiles) (pieces : List JournalPiece) : LedgerFiles :=
  { files with journal := files.journal ++ pieces }

/-- The records found when the trie is opened again. -/
def reopened (files : LedgerFiles) : LedgerRecords :=
  Ledger.applyChanges files.root (readable files.journal)

/-- The journal cut where its replay stopped. -/
def truncated (files : LedgerFiles) : LedgerFiles :=
  { files with journal := files.journal.takeWhile (· ≠ .torn) }

/-- What a write of the changes leaves that stops before its end: some frames whole,
perhaps part of another. -/
def partly (changes : List LedgerChange) (whole : Nat) (torn : Bool) : List JournalPiece :=
  ((Ledger.framesOf changes).take whole).map .frame ++ if torn then [.torn] else []

theorem readable_frames (frames : List (List LedgerChange)) :
    readable (frames.map .frame) = frames.flatten := by
  induction frames with
  | nil => rfl
  | cons frame frames ih =>
    show frame ++ readable (frames.map .frame) = _
    rw [ih, flatten_cons]

variable {journal : List JournalPiece}

theorem readable_append_of_clean (h : .torn ∉ journal) (pieces : List JournalPiece) :
    readable (journal ++ pieces) = readable journal ++ readable pieces := by
  induction journal with
  | nil => rfl
  | cons piece journal ih =>
    cases piece with
    | torn => exact (h mem_cons_self).elim
    | frame changes =>
      show changes ++ readable (journal ++ pieces) = changes ++ readable journal ++ _
      rw [ih fun hmem => h (mem_cons_of_mem _ hmem), append_assoc]

theorem readable_append_of_torn (h : .torn ∈ journal) (pieces : List JournalPiece) :
    readable (journal ++ pieces) = readable journal := by
  induction journal with
  | nil => cases h
  | cons piece journal ih =>
    cases piece with
    | torn => rfl
    | frame changes =>
      show changes ++ readable (journal ++ pieces) = changes ++ readable journal
      rw [ih (by simpa using h)]

theorem mem_readable {change : LedgerChange} (h : change ∈ readable journal) :
    ∃ changes, .frame changes ∈ journal ∧ change ∈ changes := by
  induction journal with
  | nil => cases h
  | cons piece journal ih =>
    cases piece with
    | torn => cases h
    | frame changes =>
      rcases mem_append.1 h with h | h
      · exact ⟨changes, mem_cons_self, h⟩
      · obtain ⟨found, hmem, hchange⟩ := ih h
        exact ⟨found, mem_cons_of_mem _ hmem, hchange⟩

theorem readable_takeWhile (journal : List JournalPiece) :
    readable (journal.takeWhile (· ≠ .torn)) = readable journal := by
  induction journal with
  | nil => rfl
  | cons piece journal ih =>
    cases piece with
    | torn => rfl
    | frame changes =>
      show changes ++ readable (journal.takeWhile (· ≠ .torn)) = _
      rw [ih]
      rfl

theorem reopened_truncated (files : LedgerFiles) : files.truncated.reopened = files.reopened := by
  unfold reopened truncated
  rw [readable_takeWhile]

theorem reopened_append_of_absent {files : LedgerFiles} {pieces : List JournalPiece} {id : LedgerId}
    (h : ∀ changes, .frame changes ∈ pieces → ∀ change ∈ changes, change.id ≠ id) :
    (files.append pieces).reopened[id]? = files.reopened[id]? := by
  unfold reopened append
  by_cases htorn : .torn ∈ files.journal
  · rw [readable_append_of_torn htorn]
  · rw [readable_append_of_clean htorn, Ledger.applyChanges_append]
    refine Ledger.getElem?_applyChanges_of_none (Ledger.lastChange_eq_none_iff.2 ?_)
    intro change hchange
    obtain ⟨changes, hmem, hin⟩ := mem_readable hchange
    exact h changes hmem change hin

theorem reopened_append_partly {files : LedgerFiles} {changes : List LedgerChange}
    {id : LedgerId} (h : Ledger.lastChange id changes = none) (whole : Nat) (torn : Bool) :
    (files.append (partly changes whole torn)).reopened[id]? = files.reopened[id]? := by
  refine reopened_append_of_absent fun frame hframe change hchange => ?_
  have hframes : frame ∈ Ledger.framesOf changes := by
    rcases mem_append.1 hframe with hframe | hframe
    · simp only [List.mem_map, JournalPiece.frame.injEq, exists_eq_right] at hframe
      exact mem_of_mem_take hframe
    · cases torn <;> simp at hframe
  have hmem : change ∈ (Ledger.framesOf changes).flatten := mem_flatten_of_mem hframes hchange
  rw [Ledger.flatten_framesOf] at hmem
  exact Ledger.lastChange_eq_none_iff.1 h change hmem

theorem reopened_append_frames {files : LedgerFiles} (h : .torn ∉ files.journal)
    (changes : List LedgerChange) :
    (files.append ((Ledger.framesOf changes).map .frame)).reopened =
      Ledger.applyChanges files.reopened changes := by
  unfold reopened append
  rw [readable_append_of_clean h, readable_frames, Ledger.flatten_framesOf,
    Ledger.applyChanges_append]

end LedgerFiles

/-- Who holds `flush_mutex_`. -/
inductive Flusher
  | caller (caller : Nat)
  | seeder
deriving DecidableEq

/-- How far the holder of `flush_mutex_` is. -/
inductive FlushStage
  | took (changes : List LedgerChange)
  | written (changes : List LedgerChange)
  | installed
  | published
  | finished
  | marked

/-- How far a seed is before it takes `flush_mutex_`. -/
inductive SeedStage
  | listed (present : List LedgerId)
  | built

structure HeldLedger where
  trie : LedgerRecords := ∅
  files : LedgerFiles := {}
  /-- The file `seeded` exists. -/
  marker : Bool := false
  seeded : Bool := false
  queued : List LedgerChange := []
  flushing : Option (Flusher × FlushStage) := none
  seeding : Option SeedStage := none

namespace HeldLedger

def heldValue : ByteString := [0, 0, 0, 0, 0, 0, 0, 1]

def held (ledger : HeldLedger) (id : LedgerId) : Option Bool :=
  if ledger.seeded then some ledger.trie[id]?.isSome else none

def changeOf (id : LedgerId) (held : Bool) : LedgerChange :=
  ⟨id, if held then some heldValue else none⟩

def record (ledger : HeldLedger) (id : LedgerId) (held : Bool) : HeldLedger :=
  { ledger with queued := ledger.queued ++ [changeOf id held] }

def dropQueued (ledger : HeldLedger) : HeldLedger :=
  { ledger with queued := [] }

/-- `install_queued`, first section: the whole queue taken out. -/
def takeQueued (ledger : HeldLedger) (who : Flusher) : HeldLedger :=
  if ledger.queued.isEmpty then { ledger with flushing := some (who, .finished) }
  else
    { ledger with
      queued := []
      flushing := some (who, .took (Ledger.sortUnique ledger.queued)) }

/-- `write_journal`, every frame appended and synced. -/
def writeJournal (ledger : HeldLedger) : Option HeldLedger :=
  match ledger.flushing with
  | some (who, .took changes) =>
    some { ledger with
      files := ledger.files.append ((Ledger.framesOf changes).map .frame)
      flushing := some (who, .written changes) }
  | _ => none

/-- `write_journal` thrown out of. The flush or the seed ends, and what it took is
dropped. -/
def failJournal (ledger : HeldLedger) (whole : Nat) (torn : Bool) : Option HeldLedger :=
  match ledger.flushing with
  | some (who, .took changes) =>
    some { ledger with
      files := ledger.files.append (LedgerFiles.partly changes whole torn)
      flushing := none
      seeding := if who = .seeder then none else ledger.seeding }
  | _ => none

/-- `ObjectTrie::install`, without a checkpoint. -/
def install (ledger : HeldLedger) : Option HeldLedger :=
  match ledger.flushing with
  | some (who, .written changes) =>
    some { ledger with
      trie := Ledger.applyChanges ledger.trie changes
      flushing := some (who, .installed) }
  | _ => none

/-- A checkpoint up to its published root. -/
def publish (ledger : HeldLedger) : Option HeldLedger :=
  match ledger.flushing with
  | some (who, .installed) =>
    some { ledger with
      files := { ledger.files with root := ledger.trie }
      flushing := some (who, .published) }
  | _ => none

/-- The rest of a checkpoint: the journal reset. -/
def resetJournal (ledger : HeldLedger) : Option HeldLedger :=
  match ledger.flushing with
  | some (who, .published) =>
    some { ledger with
      files := { ledger.files with journal := [] }
      flushing := some (who, .finished) }
  | _ => none

def flushed (ledger : HeldLedger) : Option (Nat × HeldLedger) :=
  match ledger.flushing with
  | some (.caller caller, .installed) => some (caller, { ledger with flushing := none })
  | some (.caller caller, .finished) => some (caller, { ledger with flushing := none })
  | _ => none

def presentRecords (present : List LedgerId) : LedgerRecords :=
  Ledger.applyChanges ∅ (present.map fun id => changeOf id true)

/-- `seed`, its snapshot taken: the changes queued before are in it. -/
def snapshot (ledger : HeldLedger) (present : List LedgerId) : Option HeldLedger := do
  guard (ledger.seeded = false ∧ ledger.seeding.isNone = true)
  some { ledger.dropQueued with seeding := some (.listed present) }

/-- `seed`, the trie replaced and checkpointed. -/
def replaceAll (ledger : HeldLedger) : Option HeldLedger :=
  match ledger.seeding with
  | some (.listed present) =>
    some { ledger with
      trie := presentRecords present
      files := { root := presentRecords present }
      seeding := some .built }
  | _ => none

/-- `seed`, under `flush_mutex_`. -/
def lockSeed (ledger : HeldLedger) : Option HeldLedger :=
  match ledger.flushing, ledger.seeding with
  | none, some .built => some (ledger.takeQueued .seeder)
  | _, _ => none

/-- `seed`, the marker file written. -/
def mark (ledger : HeldLedger) : Option HeldLedger :=
  match ledger.flushing with
  | some (.seeder, .installed) =>
    some { ledger with marker := true, flushing := some (.seeder, .marked) }
  | some (.seeder, .finished) =>
    some { ledger with marker := true, flushing := some (.seeder, .marked) }
  | _ => none

/-- `seed`, seeded in memory. -/
def finishSeed (ledger : HeldLedger) : Option HeldLedger :=
  match ledger.flushing with
  | some (.seeder, .marked) =>
    some { ledger with seeded := true, flushing := none, seeding := none }
  | _ => none

/-- What the holder of the lock has taken and not installed. -/
def inFlight (ledger : HeldLedger) : List LedgerChange :=
  match ledger.flushing with
  | some (_, .took changes) => changes
  | some (_, .written changes) => changes
  | _ => []

/-- What it has taken and not journalled. -/
def unwritten (ledger : HeldLedger) : List LedgerChange :=
  match ledger.flushing with
  | some (_, .took changes) => changes
  | _ => []

/-- The files a crash leaves, in the middle of a write if one is going on. -/
def crashed (ledger : HeldLedger) (whole : Nat) (torn : Bool) : LedgerFiles :=
  ledger.files.append (LedgerFiles.partly ledger.unwritten whole torn)

/-- Opened again: the published root with the journal replayed over it. -/
def restarted (ledger : HeldLedger) (whole : Nat) (torn : Bool) : HeldLedger where
  trie := (ledger.crashed whole torn).reopened
  files := (ledger.crashed whole torn).truncated
  marker := ledger.marker
  seeded := ledger.marker

end HeldLedger

/-- The last change recorded for an id: its caller, while it runs, and whether a
flush of that caller has returned since. -/
structure Recorded where
  held : Bool
  caller : Option Nat
  flushed : Bool := false

/-- A change that was made: returned, or with its caller still running. -/
def Recorded.made (change : Recorded) : Bool := change.flushed || change.caller.isSome

structure LedgerWorld where
  ledger : HeldLedger := {}
  recorded : OrdMap LedgerId Recorded := ∅

inductive LedgerEvent
  | record (caller : Nat) (id : LedgerId) (held : Bool)
  | flush (caller : Nat)
  | write
  | writeFailed (whole : Nat) (torn : Bool)
  | install
  | publish
  | resetJournal
  | flushed
  | snapshot (present : List LedgerId)
  | replaceAll
  | lockSeed
  | mark
  | finishSeed
  | restart (whole : Nat) (torn : Bool)

namespace LedgerWorld

/-- A flush of the caller returned normally. -/
def returned (recorded : OrdMap LedgerId Recorded) (caller : Nat) : OrdMap LedgerId Recorded :=
  recorded.map fun _ change =>
    if change.caller = some caller then { change with flushed := true } else change

/-- No caller outlives the process. -/
def abandoned (recorded : OrdMap LedgerId Recorded) : OrdMap LedgerId Recorded :=
  recorded.map fun _ change => { change with caller := none }

/-- The snapshot of a seed lists what the changes made so far leave. -/
def Lists (recorded : OrdMap LedgerId Recorded) (present : List LedgerId) : Prop :=
  ∀ entry ∈ recorded.toList, entry.2.made = true → (entry.1 ∈ present ↔ entry.2.held = true)

instance (recorded : OrdMap LedgerId Recorded) (present : List LedgerId) :
    Decidable (Lists recorded present) :=
  inferInstanceAs (Decidable (∀ entry ∈ recorded.toList, _))

def withLedger (world : LedgerWorld) (ledger : Option HeldLedger) : Option LedgerWorld :=
  ledger.map fun ledger => { world with ledger := ledger }

def step (world : LedgerWorld) : LedgerEvent → Option LedgerWorld
  | .record caller id held => do
    -- A caller inside a flush records nothing.
    guard (world.ledger.flushing.map (·.1) ≠ some (.caller caller))
    some {
      ledger := world.ledger.record id held
      recorded := world.recorded.insert id ⟨held, some caller, false⟩ }
  | .flush caller => do
    guard (world.ledger.flushing.isNone = true)
    if world.ledger.seeded then
      some { world with ledger := world.ledger.takeQueued (.caller caller) }
    else
      some { world with recorded := returned world.recorded caller }
  | .write => world.withLedger world.ledger.writeJournal
  | .writeFailed whole torn => world.withLedger (world.ledger.failJournal whole torn)
  | .install => world.withLedger world.ledger.install
  | .publish => world.withLedger world.ledger.publish
  | .resetJournal => world.withLedger world.ledger.resetJournal
  | .flushed => do
    let (caller, ledger) ← world.ledger.flushed
    some { ledger := ledger, recorded := returned world.recorded caller }
  | .snapshot present => do
    guard (Lists world.recorded present)
    world.withLedger (world.ledger.snapshot present)
  | .replaceAll => world.withLedger world.ledger.replaceAll
  | .lockSeed => world.withLedger world.ledger.lockSeed
  | .mark => world.withLedger world.ledger.mark
  | .finishSeed => world.withLedger world.ledger.finishSeed
  | .restart whole torn =>
    some { ledger := world.ledger.restarted whole torn, recorded := abandoned world.recorded }

end LedgerWorld

abbrev LedgerStep := Computes LedgerWorld.step

/-- A change whose caller's flush returned is what the ledger answers, now and
after a restart, whatever a write that is going on leaves. -/
def LedgerWorld.Remembers (world : LedgerWorld) (id : LedgerId) : Prop :=
  ∀ change, world.recorded[id]? = some change → change.flushed = true → world.ledger.seeded = true →
      world.ledger.held id = some change.held ∧
        ∀ whole torn, (world.ledger.restarted whole torn).held id = some change.held

/-- No flush that took a change of the id fails to journal it, and none of them
journals it after a torn frame. -/
def KeepsChange (id : LedgerId) (t : Transition LedgerWorld LedgerEvent) : Prop :=
  match t.event with
  | .write =>
    (Ledger.lastChange id t.before.ledger.unwritten).isSome = true →
      .torn ∉ t.before.ledger.files.journal
  | .writeFailed _ _ =>
    t.before.ledger.seeded = true → Ledger.lastChange id t.before.ledger.unwritten = none
  | _ => True

instance (id : LedgerId) : DecidablePred (KeepsChange id) := by
  intro t
  unfold KeepsChange
  split <;> infer_instance

end Macha
