import Macha.Ledger.HeldLedger

/-!
# What the held ledger remembers

Of an id whose changes no journal write drops, the changes on their way to the
trie, laid over it, leave what was last recorded; so do those on their way to
the journal, laid over what a restart would find. A flush returns once neither
holds a change of its caller.
-/

namespace Macha

open List Option OrdMap

namespace HeldLedger

/-- Callers hold the lock only once seeded, the seed only before; the marker is
on disk from the last section of the seed. -/
def Locked (ledger : HeldLedger) : Prop :=
  match ledger.flushing with
  | none => (ledger.seeding ≠ none → ledger.seeded = false) ∧ ledger.marker = ledger.seeded
  | some (.caller _, _) =>
    ledger.seeded = true ∧ ledger.seeding = none ∧ ledger.marker = true
  | some (.seeder, .marked) =>
    ledger.seeded = false ∧ ledger.seeding = some .built ∧ ledger.marker = true
  | some (.seeder, _) =>
    ledger.seeded = false ∧ ledger.seeding = some .built ∧ ledger.marker = false

/-- The trie stands for the store, but for the changes on their way to it. -/
def Following (ledger : HeldLedger) : Prop :=
  ledger.seeded = true ∨ ledger.seeding = some .built

/-- The queue has been taken since the seed began its last section. -/
def Settling (ledger : HeldLedger) : Prop :=
  ledger.seeded = true ∨ ∃ stage, ledger.flushing = some (.seeder, stage)

variable {ledger : HeldLedger}

theorem Locked.following_of_marker (h : ledger.Locked) (hmarker : ledger.marker = true) :
    ledger.Following ∧ ledger.Settling ∧ (ledger.seeded = true ∨ ledger.unwritten = []) := by
  unfold Locked at h
  unfold Following Settling unwritten
  split at h <;> simp_all

theorem Locked.idle_of_listed (h : ledger.Locked) {present : List LedgerId}
    (hseeding : ledger.seeding = some (.listed present)) :
    ledger.flushing = none ∧ ledger.seeded = false := by
  unfold Locked at h
  split at h <;> simp_all

theorem Locked.idle_of_unseeded (h : ledger.Locked) (hseeded : ledger.seeded = false)
    (hseeding : ledger.seeding = none) :
    ledger.flushing = none := by
  unfold Locked at h
  split at h <;> simp_all

theorem isSome_presentRecords (present : List LedgerId) (id : LedgerId) :
    (presentRecords present)[id]?.isSome = true ↔ id ∈ present := by
  unfold presentRecords
  rw [Ledger.getElem?_applyChanges]
  cases hlast : Ledger.lastChange id (present.map fun id => changeOf id true) with
  | none =>
    simp only [Ledger.lastChange_eq_none_iff, List.mem_map] at hlast
    constructor
    · simp
    · intro h
      exact (hlast _ ⟨id, h, rfl⟩ rfl).elim
  | some change =>
    obtain ⟨hmem, hid⟩ := Ledger.lastChange_eq_some hlast
    simp only [List.mem_map] at hmem
    obtain ⟨found, hfound, rfl⟩ := hmem
    constructor
    · intro _
      rw [← hid]
      exact hfound
    · intro _
      rfl

end HeldLedger

open Ledger HeldLedger

/-- What the ledger keeps of the last change recorded for an id. -/
structure KeptChange (id : LedgerId) (ledger : HeldLedger) (change : Recorded) : Prop where
  /-- A caller inside its flush has nothing queued. -/
  own : ∀ {caller stage}, ledger.flushing = some (.caller caller, stage) →
    change.caller = some caller → lastChange id ledger.queued = none
  unqueued : change.flushed = true → ledger.Settling → lastChange id ledger.queued = none
  untaken : change.flushed = true → ledger.seeded = true → lastChange id ledger.inFlight = none
  listed : ∀ {present}, change.made = true → ledger.seeding = some (.listed present) →
    (applyChanges (presentRecords present) ledger.queued)[id]?.isSome = change.held
  memory : change.made = true → ledger.Following →
    (applyChanges ledger.trie (ledger.inFlight ++ ledger.queued))[id]?.isSome = change.held
  disk : change.made = true → ledger.Following →
    (applyChanges ledger.files.reopened (ledger.unwritten ++ ledger.queued))[id]?.isSome =
      change.held

/-- What holds of an id along a run in which no journal write drops its changes. -/
structure Kept (id : LedgerId) (world : LedgerWorld) : Prop where
  locked : world.ledger.Locked
  published : ∀ {who}, world.ledger.flushing = some (who, .published) →
    world.ledger.files.root = world.ledger.trie
  last : ∀ {change}, world.recorded[id]? = some change → KeptChange id world.ledger change

section

variable {recorded : OrdMap LedgerId Recorded} {id : LedgerId} {caller : Nat}
  {change before : Recorded}

theorem exists_of_returned (h : (LedgerWorld.returned recorded caller)[id]? = some change) :
    ∃ before, recorded[id]? = some before ∧ change =
      if before.caller = some caller then { before with flushed := true } else before := by
  unfold LedgerWorld.returned at h
  rw [OrdMap.getElem?_map] at h
  obtain ⟨before, hbefore, rfl⟩ := map_eq_some_iff.1 h
  exact ⟨before, hbefore, rfl⟩

theorem held_of_returned :
    (if before.caller = some caller then { before with flushed := true } else before).held =
      before.held := by
  split <;> rfl

theorem made_of_returned (h : (if before.caller = some caller then { before with flushed := true }
      else before).made = true) : before.made = true := by
  split at h
  · next hcaller => simp [Recorded.made, hcaller]
  · exact h

theorem exists_of_abandoned (h : (LedgerWorld.abandoned recorded)[id]? = some change) :
    ∃ before, recorded[id]? = some before ∧ change = { before with caller := none } := by
  unfold LedgerWorld.abandoned at h
  rw [OrdMap.getElem?_map] at h
  obtain ⟨before, hbefore, rfl⟩ := map_eq_some_iff.1 h
  exact ⟨before, hbefore, rfl⟩

end

theorem HeldLedger.lastChange_unwritten {ledger : HeldLedger} {id : LedgerId}
    (h : lastChange id ledger.inFlight = none) : lastChange id ledger.unwritten = none := by
  unfold inFlight at h
  unfold unwritten
  split at h <;> simp_all

/-! ## One change -/

namespace KeptChange

variable {id : LedgerId} {ledger : HeldLedger} {change : Recorded}

theorem record_self {caller : Nat} {held : Bool}
    (hcaller : ledger.flushing.map (·.1) ≠ some (.caller caller)) :
    KeptChange id (ledger.record id held) ⟨held, some caller, false⟩ := by
  have hself (records : LedgerRecords) (earlier : List LedgerChange) :
      (applyChanges records (earlier ++ (ledger.queued ++ [changeOf id held])))[id]?.isSome =
        held := by
    rw [← append_assoc, getElem?_applyChanges, lastChange_append, lastChange_singleton]
    cases held <;> simp [changeOf]
  constructor
  · intro holder stage hflushing hholder
    simp_all [HeldLedger.record]
  · nofun
  · nofun
  · exact fun _ _ => hself _ []
  · exact fun _ _ => hself _ _
  · exact fun _ _ => hself _ _

variable (kept : KeptChange id ledger change)

include kept

theorem record_other {other : LedgerId} {held : Bool} (hid : other ≠ id) :
    KeptChange id (ledger.record other held) change := by
  have hother : (changeOf other held).id ≠ id := hid
  have hlast (changes : List LedgerChange) :
      lastChange id (changes ++ [changeOf other held]) = lastChange id changes := by
    simp [lastChange_append, lastChange_singleton, hother]
  have hsame (records : LedgerRecords) (earlier : List LedgerChange) :
      (applyChanges records (earlier ++ (ledger.queued ++ [changeOf other held])))[id]? =
        (applyChanges records (earlier ++ ledger.queued))[id]? := by
    rw [← append_assoc, getElem?_applyChanges, getElem?_applyChanges, hlast]
  constructor
  · exact fun hflushing hholder => (hlast _).trans (kept.own hflushing hholder)
  · exact fun hflushed hsettling => (hlast _).trans (kept.unqueued hflushed hsettling)
  · exact kept.untaken
  · exact fun hmade hseeding =>
      (congrArg isSome (hsame _ [])).trans (kept.listed hmade hseeding)
  · exact fun hmade hfollowing =>
      (congrArg isSome (hsame _ _)).trans (kept.memory hmade hfollowing)
  · exact fun hmade hfollowing => (congrArg isSome (hsame _ _)).trans (kept.disk hmade hfollowing)

theorem takeQueued (hidle : ledger.flushing = none) {who : Flusher}
    (hlocked : (ledger.takeQueued who).Locked) : KeptChange id (ledger.takeQueued who) change := by
  have hflight : ledger.inFlight = [] := by simp [inFlight, hidle]
  have hunwritten : ledger.unwritten = [] := by simp [unwritten, hidle]
  have hmemory := kept.memory
  have hdisk := kept.disk
  rw [hflight] at hmemory
  rw [hunwritten] at hdisk
  by_cases hempty : ledger.queued.isEmpty = true
  · have htake : ledger.takeQueued who = { ledger with flushing := some (who, .finished) } :=
      if_pos hempty
    have hnil : ledger.queued = [] := List.isEmpty_iff.1 hempty
    rw [htake]
    constructor
    · simp [hnil]
    · simp [hnil]
    · exact fun _ _ => rfl
    · exact kept.listed
    · exact hmemory
    · exact hdisk
  · have htake : ledger.takeQueued who = { ledger with
          queued := []
          flushing := some (who, .took (sortUnique ledger.queued)) } := if_neg hempty
    rw [htake] at hlocked ⊢
    constructor
    · exact fun _ _ => rfl
    · exact fun _ _ => rfl
    · intro hflushed hnow
      show lastChange id (sortUnique ledger.queued) = none
      rw [lastChange_sortUnique]
      exact kept.unqueued hflushed (.inl hnow)
    · intro present _ hseeding
      cases (hlocked.idle_of_listed hseeding).1
    · intro hmade hfollowing
      show (applyChanges ledger.trie (sortUnique ledger.queued ++ []))[id]?.isSome = _
      rw [append_nil, applyChanges_sortUnique]
      exact hmemory hmade hfollowing
    · intro hmade hfollowing
      show (applyChanges ledger.files.reopened (sortUnique ledger.queued ++ []))[id]?.isSome = _
      rw [append_nil, applyChanges_sortUnique]
      exact hdisk hmade hfollowing

/-- The holder of the lock goes on: what memory and disk say of the id stays. -/
theorem advance {who : Flusher} {stage next : FlushStage}
    (hholder : ledger.flushing = some (who, stage)) {trie : LedgerRecords} {files : LedgerFiles}
    {after : HeldLedger} (hafter : after = { ledger with
      trie := trie, files := files, flushing := some (who, next) })
    (htaken : lastChange id ledger.inFlight = none → lastChange id after.inFlight = none)
    (hmemory : (applyChanges trie (after.inFlight ++ ledger.queued))[id]? =
      (applyChanges ledger.trie (ledger.inFlight ++ ledger.queued))[id]?)
    (hdisk : (applyChanges files.reopened (after.unwritten ++ ledger.queued))[id]? =
        (applyChanges ledger.files.reopened (ledger.unwritten ++ ledger.queued))[id]? ∨
      (applyChanges files.reopened (after.unwritten ++ ledger.queued))[id]? =
        (applyChanges ledger.trie (ledger.inFlight ++ ledger.queued))[id]?) :
    KeptChange id after change := by
  subst hafter
  constructor
  · intro caller now h hcaller
    simp only [some.injEq, Prod.mk.injEq] at h
    rw [h.1] at hholder
    exact kept.own hholder hcaller
  · intro hflushed hsettling
    refine kept.unqueued hflushed ?_
    rcases hsettling with hseeded | ⟨now, h⟩
    · exact .inl hseeded
    · simp only [some.injEq, Prod.mk.injEq] at h
      exact .inr ⟨stage, h.1 ▸ hholder⟩
  · exact fun hflushed hseeded => htaken (kept.untaken hflushed hseeded)
  · exact kept.listed
  · exact fun hmade hfollowing => (congrArg isSome hmemory).trans (kept.memory hmade hfollowing)
  · intro hmade hfollowing
    rcases hdisk with hdisk | hdisk
    · exact (congrArg isSome hdisk).trans (kept.disk hmade hfollowing)
    · exact (congrArg isSome hdisk).trans (kept.memory hmade hfollowing)

end KeptChange

/-! ## Steps -/

namespace Kept

variable {id : LedgerId} {world : LedgerWorld}

theorem start (id : LedgerId) : Kept id {} :=
  ⟨⟨fun h => (h rfl).elim, rfl⟩, nofun, fun h => by simp at h⟩

theorem record (kept : Kept id world) {caller : Nat} {other : LedgerId} {held : Bool}
    (hcaller : world.ledger.flushing.map (·.1) ≠ some (.caller caller)) :
    Kept id {
      ledger := world.ledger.record other held
      recorded := world.recorded.insert other ⟨held, some caller, false⟩ } := by
  refine ⟨kept.locked, kept.published, fun hrecorded => ?_⟩
  rcases getElem?_insert_eq_some hrecorded with ⟨rfl, rfl⟩ | ⟨hid, hrecorded⟩
  · exact .record_self hcaller
  · exact (kept.last hrecorded).record_other hid

theorem takeQueued (kept : Kept id world) (hidle : world.ledger.flushing = none) {who : Flusher}
    (hlocked : (world.ledger.takeQueued who).Locked) :
    Kept id { world with ledger := world.ledger.takeQueued who } := by
  refine ⟨hlocked, fun h => ?_, fun hrecorded => (kept.last hrecorded).takeQueued hidle hlocked⟩
  unfold HeldLedger.takeQueued at h
  split at h <;> simp at h

theorem returned (kept : Kept id world) {caller : Nat} {stage : FlushStage}
    (hholder : world.ledger.flushing = some (.caller caller, stage))
    (hflight : world.ledger.inFlight = []) :
    Kept id {
      ledger := { world.ledger with flushing := none }
      recorded := LedgerWorld.returned world.recorded caller } := by
  have hunwritten : world.ledger.unwritten = [] := by
    cases stage <;> simp_all [inFlight, unwritten]
  have hseeded : world.ledger.seeded = true ∧ world.ledger.seeding = none ∧
      world.ledger.marker = true := by
    have hlocked := kept.locked
    unfold Locked at hlocked
    rw [hholder] at hlocked
    exact hlocked
  refine ⟨by simp [Locked, hseeded], nofun, fun hrecorded => ?_⟩
  obtain ⟨before, hbefore, rfl⟩ := exists_of_returned hrecorded
  have last := kept.last hbefore
  constructor
  · nofun
  · intro hflushed _
    by_cases hown : before.caller = some caller
    · exact last.own hholder hown
    · rw [if_neg hown] at hflushed
      exact last.unqueued hflushed (.inl hseeded.1)
  · exact fun _ _ => rfl
  · intro present _ hseeding
    simp [hseeded] at hseeding
  · intro hmade hfollowing
    have hmemory := last.memory (made_of_returned hmade) hfollowing
    rw [hflight] at hmemory
    rw [held_of_returned]
    exact hmemory
  · intro hmade hfollowing
    have hdisk := last.disk (made_of_returned hmade) hfollowing
    rw [hunwritten] at hdisk
    rw [held_of_returned]
    exact hdisk

theorem returned_unseeded (kept : Kept id world) (hidle : world.ledger.flushing = none)
    (hseeded : world.ledger.seeded = false) (caller : Nat) :
    Kept id { world with recorded := LedgerWorld.returned world.recorded caller } := by
  refine ⟨kept.locked, kept.published, fun hrecorded => ?_⟩
  obtain ⟨before, hbefore, rfl⟩ := exists_of_returned hrecorded
  have last := kept.last hbefore
  constructor
  · intro holder stage hholder
    simp [hidle] at hholder
  · intro _ hsettling
    simp [Settling, hidle, hseeded] at hsettling
  · intro _ hnow
    simp [hseeded] at hnow
  all_goals rw [held_of_returned]
  · exact fun hmade => last.listed (made_of_returned hmade)
  · exact fun hmade => last.memory (made_of_returned hmade)
  · exact fun hmade => last.disk (made_of_returned hmade)

theorem restarted (kept : Kept id world) (whole : Nat) (torn : Bool) : Kept id {
      ledger := world.ledger.restarted whole torn
      recorded := LedgerWorld.abandoned world.recorded } := by
  refine ⟨by simp [Locked, HeldLedger.restarted], nofun, fun hrecorded => ?_⟩
  obtain ⟨before, hbefore, rfl⟩ := exists_of_abandoned hrecorded
  have last := kept.last hbefore
  have hfound (hmade : ({ before with caller := none } : Recorded).made = true)
      (hfollowing : (world.ledger.restarted whole torn).Following) :
      (world.ledger.crashed whole torn).reopened[id]?.isSome = before.held := by
    have hmarker : world.ledger.marker = true := by
      simpa [Following, HeldLedger.restarted] using hfollowing
    have hflushed : before.flushed = true := by simpa [Recorded.made] using hmade
    obtain ⟨hfollowing, hsettling, hwritten⟩ := kept.locked.following_of_marker hmarker
    have hqueued := last.unqueued hflushed hsettling
    have hunwritten : lastChange id world.ledger.unwritten = none := by
      rcases hwritten with hseeded | hnil
      · exact lastChange_unwritten (last.untaken hflushed hseeded)
      · rw [hnil]
        rfl
    have hdisk := last.disk (by simp [Recorded.made, hflushed]) hfollowing
    rw [getElem?_applyChanges_append_of_none hunwritten,
      getElem?_applyChanges_of_none hqueued] at hdisk
    exact (congrArg isSome (LedgerFiles.reopened_append_partly hunwritten whole torn)).trans hdisk
  constructor
  · nofun
  · exact fun _ _ => rfl
  · exact fun _ _ => rfl
  · nofun
  · exact hfound
  · intro hmade hfollowing
    show (world.ledger.crashed whole torn).truncated.reopened[id]?.isSome = _
    rw [LedgerFiles.reopened_truncated]
    exact hfound hmade hfollowing

variable {ledger : HeldLedger} (kept : Kept id world)

include kept

theorem snapshot {present : List LedgerId} (hlists : LedgerWorld.Lists world.recorded present)
    (h : world.ledger.snapshot present = some ledger) :
    Kept id { world with ledger := ledger } := by
  obtain ⟨⟨hseeded, hseeding⟩, h⟩ := guard_bind_eq_some h
  cases h
  have hidle := kept.locked.idle_of_unseeded hseeded (isNone_iff_eq_none.1 hseeding)
  have hlocked := kept.locked
  refine ⟨by simp_all [Locked, dropQueued], kept.published, fun {change} hrecorded => ?_⟩
  constructor
  · exact fun _ _ => rfl
  · exact fun _ _ => rfl
  · exact (kept.last hrecorded).untaken
  · intro found hmade hlisted
    cases hlisted
    show (presentRecords present)[id]?.isSome = _
    rw [Bool.eq_iff_iff, isSome_presentRecords]
    exact hlists (id, change) ((OrdMap.mem_toList _ _ _).2 hrecorded) hmade
  · intro _ hfollowing
    simp [Following, dropQueued, hseeded] at hfollowing
  · intro _ hfollowing
    simp [Following, dropQueued, hseeded] at hfollowing

theorem replaceAll (h : world.ledger.replaceAll = some ledger) :
    Kept id { world with ledger := ledger } := by
  unfold HeldLedger.replaceAll at h
  split at h
  · next present hlisted =>
    cases h
    obtain ⟨hidle, hseeded⟩ := kept.locked.idle_of_listed hlisted
    have hlocked := kept.locked
    refine ⟨by simp_all [Locked], fun hpublished => ?_, fun hrecorded => ?_⟩
    · simp [hidle] at hpublished
    · have last := kept.last hrecorded
      constructor
      · exact last.own
      · exact last.unqueued
      · exact last.untaken
      · nofun
      · intro hmade _
        simpa [inFlight, hidle] using last.listed hmade hlisted
      · intro hmade _
        simpa [unwritten, hidle, LedgerFiles.reopened, LedgerFiles.readable] using
          last.listed hmade hlisted
  · cases h

theorem writeJournal (hclean : (lastChange id world.ledger.unwritten).isSome = true →
      .torn ∉ world.ledger.files.journal) (h : world.ledger.writeJournal = some ledger) :
    Kept id { world with ledger := ledger } := by
  unfold HeldLedger.writeJournal at h
  split at h
  · next who changes hholder =>
    cases h
    have hlocked := kept.locked
    have hunwritten : world.ledger.unwritten = changes := by simp [unwritten, hholder]
    have hflight : world.ledger.inFlight = changes := by simp [inFlight, hholder]
    rw [hunwritten] at hclean
    refine ⟨by cases who <;> simp_all [Locked], nofun, fun hrecorded =>
      (kept.last hrecorded).advance hholder rfl (fun hnone => ?_) ?_ (.inl ?_)⟩
    · rw [hflight] at hnone
      exact hnone
    · rw [hflight]
      rfl
    · show (applyChanges _ world.ledger.queued)[id]? = _
      rw [hunwritten]
      cases hlast : lastChange id changes with
      | none =>
        rw [getElem?_applyChanges_append_of_none hlast]
        refine getElem?_applyChanges_of_eq (LedgerFiles.reopened_append_of_absent ?_) _
        intro frame hframe change hchange
        simp only [List.mem_map, JournalPiece.frame.injEq, exists_eq_right] at hframe
        have hmem : change ∈ (framesOf changes).flatten := mem_flatten_of_mem hframe hchange
        rw [flatten_framesOf] at hmem
        exact lastChange_eq_none_iff.1 hlast change hmem
      | some change =>
        rw [hlast] at hclean
        rw [LedgerFiles.reopened_append_frames (hclean rfl), applyChanges_append]
  · cases h

theorem failJournal {whole : Nat} {torn : Bool}
    (hother : world.ledger.seeded = true → lastChange id world.ledger.unwritten = none)
    (h : world.ledger.failJournal whole torn = some ledger) :
    Kept id { world with ledger := ledger } := by
  unfold HeldLedger.failJournal at h
  split at h
  · next who changes hholder =>
    cases h
    have hlocked := kept.locked
    have hunwritten : world.ledger.unwritten = changes := by simp [unwritten, hholder]
    have hflight : world.ledger.inFlight = changes := by simp [inFlight, hholder]
    cases who with
    | seeder =>
      have hseeded : world.ledger.seeded = false ∧ world.ledger.marker = false := by
        simp_all [Locked]
      refine ⟨by simp [Locked, hseeded], nofun, fun _ => ?_⟩
      constructor
      · nofun
      · intro _ hsettling
        simp [Settling, hseeded] at hsettling
      · exact fun _ _ => rfl
      · nofun
      · intro _ hfollowing
        simp [Following, hseeded] at hfollowing
      · intro _ hfollowing
        simp [Following, hseeded] at hfollowing
    | caller caller =>
      have hseeded : world.ledger.seeded = true ∧ world.ledger.seeding = none ∧
          world.ledger.marker = true := by
        simp_all [Locked]
      have hnone : lastChange id changes = none := by
        rw [← hunwritten]
        exact hother hseeded.1
      refine ⟨by simp [Locked, hseeded], nofun, fun hrecorded => ?_⟩
      have last := kept.last hrecorded
      constructor
      · nofun
      · exact fun hflushed _ => last.unqueued hflushed (.inl hseeded.1)
      · exact fun _ _ => rfl
      · intro present _ hlisted
        simp [hseeded] at hlisted
      · intro hmade _
        have hmemory := last.memory hmade (.inl hseeded.1)
        rw [hflight, getElem?_applyChanges_append_of_none hnone] at hmemory
        exact hmemory
      · intro hmade _
        have hdisk := last.disk hmade (.inl hseeded.1)
        rw [hunwritten, getElem?_applyChanges_append_of_none hnone] at hdisk
        rw [← hdisk]
        exact congrArg isSome (getElem?_applyChanges_of_eq
          (LedgerFiles.reopened_append_partly hnone whole torn) _)
  · cases h

theorem install (h : world.ledger.install = some ledger) :
    Kept id { world with ledger := ledger } := by
  unfold HeldLedger.install at h
  split at h
  · next who changes hholder =>
    cases h
    have hlocked := kept.locked
    have hunwritten : world.ledger.unwritten = [] := by simp [unwritten, hholder]
    have hflight : world.ledger.inFlight = changes := by simp [inFlight, hholder]
    refine ⟨by cases who <;> simp_all [Locked], nofun, fun hrecorded =>
      (kept.last hrecorded).advance hholder rfl (fun _ => rfl) ?_ (.inl ?_)⟩
    · rw [hflight, applyChanges_append world.ledger.trie changes]
      rfl
    · rw [hunwritten]
      rfl
  · cases h

theorem publish (h : world.ledger.publish = some ledger) :
    Kept id { world with ledger := ledger } := by
  unfold HeldLedger.publish at h
  split at h
  · next who hholder =>
    cases h
    have hlocked := kept.locked
    have hunwritten : world.ledger.unwritten = [] := by simp [unwritten, hholder]
    have hflight : world.ledger.inFlight = [] := by simp [inFlight, hholder]
    refine ⟨by cases who <;> simp_all [Locked], fun _ => rfl, fun hrecorded =>
      (kept.last hrecorded).advance hholder rfl (fun _ => rfl) ?_ ?_⟩
    · rw [hflight]
      rfl
    · rw [hflight, hunwritten]
      -- The replay over the new root says of an id what the journal says, or the root.
      cases hlast : lastChange id (LedgerFiles.readable world.ledger.files.journal) with
      | none =>
        refine .inr (getElem?_applyChanges_of_eq ?_ _)
        exact getElem?_applyChanges_of_none hlast
      | some change =>
        refine .inl (getElem?_applyChanges_of_eq ?_ _)
        simp [LedgerFiles.reopened, getElem?_applyChanges, hlast]
  · cases h

theorem resetJournal (h : world.ledger.resetJournal = some ledger) :
    Kept id { world with ledger := ledger } := by
  unfold HeldLedger.resetJournal at h
  split at h
  · next who hholder =>
    cases h
    have hlocked := kept.locked
    have hflight : world.ledger.inFlight = [] := by simp [inFlight, hholder]
    refine ⟨by cases who <;> simp_all [Locked], nofun, fun hrecorded =>
      (kept.last hrecorded).advance hholder rfl (fun _ => rfl) ?_ (.inr ?_)⟩
    · rw [hflight]
      rfl
    · rw [hflight, ← kept.published hholder]
      rfl
  · cases h

theorem mark (h : world.ledger.mark = some ledger) : Kept id { world with ledger := ledger } := by
  have hlocked := kept.locked
  have hmarked : ∃ stage, world.ledger.flushing = some (.seeder, stage) ∧
      world.ledger.inFlight = [] ∧ world.ledger.unwritten = [] ∧
      ledger = { world.ledger with marker := true, flushing := some (.seeder, .marked) } := by
    unfold HeldLedger.mark at h
    split at h
    · next hholder =>
      cases h
      exact ⟨_, hholder, by simp [inFlight, hholder], by simp [unwritten, hholder], rfl⟩
    · next hholder =>
      cases h
      exact ⟨_, hholder, by simp [inFlight, hholder], by simp [unwritten, hholder], rfl⟩
    · cases h
  obtain ⟨stage, hholder, hflight, hunwritten, rfl⟩ := hmarked
  have hbuilt : world.ledger.seeded = false ∧ world.ledger.seeding = some .built := by
    cases stage <;> simp_all [Locked]
  refine ⟨by simp [Locked, hbuilt], nofun, fun hrecorded => ?_⟩
  have last := kept.last hrecorded
  have hmemory := last.memory
  have hdisk := last.disk
  rw [hflight] at hmemory
  rw [hunwritten] at hdisk
  exact ⟨nofun, fun hflushed _ => last.unqueued hflushed (.inr ⟨stage, hholder⟩), fun _ _ => rfl,
    last.listed, hmemory, hdisk⟩

theorem finishSeed (h : world.ledger.finishSeed = some ledger) :
    Kept id { world with ledger := ledger } := by
  unfold HeldLedger.finishSeed at h
  split at h
  · next hholder =>
    cases h
    have hlocked := kept.locked
    have hbuilt : world.ledger.seeding = some .built ∧ world.ledger.marker = true := by
      simp_all [Locked]
    have hunwritten : world.ledger.unwritten = [] := by simp [unwritten, hholder]
    have hflight : world.ledger.inFlight = [] := by simp [inFlight, hholder]
    refine ⟨by simp [Locked, hbuilt], nofun, fun hrecorded => ?_⟩
    have last := kept.last hrecorded
    have hmemory := last.memory
    have hdisk := last.disk
    rw [hflight] at hmemory
    rw [hunwritten] at hdisk
    exact ⟨nofun, fun hflushed _ => last.unqueued hflushed (.inr ⟨_, hholder⟩), fun _ _ => rfl,
      nofun, fun hmade _ => hmemory hmade (.inr hbuilt.1),
      fun hmade _ => hdisk hmade (.inr hbuilt.1)⟩
  · cases h

theorem step {event : LedgerEvent} {next : LedgerWorld} (h : LedgerStep world event next)
    (hkeeps : KeepsChange id ⟨world, event, next⟩) : Kept id next := by
  have hledger {ledger : Option HeldLedger} (h : world.withLedger ledger = some next)
      (hkept : ∀ found, ledger = some found → Kept id { world with ledger := found }) :
      Kept id next := by
    obtain ⟨found, hfound, rfl⟩ := map_eq_some_iff.1 h
    exact hkept found hfound
  cases event with
  | record caller other held =>
    obtain ⟨hcaller, h⟩ := guard_bind_eq_some h
    cases h
    exact kept.record hcaller
  | flush caller =>
    obtain ⟨hidle, h⟩ := guard_bind_eq_some h
    have hidle := isNone_iff_eq_none.1 hidle
    split at h
    · next hseeded =>
      cases h
      have hlocked := kept.locked
      refine kept.takeQueued hidle ?_
      unfold HeldLedger.takeQueued
      split <;> simp_all [Locked]
    · next hseeded =>
      cases h
      exact kept.returned_unseeded hidle (Bool.eq_false_iff.2 hseeded) caller
  | write => exact hledger h fun _ => kept.writeJournal hkeeps
  | writeFailed whole torn => exact hledger h fun _ => kept.failJournal hkeeps
  | install => exact hledger h fun _ => kept.install
  | publish => exact hledger h fun _ => kept.publish
  | resetJournal => exact hledger h fun _ => kept.resetJournal
  | flushed =>
    obtain ⟨⟨caller, ledger⟩, hflushed, h⟩ := bind_eq_some_iff.1 h
    cases h
    unfold HeldLedger.flushed at hflushed
    split at hflushed
    · next hholder =>
      cases hflushed
      exact kept.returned hholder (by simp [inFlight, hholder])
    · next hholder =>
      cases hflushed
      exact kept.returned hholder (by simp [inFlight, hholder])
    · cases hflushed
  | snapshot present =>
    obtain ⟨hlists, h⟩ := guard_bind_eq_some h
    exact hledger h fun _ => kept.snapshot hlists
  | replaceAll => exact hledger h fun _ => kept.replaceAll
  | lockSeed =>
    refine hledger h fun found hfound => ?_
    unfold HeldLedger.lockSeed at hfound
    split at hfound
    · next hidle hbuilt =>
      cases hfound
      have hlocked := kept.locked
      refine kept.takeQueued hidle ?_
      unfold HeldLedger.takeQueued
      split <;> simp_all [Locked]
    · cases hfound
  | mark => exact hledger h fun _ => kept.mark
  | finishSeed => exact hledger h fun _ => kept.finishSeed
  | restart whole torn =>
    cases h
    exact kept.restarted whole torn

omit kept in
theorem run {trace : List (Transition LedgerWorld LedgerEvent)}
    (run : Run (Traced LedgerStep) {} trace world)
    (hkeeps : Always (fun _ t => KeepsChange id t) trace) : Kept id world :=
  run.invariant_of_always hkeeps (start id) fun _ _ _ hstep inv hlast =>
    inv.step hstep hlast

theorem remembers : world.Remembers id := by
  intro change hrecorded hflushed hseeded
  have last := kept.last hrecorded
  have hmade : change.made = true := by simp [Recorded.made, hflushed]
  have hqueued := last.unqueued hflushed (.inl hseeded)
  have htaken := last.untaken hflushed hseeded
  have hunwritten := lastChange_unwritten htaken
  have hmarker : world.ledger.marker = true := by
    have hlocked := kept.locked
    unfold Locked at hlocked
    split at hlocked <;> simp_all
  have hmemory := last.memory hmade (.inl hseeded)
  have hdisk := last.disk hmade (.inl hseeded)
  rw [getElem?_applyChanges_append_of_none htaken, getElem?_applyChanges_of_none hqueued] at hmemory
  rw [getElem?_applyChanges_append_of_none hunwritten,
    getElem?_applyChanges_of_none hqueued] at hdisk
  refine ⟨by rw [held, if_pos hseeded, hmemory], fun whole torn => ?_⟩
  rw [held, if_pos (show (world.ledger.restarted whole torn).seeded = true from hmarker), ← hdisk]
  exact congrArg (some ·.isSome) (LedgerFiles.reopened_append_partly hunwritten whole torn)

end Kept

/-- Along every run in which no journal write drops a change of the id, its last
change lasts once the flush of its caller has returned. -/
theorem held_ledger_keeps_changes {trace : List (Transition LedgerWorld LedgerEvent)}
    {world : LedgerWorld} (run : Run (Traced LedgerStep) {} trace world) (id : LedgerId)
    (hkeeps : Always (fun _ t => KeepsChange id t) trace) : world.Remembers id :=
  (Kept.run run hkeeps).remembers

namespace SharedFlush

def object : LedgerId := ⟨replicate 32 1, rfl⟩

def neighbour : LedgerId := ⟨replicate 32 2, rfl⟩

def seed : List LedgerEvent := [.snapshot [], .replaceAll, .lockSeed, .mark, .finishSeed]

/-- One caller records; another's flush takes the change and fails to journal
it; the flush of the first finds nothing queued and returns. -/
def events : List LedgerEvent :=
  seed ++ [.record 1 object true, .flush 2, .writeFailed 0 false, .flush 1, .flushed]

def last : LedgerWorld := (events.foldlM LedgerWorld.step {}).getD {}

theorem possible : (events.foldlM LedgerWorld.step {}).isSome = true := by decide +kernel

theorem recorded_last : last.recorded[object]?.map (fun change => (change.held, change.flushed)) =
    some (true, true) ∧ last.ledger.seeded = true ∧ last.ledger.held object = some false := by
  decide +kernel

/-- A change is lost that its caller flushed. -/
theorem flushed_change_lost : ∃ trace, Run (Traced LedgerStep) {} trace last ∧
    trace.map (·.event) = events ∧ ¬ last.Remembers object := by
  obtain ⟨trace, run, hevents⟩ := exists_run_last possible (rfl : _ = last)
  refine ⟨trace, run, hevents, fun hremembers => ?_⟩
  obtain ⟨hrecorded, hseeded, hheld⟩ := recorded_last
  obtain ⟨change, hchange, heq⟩ := map_eq_some_iff.1 hrecorded
  simp only [Prod.mk.injEq] at heq
  have hanswer := (hremembers change hchange heq.2 hseeded).1
  rw [hheld, heq.1] at hanswer
  cases hanswer

end SharedFlush

namespace OwnFlush

open SharedFlush (object neighbour)

/-- The seed of a store that holds `neighbour`, a change recorded before it takes its
lock and flushed by its caller; then a flush of `neighbour` that fails, and a crash in the
middle of another. -/
def events : List LedgerEvent :=
  [.snapshot [neighbour], .record 1 object true, .replaceAll, .flush 1, .lockSeed, .write, .install,
    .mark, .finishSeed, .record 2 neighbour false, .flush 2, .writeFailed 0 true,
    .record 2 neighbour false, .flush 2, .restart 0 true]

theorem possible : (events.foldlM (checkedStep LedgerWorld.step (KeepsChange object)) {}).map
      (fun world : LedgerWorld => (world.recorded[object]?.map (·.flushed), world.ledger.seeded)) =
        some (some true, true) := by
  decide +kernel

theorem change_survives_restart : ∃ trace world, Run (Traced LedgerStep) {} trace world ∧
    trace.map (·.event) = events ∧ Always (fun _ t => KeepsChange object t) trace ∧
    world.recorded[object]?.map (·.flushed) = some true ∧ world.ledger.seeded = true ∧
    world.Remembers object := by
  obtain ⟨world, hworld, hends⟩ := map_eq_some_iff.1 possible
  obtain ⟨trace, run, hkeeps, hevents⟩ := exists_checked_run hworld
  simp only [Prod.mk.injEq] at hends
  exact ⟨trace, world, run, hevents, hkeeps, hends.1, hends.2,
    held_ledger_keeps_changes run object hkeeps⟩

end OwnFlush

end Macha
