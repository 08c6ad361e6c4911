import Macha.Storage.RetentionJournal

/-!
# Crashes of the retention store

The store as a machine: the tries in memory, the tries as they were last saved,
and `claims.log`. A checkpoint saves the two tries one after the other and then
empties the log, and a crash may come at any of these points. A start loads the
saved tries and replays the log over them.
-/

namespace Macha

open List

namespace ClassLedger

/-- The first locked part of `prune_unclaimed`: records without a claim among the
next ones from the cursor, less those the store still has. -/
def pickUnclaimed (ledger : ClassLedger) (isStored : ObjectId → Bool) (budget : Nat) :
    List ObjectId × ClassLedger :=
  if budget = 0 then ([], ledger)
  else if ledger.trie.isEmpty then ([], { ledger with pruneAfter := none })
  else
    let visited := (scanOrder ledger.trie ledger.pruneAfter).take budget
    let unclaimed := (visited.filter fun item => !item.2.claimed).map (·.1)
    (unclaimed.filter fun id => !isStored id,
      { ledger with pruneAfter := (visited.getLast?.map (·.1)).or ledger.pruneAfter })

/-- The second one erases what is still unclaimed. -/
def pruneUnclaimed (ledger : ClassLedger) (ids : List ObjectId) : ClassLedger :=
  let trie := ledger.trie.prune ids
  { ledger with
    trie
    pruneAfter := if trie.isEmpty then none else ledger.pruneAfter }

theorem pickUnclaimed_trie (ledger : ClassLedger) (isStored : ObjectId → Bool) (budget : Nat) :
    (ledger.pickUnclaimed isStored budget).2.trie = ledger.trie := by
  unfold pickUnclaimed
  split
  · rfl
  · split
    · rfl
    · rfl

end ClassLedger

/-- How far `checkpoint_locked` has come. -/
inductive CheckpointStage
  | idle
  | dataSaved
  | controlSaved
deriving DecidableEq

/-- The store with what it has on disk. The last two fields are history: no step
reads them. -/
structure RetentionNode where
  store : RetentionStore := {}
  saved : RetentionTries := fun _ => ∅
  log : List JournalOp := []
  stage : CheckpointStage := .idle
  /-- Calls of `prune_unclaimed` between their two parts. -/
  picked : List (RetentionClass × List ObjectId) := []
  /-- Every operation ever journalled. -/
  journalled : List JournalOp := []
  /-- How many frames of the log the saved trie has in it. -/
  included : RetentionClass → Nat := fun _ => 0

inductive RetentionEvent
  /-- One frame of `retain_batch`. -/
  | retain (type : RetentionClass) (ids : List ObjectId) (dot : RetentionDot)
  | release (type : RetentionClass) (live : ObjectId → Bool) (observed : VersionClock)
      (budget : Nat)
  | pick (type : RetentionClass) (isStored : ObjectId → Bool) (budget : Nat)
  /-- The call that picked at this place goes on. -/
  | prune (call : Nat)
  | saveData
  | saveControl
  | emptyLog
  /-- The checkpoint throws. -/
  | abandon
  /-- The process ends here and the store is loaded again. -/
  | restart

namespace RetentionNode

/-- The frame is in the log and its change in the tries. A crash between the two
leaves what one after both does: the tries in memory are gone. -/
def journal (node : RetentionNode) (op : JournalOp) (store : RetentionStore) : RetentionNode :=
  { node with store, log := node.log ++ [op], journalled := node.journalled ++ [op] }

def save (node : RetentionNode) (type : RetentionClass) (stage : CheckpointStage) : RetentionNode :=
  { node with
    saved := Function.update node.saved type (node.store.classFor type).trie
    included := Function.update node.included type node.log.length
    stage }

def load (node : RetentionNode) : RetentionStore where
  data := { trie := replayLog node.log node.saved .data }
  control := { trie := replayLog node.log node.saved .control }

/-- One step of the store; the calls hold the lock, so none runs inside a checkpoint. -/
def step (node : RetentionNode) : RetentionEvent → Option RetentionNode
  | .retain type ids dot => do
    guard (node.stage = .idle ∧ ids ≠ [])
    let store ← node.store.call (.retainBatch type ids dot)
    some (node.journal (.add type dot ids) store)
  | .release type live observed budget => do
    guard (node.stage = .idle)
    let store ← node.store.call (.releaseUnreferenced type live observed budget)
    let ids := (node.store.classFor type).released live observed budget
    if ids.isEmpty then some { node with store }
    else some (node.journal (.release type (ClassLedger.encodedClock observed) ids) store)
  | .pick type isStored budget => do
    guard (node.stage = .idle)
    let (ids, ledger) := (node.store.classFor type).pickUnclaimed isStored budget
    some { node with
      store := node.store.setClass type ledger
      picked := if ids.isEmpty then node.picked else node.picked ++ [(type, ids)] }
  | .prune call => do
    guard (node.stage = .idle)
    let (type, ids) ← node.picked[call]?
    let store := node.store.setClass type ((node.store.classFor type).pruneUnclaimed ids)
    some { node.journal (.prune type ids) store with picked := node.picked.eraseIdx call }
  | .saveData => do
    guard (node.stage = .idle)
    some (node.save .data .dataSaved)
  | .saveControl => do
    guard (node.stage = .dataSaved)
    some (node.save .control .controlSaved)
  | .emptyLog => do
    guard (node.stage = .controlSaved)
    some { node with log := [], included := fun _ => 0, stage := .idle }
  | .abandon => some { node with stage := .idle }
  | .restart => some { node with store := node.load, stage := .idle, picked := [] }

end RetentionNode

abbrev RetentionStep := Computes RetentionNode.step

/-! ## What the disk has -/

namespace RetentionNode

def tries (node : RetentionNode) : RetentionTries := fun type => (node.store.classFor type).trie

def savedPart (node : RetentionNode) (type : RetentionClass) : List JournalOp :=
  node.log.take (node.included type)

/-- Memory is the journalled operations applied once, and each saved trie is the
operations up to a frame of the log. -/
structure Accounts (node : RetentionNode) : Prop where
  tries : node.tries = replayLog node.journalled fun _ => ∅
  saved : ∃ earlier, node.journalled = earlier ++ node.log ∧
    ∀ type, node.saved type = replayLog (earlier ++ node.savedPart type) (fun _ => ∅) type
  dataSaved : node.stage ≠ .idle → node.included .data = node.log.length
  controlSaved : node.stage = .controlSaved → node.included .control = node.log.length
  included : ∀ type, node.included type ≤ node.log.length
  fits : ∀ type id, LogFits type id node.journalled none

variable {node next : RetentionNode} {store : RetentionStore}
  {picked : List (RetentionClass × List ObjectId)}

theorem Accounts.journal (inv : node.Accounts) (hidle : node.stage = .idle) {op : JournalOp}
    (htries : ∀ type, (store.classFor type).trie = op.apply node.tries type)
    (hfits : ∀ type id, FitsRecord type id op (node.tries type)[id]?) :
    Accounts { node.journal op store with picked } := by
  obtain ⟨earlier, hjournalled, hsaved⟩ := inv.saved
  refine ⟨?_, ⟨earlier, ?_, fun type => ?_⟩, fun h => absurd hidle h, fun h => ?_, fun type => ?_,
    fun type id => ?_⟩
  · show (fun type => (store.classFor type).trie) = replayLog (node.journalled ++ [op]) _
    rw [replayLog_append, ← inv.tries]
    exact funext htries
  · show node.journalled ++ [op] = earlier ++ (node.log ++ [op])
    rw [hjournalled, append_assoc]
  · show node.saved type =
      replayLog (earlier ++ (node.log ++ [op]).take (node.included type)) _ type
    rw [take_append_of_le_length (inv.included type)]
    exact hsaved type
  · have hstage : node.stage = .controlSaved := h
    rw [hidle] at hstage
    cases hstage
  · show node.included type ≤ (node.log ++ [op]).length
    rw [length_append]
    exact Nat.le_add_right_of_le (inv.included type)
  · refine (inv.fits type id).snoc ?_
    have hrecord := hfits type id
    rw [inv.tries, replayLog_getElem?] at hrecord
    exact hrecord

theorem Accounts.cursors (inv : node.Accounts)
    (htries : ∀ type, (store.classFor type).trie = node.tries type) :
    Accounts { node with store, picked } :=
  ⟨(funext htries).trans inv.tries, inv.saved, inv.dataSaved, inv.controlSaved, inv.included,
    inv.fits⟩

theorem Accounts.save (inv : node.Accounts) (type : RetentionClass) (stage : CheckpointStage)
    (hdata : type = .data ∨ node.included .data = node.log.length)
    (hcontrol : stage = .controlSaved → type = .control) : (node.save type stage).Accounts := by
  have hincluded : ∀ other, (node.save type stage).included other =
      if other = type then node.log.length else node.included other :=
    fun other => Function.update_apply _ _ _ _
  obtain ⟨earlier, hjournalled, hsaved⟩ := inv.saved
  refine ⟨inv.tries, ⟨earlier, hjournalled, fun other => ?_⟩, fun _ => ?_, fun h => ?_,
    fun other => ?_, inv.fits⟩
  · unfold savedPart
    rw [hincluded]
    show Function.update node.saved type (node.tries type) other = replayLog (earlier ++
      node.log.take _) _ other
    by_cases hother : other = type
    · subst hother
      rw [if_pos rfl, Function.update_self, take_length, ← hjournalled, inv.tries]
    · rw [if_neg hother, Function.update_of_ne hother]
      exact hsaved other
  · rw [hincluded]
    split
    · rfl
    · next hne =>
      rcases hdata with rfl | hlength
      · exact absurd rfl hne
      · exact hlength
  · rw [hincluded, if_pos (hcontrol h).symm]
    rfl
  · rw [hincluded]
    split
    · exact Nat.le_refl _
    · exact inv.included other

theorem Accounts.emptyLog (inv : node.Accounts) (hstage : node.stage = .controlSaved) :
    Accounts { node with log := [], included := fun _ => 0, stage := .idle } := by
  obtain ⟨earlier, hjournalled, hsaved⟩ := inv.saved
  refine ⟨inv.tries, ⟨node.journalled, (append_nil _).symm, fun type => ?_⟩,
    fun h => absurd rfl h, nofun, fun _ => Nat.le_refl _, inv.fits⟩
  have hall : node.savedPart type = node.log := by
    unfold savedPart
    cases type with
    | data =>
      rw [inv.dataSaved (by rw [hstage]; nofun)]
      exact take_length
    | control =>
      rw [inv.controlSaved hstage]
      exact take_length
  have hsame := hsaved type
  rw [hall, ← hjournalled] at hsame
  show node.saved type = replayLog (node.journalled ++ List.take 0 []) _ type
  rw [take_zero, append_nil]
  exact hsame

end RetentionNode

/-- Replaying the part of the log a saved trie has in it does no harm: it does not
prune the object, or the object was forgotten and the part releases every claim on
it that it makes. -/
def ReplayHarmless (t : Transition RetentionNode RetentionEvent) : Prop :=
  t.event = .restart → ∀ type (id : ObjectId),
    (∀ op ∈ t.before.savedPart type, ¬ op.Prunes type id) ∨
      (t.before.saved type)[id]? = none ∧ ClaimsReleased type id (t.before.savedPart type)

/-- A load yields the journalled operations applied once, in order. -/
def LoadsOnce (t : Transition RetentionNode RetentionEvent) : Prop :=
  t.event = .restart → t.after.tries = replayLog t.before.journalled fun _ => ∅

open RetentionNode

theorem load_tries (node : RetentionNode) (type : RetentionClass) :
    (node.load.classFor type).trie = replayLog node.log node.saved type := by
  cases type <;> rfl

theorem Accounts.load {node next : RetentionNode} (inv : node.Accounts)
    (harmless : ReplayHarmless ⟨node, .restart, next⟩) :
    (fun type => (node.load.classFor type).trie) = replayLog node.journalled fun _ => ∅ := by
  obtain ⟨earlier, hjournalled, hsaved⟩ := inv.saved
  refine tries_ext fun type id => ?_
  have hfits := inv.fits type id
  have hlog : node.log = node.savedPart type ++ node.log.drop (node.included type) :=
    (take_append_drop _ _).symm
  have hnothing : ((fun _ => ∅ : RetentionTries) type)[id]? = none :=
    Std.ExtTreeMap.getElem?_empty
  have hrecord : (node.saved type)[id]? =
      replayRecord type id (node.savedPart type) (replayRecord type id earlier none) := by
    rw [hsaved, replayLog_getElem?, hnothing, replayRecord_append]
  have hsound : ∀ s ∈ replayRecord type id earlier none, s.Sound :=
    replayRecord_sound nofun
  have hagain : replayRecord type id (node.savedPart type) (node.saved type)[id]? =
      (node.saved type)[id]? := by
    have hpart : LogFits type id (node.savedPart type) (replayRecord type id earlier none) := by
      rw [hjournalled] at hfits
      have htail := hfits.append_right
      rw [hlog] at htail
      exact htail.of_append
    rcases harmless rfl type id with hprune | ⟨hnone, hreleased⟩
    · rw [hrecord]
      exact replay_again_of_no_prune hsound hpart hprune
    · have hforgotten : (node.saved type)[id]? = none := hnone
      rw [hforgotten]
      exact replay_again_of_forgotten hsound hpart (hrecord.symm.trans hforgotten) hreleased
  rw [load_tries, replayLog_getElem?, replayLog_getElem?, hnothing, hjournalled,
    replayRecord_append]
  conv_lhs => rw [hlog, replayRecord_append, hagain, hrecord]
  conv_rhs => rw [hlog, replayRecord_append]

section

variable {node next : RetentionNode} {type : RetentionClass}

section

variable (inv : node.Accounts)

include inv

theorem accounts_retain {ids : List ObjectId} {dot : RetentionDot}
    (h : RetentionStep node (.retain type ids dot) next) : next.Accounts := by
  obtain ⟨_, hguard, h⟩ := Option.bind_eq_some_iff.1 h
  obtain ⟨store, hcall, h⟩ := Option.bind_eq_some_iff.1 h
  cases h
  have hdot : dot.origin ≠ 0 ∧ dot.sequence ≠ 0 := by
    obtain ⟨trie, htrie, -⟩ := Option.bind_eq_some_iff.1 hcall
    unfold RetentionLedger.retainBatch at htrie
    split at htrie
    · cases htrie
    · next hvalid =>
      push Not at hvalid
      exact hvalid
  have hstep : RetentionStore.ClaimCallStep node.store (.retainBatch type ids dot) store := by
    unfold RetentionStore.ClaimCallStep
    rw [hcall]
    rfl
  refine Accounts.journal inv (guard_eq_some hguard).1 (fun other => OrdMap.ext fun id => ?_)
    fun other id _ _ => hdot.2
  rw [JournalOp.apply_getElem?]
  exact RetentionStore.record_retainBatch hstep hdot other id

theorem accounts_release {live : ObjectId → Bool} {observed : VersionClock} {budget : Nat}
    (h : RetentionStep node (.release type live observed budget) next) : next.Accounts := by
  obtain ⟨_, hguard, h⟩ := Option.bind_eq_some_iff.1 h
  obtain ⟨store, hcall, h⟩ := Option.bind_eq_some_iff.1 h
  have hstep : RetentionStore.ClaimCallStep node.store
      (.releaseUnreferenced type live observed budget) store := by
    unfold RetentionStore.ClaimCallStep
    rw [hcall]
    rfl
  dsimp only at h
  split at h
  · next hempty =>
    cases h
    refine Accounts.cursors inv fun other => OrdMap.ext fun id => ?_
    have hrecord := RetentionStore.record_release hstep other id
    rw [List.isEmpty_iff.1 hempty, if_neg fun hboth => absurd hboth.2 not_mem_nil] at hrecord
    exact hrecord
  · cases h
    refine Accounts.journal inv (guard_eq_some hguard) (fun other => OrdMap.ext fun id => ?_)
      fun other id htype hid => ?_
    · rw [JournalOp.apply_getElem?]
      exact RetentionStore.record_release hstep other id
    · subst htype
      obtain ⟨-, s, hs, -⟩ := ClassLedger.claimed_of_released hid
      exact Option.isSome_iff_exists.2 ⟨s, hs⟩

theorem accounts_pick {isStored : ObjectId → Bool} {budget : Nat}
    (h : RetentionStep node (.pick type isStored budget) next) : next.Accounts := by
  obtain ⟨_, -, h⟩ := Option.bind_eq_some_iff.1 h
  cases h
  refine Accounts.cursors inv fun other => ?_
  rw [RetentionStore.classFor_setClass]
  split
  · next heq =>
    subst heq
    exact ClassLedger.pickUnclaimed_trie _ _ _
  · rfl

theorem accounts_prune {call : Nat} (h : RetentionStep node (.prune call) next) :
    next.Accounts := by
  obtain ⟨_, hguard, h⟩ := Option.bind_eq_some_iff.1 h
  obtain ⟨⟨type, ids⟩, -, h⟩ := Option.bind_eq_some_iff.1 h
  cases h
  refine Accounts.journal inv (guard_eq_some hguard) (fun other => ?_) fun _ _ => trivial
  rw [RetentionStore.classFor_setClass]
  show _ = Function.update node.tries type _ other
  split
  · next heq =>
    subst heq
    rw [Function.update_self]
    rfl
  · next hne => rw [Function.update_of_ne (Ne.symm hne)]; rfl

theorem accounts_of_step {event : RetentionEvent} (h : RetentionStep node event next)
    (harmless : ReplayHarmless ⟨node, event, next⟩) : next.Accounts := by
  cases event with
  | retain type ids dot => exact accounts_retain inv h
  | release type live observed budget => exact accounts_release inv h
  | pick type isStored budget => exact accounts_pick inv h
  | prune call => exact accounts_prune inv h
  | saveData =>
    obtain ⟨_, -, h⟩ := Option.bind_eq_some_iff.1 h
    cases h
    exact Accounts.save inv .data .dataSaved (.inl rfl) nofun
  | saveControl =>
    obtain ⟨_, hguard, h⟩ := Option.bind_eq_some_iff.1 h
    cases h
    have hstage := guard_eq_some hguard
    refine Accounts.save inv .control .controlSaved (.inr (inv.dataSaved ?_)) fun _ => rfl
    rw [hstage]
    nofun
  | emptyLog =>
    obtain ⟨_, hguard, h⟩ := Option.bind_eq_some_iff.1 h
    cases h
    exact Accounts.emptyLog inv (guard_eq_some hguard)
  | abandon =>
    cases h
    exact ⟨inv.tries, inv.saved, fun hne => absurd rfl hne, nofun, inv.included, inv.fits⟩
  | restart =>
    cases h
    exact ⟨Accounts.load inv harmless, inv.saved, fun hne => absurd rfl hne, nofun,
      inv.included, inv.fits⟩

theorem loadsOnce_of_step {event : RetentionEvent} (h : RetentionStep node event next)
    (harmless : ReplayHarmless ⟨node, event, next⟩) : LoadsOnce ⟨node, event, next⟩ := by
  intro hevent
  have hevent : event = .restart := hevent
  subst hevent
  cases h
  exact Accounts.load inv harmless

end

end

theorem accounts_start : RetentionNode.Accounts {} :=
  ⟨funext fun type => by cases type <;> rfl, ⟨[], rfl, fun _ => rfl⟩, fun h => absurd rfl h,
    nofun, fun _ => Nat.le_refl _, fun type id before op after h => by
      cases before <;> cases h⟩

theorem Run.accounts {events : List (Transition RetentionNode RetentionEvent)}
    {last : RetentionNode} (run : Run (Traced RetentionStep) {} events last)
    (harmless : Always (fun _ t => ReplayHarmless t) events) :
    last.Accounts ∧ Always (fun _ t => LoadsOnce t) events := by
  induction run with
  | refl => exact ⟨accounts_start, always_nil _⟩
  | @snoc events node next event run hstep ih =>
    obtain ⟨before, event, after⟩ := event
    obtain ⟨hstep, rfl, rfl⟩ := hstep
    obtain ⟨hpast, hlast⟩ := always_snoc.1 harmless
    obtain ⟨inv, hloads⟩ := ih hpast
    exact ⟨accounts_of_step inv hstep hlast,
      always_snoc.2 ⟨hloads, loadsOnce_of_step inv hstep hlast⟩⟩

/-- Over any run with crashes anywhere, every load yields for both classes the
journalled operations applied once, as long as what each saved trie already has of
the log forgets no object, or forgets it for good. -/
theorem retention_recovers {events : List (Transition RetentionNode RetentionEvent)}
    {last : RetentionNode} (run : Run (Traced RetentionStep) {} events last)
    (harmless : Always (fun _ t => ReplayHarmless t) events) :
    Always (fun _ t => LoadsOnce t) events :=
  (run.accounts harmless).2

namespace PrunedAndClaimedAgain

def object : ObjectId := [1]

def seen : VersionClock := (∅ : VersionClock).insert 1 5

/-- The object is claimed, released, pruned and claimed again; then a checkpoint
saves the data trie and the process ends. -/
def calls : List RetentionEvent :=
  [.retain .data [object] ⟨1, 5⟩, .release .data (fun _ => false) seen 8,
    .pick .data (fun _ => false) 8, .prune 0, .retain .data [object] ⟨2, 1⟩,
    .retain .data [object] ⟨1, 3⟩, .saveData]

def crashed : RetentionNode := (calls.foldlM RetentionNode.step {}).getD {}

def reloaded : RetentionNode := (crashed.step .restart).getD {}

def standsTo (tries : RetentionTries) : Nat :=
  ((tries .data).getD object {}).addedTo 1

theorem possible : (calls.foldlM RetentionNode.step {}).isSome = true := by decide +kernel

theorem once : standsTo (replayLog crashed.journalled fun _ => ∅) = 3 := by decide +kernel

theorem again : standsTo reloaded.tries = 0 := by decide +kernel

/-- The claim was journalled and no release followed it, yet the load forgets it:
the replay applies the old release to the saved trie, where the new claim already is. -/
theorem load_loses_claim : ∃ trace last, Run (Traced RetentionStep) {} trace last ∧
      trace.map (·.event) = calls ++ [.restart] ∧ standsTo last.tries = 0 ∧
        ¬ Always (fun _ t => LoadsOnce t) trace := by
  obtain ⟨trace, run, hevents⟩ := exists_run_last possible (rfl : _ = crashed)
  have hrestart : RetentionStep crashed .restart reloaded := rfl
  refine ⟨_, reloaded, run.trace_snoc hrestart, ?_, again, fun hlaw => ?_⟩
  · rw [map_append, hevents]
    rfl
  · have hloads : reloaded.tries = replayLog crashed.journalled fun _ => ∅ :=
      (always_snoc.1 hlaw).2 rfl
    have hzero := again
    rw [hloads, once] at hzero
    cases hzero

end PrunedAndClaimedAgain

namespace SavedByHalf

def object : ObjectId := [1]

def claim : RetentionEvent := .retain .data [object] ⟨1, 4⟩

def claimed : RetentionNode := (RetentionNode.step {} claim).getD {}

/-- The data trie is saved and the log is not emptied. -/
def saved : RetentionNode := (claimed.step .saveData).getD {}

def reloaded : RetentionNode := (saved.step .restart).getD {}

def trace : List (Transition RetentionNode RetentionEvent) :=
  [⟨{}, claim, claimed⟩, ⟨claimed, .saveData, saved⟩, ⟨saved, .restart, reloaded⟩]

theorem harmless : Always (fun _ t => ReplayHarmless t) trace := by
  intro past t hpast hrestart type id
  have hmem : t ∈ trace := hpast.subset (mem_append_right _ mem_cons_self)
  simp only [trace, mem_cons, not_mem_nil, or_false] at hmem
  rcases hmem with rfl | rfl | rfl
  · cases hrestart
  · cases hrestart
  · left
    intro op hop
    have hlog : op ∈ [JournalOp.add .data ⟨1, 4⟩ [object]] := mem_of_mem_take hop
    rw [mem_singleton.1 hlog]
    exact False.elim

/-- The log is replayed over a trie that has it; the claim is there once. -/
theorem half_saved_recovers :
    Always (fun _ t => LoadsOnce t) trace ∧ reloaded.store.retained .data object = true := by
  have run : Run (Traced RetentionStep) {} trace reloaded :=
    ((Run.refl.trace_snoc rfl).trace_snoc rfl).trace_snoc rfl
  exact ⟨retention_recovers run harmless, by decide +kernel⟩

end SavedByHalf

end Macha
