import Macha.Library.Run
import Macha.Metadata.Types

/-!
# This node as an author of mutations

`reserve_mutation_dot` and `note_author_accepted` with the files they keep:
the author record and the marker of a replaced head set. The highest sequence
handed out is written before a dot is returned. The highest one accepted is
only in memory until the next reservation, so a restart may forget it.
-/

namespace Macha

open List Option

/-! ## The author record -/

/-- `std::numeric_limits<uint64_t>::max()`. -/
def sequenceMax : Nat := 2 ^ 64 - 1

def pastAuthorsKept : Nat := 64

structure Author where
  id : NodeId := 0
  reserved : Nat := 0
  accepted : Nat := 0
  past : List NodeId := []
deriving DecidableEq, Repr

namespace Author

def observed (author : Author) (headClock : VersionClock) : Nat := headClock.getD author.id 0

/-- The author of a node without a record: a new one when a head says that the
node has authored before. -/
def first (nodeId : NodeId) (headClock : VersionClock) (random : NodeId) : Author :=
  if headClock.contains nodeId then { id := random, past := if random = nodeId then [] else [nodeId] }
  else { id := nodeId }

/-- `rotate_author_locked`. -/
def rotate (author : Author) (random : NodeId) : Author :=
  { id := random, past := (author.id :: author.past).take pastAuthorsKept }

/-- The author the chain goes on with: a new one when the head set was replaced
or the head lacks a mutation known to be accepted. -/
def continued (author : Author) (marked : Bool) (headClock : VersionClock) (random : NodeId) :
    Author :=
  if marked then author.rotate random
  else if author.observed headClock < author.accepted then author.rotate random
  else author

/-- The next sequence reserved; nothing when the sequences are exhausted. -/
def reserveNext (author : Author) (headClock : VersionClock) : Option Author :=
  let floor := max author.reserved (author.observed headClock)
  if floor = sequenceMax then none else some { author with reserved := floor + 1 }

def dot (author : Author) : MetadataDot := ⟨author.id, author.reserved⟩

def noteAccepted (author : Author) (dot : MetadataDot) : Author :=
  if dot.author = author.id then { author with accepted := max author.accepted dot.sequence }
  else author

end Author

/-- The author's part of a replica: two files, and the record in memory once it
is loaded. -/
structure AuthorState where
  authorFile : Option Author := none
  authorChainBroken : Bool := false
  author : Option Author := none
deriving DecidableEq, Repr

/-- The record `load_author_locked` leaves in memory. -/
def AuthorState.loaded (s : AuthorState) (nodeId : NodeId) (headClock : VersionClock)
    (random : NodeId) : Author :=
  (s.author.or s.authorFile).getD (Author.first nodeId headClock random)

/-- The file after `load_author_locked`: written when there was none. -/
def AuthorState.loadedFile (s : AuthorState) (nodeId : NodeId) (headClock : VersionClock)
    (random : NodeId) : Option Author :=
  if s.author.isSome then s.authorFile
  else some (s.authorFile.getD (Author.first nodeId headClock random))

/-- The record `reserve_mutation_dot` writes and returns the dot of. -/
def AuthorState.reserve (s : AuthorState) (nodeId : NodeId) (headClock : VersionClock)
    (random random' : NodeId) : Option Author :=
  ((s.loaded nodeId headClock random).continued s.authorChainBroken headClock random').reserveNext
    headClock

/-- The replica with what is known of its past: the random ids drawn, and the
dots returned. -/
structure AuthorWorld where
  state : AuthorState := {}
  used : List NodeId
  returned : List MetadataDot := []

inductive AuthorEvent where
  /-- A dot returned for a head with this clock; the record and the marker are
  those before. -/
  | reserved (dot : MetadataDot) (headClock : VersionClock) (record : Author) (marked : Bool)
  /-- The commit of a dot accepted. -/
  | accepted (dot : MetadataDot)
  | other
deriving DecidableEq

/-- One step of a node. Any clock may be given to a reservation: the head set
may have been replaced or lost a head since the last. -/
inductive AuthorStep (nodeId : NodeId) : AuthorWorld → AuthorEvent → AuthorWorld → Prop
  /-- The marker of a replaced head set goes, unless removing it fails. -/
  | reserve {w : AuthorWorld} {headClock : VersionClock} {random random' : NodeId}
      {author : Author} {broken : Bool} (hfresh : random ∉ w.used)
      (hfresh' : random' ∉ random :: w.used)
      (hreserve : w.state.reserve nodeId headClock random random' = some author)
      (hbroken : broken → w.state.authorChainBroken) :
      AuthorStep nodeId w
        (.reserved author.dot headClock (w.state.loaded nodeId headClock random)
          w.state.authorChainBroken)
        { state := ⟨some author, broken, some author⟩
          used := random' :: random :: w.used
          returned := author.dot :: w.returned }
  /-- A crash after the record is written, before the dot is returned. -/
  | reserveLost {w : AuthorWorld} {headClock : VersionClock} {random random' : NodeId}
      {author : Author} {broken : Bool} (hfresh : random ∉ w.used)
      (hfresh' : random' ∉ random :: w.used)
      (hreserve : w.state.reserve nodeId headClock random random' = some author)
      (hbroken : broken → w.state.authorChainBroken) :
      AuthorStep nodeId w .other
        { w with state := ⟨some author, broken, none⟩, used := random' :: random :: w.used }
  /-- A reservation that throws as the sequences are exhausted. -/
  | exhausted {w : AuthorWorld} {headClock : VersionClock} {random random' : NodeId}
      (hfresh : random ∉ w.used) (hfresh' : random' ∉ random :: w.used)
      (hreserve : w.state.reserve nodeId headClock random random' = none) :
      AuthorStep nodeId w .other
        { w with
          state := ⟨w.state.loadedFile nodeId headClock random, w.state.authorChainBroken,
            some ((w.state.loaded nodeId headClock random).continued w.state.authorChainBroken
              headClock random')⟩
          used := random' :: random :: w.used }
  /-- A reservation that throws as the record cannot be written: the file is
  still the one before, or already replaced. -/
  | writeFails {w : AuthorWorld} {headClock : VersionClock} {random random' : NodeId}
      {author : Author} {file : Option Author} (hfresh : random ∉ w.used)
      (hfresh' : random' ∉ random :: w.used)
      (hreserve : w.state.reserve nodeId headClock random random' = some author)
      (hfile : file = w.state.loadedFile nodeId headClock random ∨ file = some author) :
      AuthorStep nodeId w .other
        { w with
          state := ⟨file, w.state.authorChainBroken, some author⟩
          used := random' :: random :: w.used }
  /-- `author_ids` loads the record only. -/
  | load {w : AuthorWorld} {headClock : VersionClock} {random : NodeId}
      (hfresh : random ∉ w.used) :
      AuthorStep nodeId w .other
        { w with
          state := ⟨w.state.loadedFile nodeId headClock random, w.state.authorChainBroken,
            some (w.state.loaded nodeId headClock random)⟩
          used := random :: w.used }
  /-- The first record cannot be written. -/
  | loadFails {w : AuthorWorld} {headClock : VersionClock} {random : NodeId}
      (hfresh : random ∉ w.used) (hfile : w.state.authorFile = none)
      (hauthor : w.state.author = none) :
      AuthorStep nodeId w .other
        { w with
          state := { w.state with author := some (Author.first nodeId headClock random) }
          used := random :: w.used }
  /-- The commit of a dot is accepted. -/
  | accept {w : AuthorWorld} {dot : MetadataDot} (hdot : dot ∈ w.returned) :
      AuthorStep nodeId w (.accepted dot)
        { w with state := { w.state with author := w.state.author.map (·.noteAccepted dot) } }
  | crash {w : AuthorWorld} :
      AuthorStep nodeId w .other { w with state := { w.state with author := none } }
  /-- A restart that recovers from a seed marks the chain as broken. -/
  | replaceHeads {w : AuthorWorld} :
      AuthorStep nodeId w .other
        { w with state := { w.state with authorChainBroken := true, author := none } }

/-- A node that has never authored here. -/
def AuthorWorld.initial (nodeId : NodeId) (broken : Bool) : AuthorWorld :=
  { state := { authorChainBroken := broken }, used := [nodeId] }

/-- The record knows every dot returned under its id. -/
def AuthorWorld.Knows (w : AuthorWorld) (author : Author) : Prop :=
  author.id ∈ w.used ∧ ∀ dot ∈ w.returned, dot.author = author.id → dot.sequence ≤ author.reserved

def AuthorEvent.dot? : AuthorEvent → Option MetadataDot
  | .reserved dot _ _ _ => some dot
  | _ => none

def returnedDots (events : List AuthorEvent) : List MetadataDot := events.filterMap AuthorEvent.dot?

structure AuthorInvariant (nodeId : NodeId) (past : List AuthorEvent) (w : AuthorWorld) : Prop where
  node : nodeId ∈ w.used
  memory : ∀ author, w.state.author = some author → w.Knows author
  file : ∀ author, w.state.authorFile = some author → w.Knows author
  written : w.state.authorFile = none → w.returned = []
  authors : ∀ dot ∈ w.returned, dot.author ∈ w.used
  distinct : w.returned.Nodup
  returned : w.returned = (returnedDots past).reverse
  accepted : ∀ dot, .accepted dot ∈ past → dot ∈ w.returned

theorem AuthorWorld.Knows.mono {w w' : AuthorWorld} {author : Author} (h : w.Knows author)
    (hused : ∀ id ∈ w.used, id ∈ w'.used) (hreturned : w'.returned = w.returned) :
    w'.Knows author :=
  ⟨hused _ h.1, by rw [hreturned]; exact h.2⟩

section

variable {nodeId : NodeId} {past : List AuthorEvent} {w : AuthorWorld} {headClock : VersionClock}
  {random random' : NodeId} {author : Author}

section

variable (h : AuthorInvariant nodeId past w)

include h

theorem AuthorInvariant.knows_of_fresh {used : List NodeId} (hfresh : author.id ∉ w.used)
    (hused : author.id ∈ used) : ({ w with used := used } : AuthorWorld).Knows author :=
  ⟨hused, fun dot hdot heq => (hfresh (heq ▸ h.authors dot hdot)).elim⟩

theorem AuthorInvariant.knows_loaded : ({ w with used := random :: w.used } : AuthorWorld).Knows
      (w.state.loaded nodeId headClock random) := by
  unfold AuthorState.loaded
  cases hmem : w.state.author with
  | some author =>
    exact (h.memory author hmem).mono (fun _ => mem_cons_of_mem _) rfl
  | none =>
    cases hfile : w.state.authorFile with
    | some author =>
      exact (h.file author hfile).mono (fun _ => mem_cons_of_mem _) rfl
    | none =>
      have hempty := h.written hfile
      refine ⟨?_, by simp [hempty]⟩
      simp only [or_none, getD_none, Author.first]
      split
      · exact mem_cons_self
      · exact mem_cons_of_mem _ h.node

theorem AuthorInvariant.knows_continued (hfresh : random' ∉ random :: w.used) :
    ({ w with used := random' :: random :: w.used } : AuthorWorld).Knows
      ((w.state.loaded nodeId headClock random).continued w.state.authorChainBroken headClock
        random') := by
  have hloaded : ({ w with used := random :: w.used } : AuthorWorld).Knows
      (w.state.loaded nodeId headClock random) := h.knows_loaded
  have hrotated : ({ w with used := random' :: random :: w.used } : AuthorWorld).Knows
      ((w.state.loaded nodeId headClock random).rotate random') :=
    h.knows_of_fresh (fun hmem => hfresh (mem_cons_of_mem _ hmem)) mem_cons_self
  unfold Author.continued
  split
  · exact hrotated
  · split
    · exact hrotated
    · exact hloaded.mono (fun _ => mem_cons_of_mem _) rfl

omit h in
theorem reserveNext_eq_some {next : Author} (h : author.reserveNext headClock = some next) :
    next.id = author.id ∧ author.reserved < next.reserved := by
  unfold Author.reserveNext at h
  dsimp only at h
  split at h
  · cases h
  · cases h
    exact ⟨rfl, by show author.reserved < max _ _ + 1; omega⟩

theorem AuthorInvariant.lt_reserved (hfresh : random' ∉ random :: w.used)
    (hreserve : w.state.reserve nodeId headClock random random' = some author) :
    author.id ∈ random' :: random :: w.used ∧
      ∀ dot ∈ w.returned, dot.author = author.id → dot.sequence < author.reserved := by
  obtain ⟨hid, hlt⟩ := reserveNext_eq_some hreserve
  have hknows : AuthorWorld.Knows _ ((w.state.loaded nodeId headClock random).continued
      w.state.authorChainBroken headClock random') := h.knows_continued hfresh
  refine ⟨hid ▸ hknows.1, ?_⟩
  intro dot hdot heq
  have hle := hknows.2 dot hdot (heq.trans hid)
  omega

theorem AuthorInvariant.knows_reserve (hfresh : random' ∉ random :: w.used)
    (hreserve : w.state.reserve nodeId headClock random random' = some author) :
    ({ w with used := random' :: random :: w.used } : AuthorWorld).Knows author := by
  obtain ⟨hused, hlt⟩ := h.lt_reserved hfresh hreserve
  exact ⟨hused, fun dot hdot heq => (hlt dot hdot heq).le⟩

/-- A step that returns no dot keeps the invariant when its records know the
dots returned so far. -/
theorem AuthorInvariant.silent {state : AuthorState}
    {used : List NodeId} (hused : ∀ id ∈ w.used, id ∈ used)
    (hmemory : ∀ author, state.author = some author →
      ({ w with used := used } : AuthorWorld).Knows author)
    (hfile : ∀ author, state.authorFile = some author →
      ({ w with used := used } : AuthorWorld).Knows author)
    (hwritten : state.authorFile = none → w.returned = []) :
    AuthorInvariant nodeId (past ++ [.other]) { w with state := state, used := used } where
  node := hused _ h.node
  memory := hmemory
  file := hfile
  written := hwritten
  authors := fun dot hdot => hused _ (h.authors dot hdot)
  distinct := h.distinct
  returned := by
    rw [h.returned]
    simp [returnedDots, AuthorEvent.dot?]
  accepted := by
    intro dot hdot
    have hpast : AuthorEvent.accepted dot ∈ past := by simpa using hdot
    exact h.accepted dot hpast

theorem AuthorInvariant.knows_loadedFile
    (hauthor : w.state.loadedFile nodeId headClock random = some author) :
    ({ w with used := random :: w.used } : AuthorWorld).Knows author := by
  unfold AuthorState.loadedFile at hauthor
  split at hauthor
  · exact (h.file author hauthor).mono (fun _ => mem_cons_of_mem _) rfl
  · next hnone =>
    have hmem : w.state.author = none := by simpa using hnone
    have hloaded : w.state.loaded nodeId headClock random = author := by
      unfold AuthorState.loaded
      rw [hmem, none_or]
      exact some_inj.1 hauthor
    exact hloaded ▸ h.knows_loaded

theorem AuthorInvariant.written_loadedFile
    (hnone : w.state.loadedFile nodeId headClock random = none) : w.returned = [] := by
  unfold AuthorState.loadedFile at hnone
  split at hnone
  · exact h.written hnone
  · cases hnone

end

theorem noteAccepted_id (author : Author) (dot : MetadataDot) :
    (author.noteAccepted dot).id = author.id ∧
      (author.noteAccepted dot).reserved = author.reserved := by
  unfold Author.noteAccepted
  split <;> exact ⟨rfl, rfl⟩

end

theorem AuthorInvariant.initial (nodeId : NodeId) (broken : Bool) :
    AuthorInvariant nodeId [] (AuthorWorld.initial nodeId broken) where
  node := mem_singleton_self _
  memory := nofun
  file := nofun
  written := fun _ => rfl
  authors := nofun
  distinct := nodup_nil
  returned := rfl
  accepted := nofun

private theorem mem_cons_cons {α : Type} {a b : α} {l : List α} : ∀ c ∈ l, c ∈ a :: b :: l :=
  fun _ h => mem_cons_of_mem _ (mem_cons_of_mem _ h)

theorem AuthorInvariant.step {nodeId : NodeId} {past : List AuthorEvent} {w w' : AuthorWorld}
    {event : AuthorEvent} (h : AuthorInvariant nodeId past w)
    (hstep : AuthorStep nodeId w event w') : AuthorInvariant nodeId (past ++ [event]) w' := by
  cases hstep with
  | @reserve headClock random random' author broken hfresh hfresh' hreserve hbroken =>
    obtain ⟨hused, hlt⟩ := h.lt_reserved hfresh' hreserve
    have hknows : ∀ record, some author = some record → AuthorWorld.Knows
          { state := ⟨some author, broken, some author⟩
            used := random' :: random :: w.used
            returned := author.dot :: w.returned } record := by
      rintro record ⟨⟩
      refine ⟨hused, ?_⟩
      intro dot hdot heq
      rcases mem_cons.1 hdot with rfl | hdot
      · exact Nat.le_refl _
      · exact (hlt dot hdot heq).le
    exact
      { node := mem_cons_cons _ h.node
        memory := hknows
        file := hknows
        written := nofun
        authors := by
          intro dot hdot
          rcases mem_cons.1 hdot with rfl | hdot
          · exact hused
          · exact mem_cons_cons _ (h.authors dot hdot)
        distinct := by
          refine nodup_cons.2 ⟨fun hdot => ?_, h.distinct⟩
          exact Nat.lt_irrefl _ (hlt _ hdot rfl)
        returned := by
          rw [h.returned]
          simp [returnedDots, AuthorEvent.dot?]
        accepted := by
          intro dot hdot
          have hpast : AuthorEvent.accepted dot ∈ past := by simpa using hdot
          exact mem_cons_of_mem _ (h.accepted dot hpast) }
  | @reserveLost headClock random random' author broken hfresh hfresh' hreserve hbroken =>
    refine h.silent mem_cons_cons nofun ?_ nofun
    rintro _ ⟨⟩
    exact h.knows_reserve hfresh' hreserve
  | @exhausted headClock random random' hfresh hfresh' hreserve =>
    refine h.silent mem_cons_cons ?_ ?_ h.written_loadedFile
    · rintro _ ⟨⟩
      exact h.knows_continued hfresh'
    · intro author hauthor
      exact (h.knows_loadedFile hauthor).mono (fun _ => mem_cons_of_mem _) rfl
  | @writeFails headClock random random' author file hfresh hfresh' hreserve hfile =>
    have hknows := h.knows_reserve hfresh' hreserve
    refine h.silent mem_cons_cons ?_ ?_ ?_
    · rintro _ ⟨⟩
      exact hknows
    · intro record hrecord
      rcases hfile with rfl | rfl
      · exact (h.knows_loadedFile hrecord).mono (fun _ => mem_cons_of_mem _) rfl
      · cases hrecord
        exact hknows
    · intro hnone
      rcases hfile with rfl | rfl
      · exact h.written_loadedFile hnone
      · cases hnone
  | @load headClock random hfresh =>
    refine h.silent (fun _ => mem_cons_of_mem _) ?_ ?_ h.written_loadedFile
    · rintro _ ⟨⟩
      exact h.knows_loaded
    · intro author hauthor
      exact h.knows_loadedFile hauthor
  | @loadFails headClock random hfresh hfile hauthor =>
    have hloaded : w.state.loaded nodeId headClock random =
        Author.first nodeId headClock random := by
      simp [AuthorState.loaded, hfile, hauthor]
    refine h.silent (fun _ => mem_cons_of_mem _) ?_ ?_ h.written
    · rintro _ ⟨⟩
      exact hloaded ▸ h.knows_loaded
    · intro author hsome
      exact (h.file author hsome).mono (fun _ => mem_cons_of_mem _) rfl
  | @accept dot hdot =>
    exact
      { node := h.node
        memory := by
          intro author hauthor
          obtain ⟨record, hrecord, rfl⟩ := map_eq_some_iff.1 hauthor
          obtain ⟨hid, hreserved⟩ := noteAccepted_id record dot
          have hknows := h.memory record hrecord
          exact ⟨hid ▸ hknows.1, by rw [hid, hreserved]; exact hknows.2⟩
        file := h.file
        written := h.written
        authors := h.authors
        distinct := h.distinct
        returned := by
          rw [h.returned]
          simp [returnedDots, AuthorEvent.dot?]
        accepted := by
          intro other hother
          rcases mem_append.1 hother with hpast | hlast
          · exact h.accepted other hpast
          · cases mem_singleton.1 hlast
            exact hdot }
  | crash => exact h.silent (fun _ => id) nofun h.file h.written
  | replaceHeads => exact h.silent (fun _ => id) nofun h.file h.written

/-! ## The law of a chain -/

/-- A dot is returned only for a head that carries every mutation of its author
accepted here before. -/
def ChainLaw (past : List AuthorEvent) : AuthorEvent → Prop
  | .reserved dot headClock _ _ =>
    ∀ m, .accepted ⟨dot.author, m⟩ ∈ past → m < dot.sequence → m ≤ headClock.getD dot.author 0
  | _ => True

/-- When the record goes on, the head carries the accepted mutations that the
record does not know to be accepted. -/
def ForgottenCarried (past : List AuthorEvent) : AuthorEvent → Prop
  | .reserved _ headClock record marked =>
    marked = false → record.accepted ≤ record.observed headClock →
      ∀ m, .accepted ⟨record.id, m⟩ ∈ past → record.accepted < m → m ≤ record.observed headClock
  | _ => True

theorem AuthorInvariant.chainLaw_iff {nodeId : NodeId} {past : List AuthorEvent}
    {w w' : AuthorWorld} {event : AuthorEvent} (h : AuthorInvariant nodeId past w)
    (hstep : AuthorStep nodeId w event w') : ChainLaw past event ↔ ForgottenCarried past event := by
  cases hstep with
  | @reserve headClock random random' author broken hfresh hfresh' hreserve hbroken =>
    obtain ⟨hused, hlt⟩ := h.lt_reserved hfresh' hreserve
    obtain ⟨hid, -⟩ := reserveNext_eq_some hreserve
    generalize w.state.loaded nodeId headClock random = record at hid
    -- a rotated record has an id no accepted mutation has
    have hrotated : author.id = random' →
        ChainLaw past (.reserved author.dot headClock record w.state.authorChainBroken) := by
      intro hnew m hm hlt'
      have hmem := h.authors _ (h.accepted _ hm)
      have hrandom : random' ∈ w.used := hnew ▸ hmem
      exact (hfresh' (mem_cons_of_mem _ hrandom)).elim
    unfold Author.continued at hid
    split at hid
    · next hmarked =>
      exact iff_of_true (hrotated hid) (fun hunmarked => by simp [hmarked] at hunmarked)
    · split at hid
      · next hless => exact iff_of_true (hrotated hid) (fun _ hle => by omega)
      · next hunmarked hle =>
        constructor
        · intro hlaw _ _ m hm _
          have hm' : .accepted ⟨author.id, m⟩ ∈ past := by rw [hid]; exact hm
          have hcarried := hlaw m hm' (hlt _ (h.accepted _ hm') rfl)
          have hid' : author.dot.author = record.id := hid
          rw [hid'] at hcarried
          exact hcarried
        · intro hcarried m hm _
          have hid' : author.dot.author = record.id := hid
          rw [hid'] at hm ⊢
          by_cases hknown : m ≤ record.accepted
          · exact hknown.trans (not_lt.1 hle)
          · exact hcarried (by simpa using hunmarked) (not_lt.1 hle) m hm (not_le.1 hknown)
  | _ => exact Iff.rfl

/-- Over every run of a node no dot is returned twice, and a clock entry means
every accepted mutation up to it exactly when no reservation goes on with a
record that has forgotten an accepted mutation the head lacks. -/
theorem author_chain_law_iff (nodeId : NodeId) (broken : Bool) (events : List AuthorEvent)
    (w : AuthorWorld)
    (run : Run (AuthorStep nodeId) (AuthorWorld.initial nodeId broken) events w) :
    (returnedDots events).Nodup ∧ (Always ChainLaw events ↔ Always ForgottenCarried events) := by
  have hinv := run.invariant
    (P := fun past w => AuthorInvariant nodeId past w ∧
      (Always ChainLaw past ↔ Always ForgottenCarried past))
    ⟨AuthorInvariant.initial nodeId broken, iff_of_true (always_nil _) (always_nil _)⟩
    (fun past u event v h hstep => ⟨h.1.step hstep, by
      rw [always_snoc, always_snoc, h.2, h.1.chainLaw_iff hstep]⟩)
  refine ⟨?_, hinv.2⟩
  have hdistinct := hinv.1.distinct
  rw [hinv.1.returned] at hdistinct
  exact nodup_reverse.1 hdistinct

namespace ForgottenAccept

/-! A mutation is accepted, the node restarts, and the next head has this clock. -/

def record : Author := { id := 7, reserved := 1 }

def events (headClock : VersionClock) : List AuthorEvent :=
  [.reserved ⟨7, 1⟩ ∅ { id := 7 } false, .accepted ⟨7, 1⟩, .other,
    .reserved ⟨7, 2⟩ headClock record false]

def final : AuthorWorld :=
  { state := ⟨some { id := 7, reserved := 2 }, false, some { id := 7, reserved := 2 }⟩
    used := [4, 3, 2, 1, 7]
    returned := [⟨7, 2⟩, ⟨7, 1⟩] }

theorem run (headClock : VersionClock) (hclock : headClock.getD 7 0 ≤ 1) :
    Run (AuthorStep 7) (AuthorWorld.initial 7 false) (events headClock) final := by
  have hnext : record.reserveNext headClock = some { id := 7, reserved := 2 } := by
    have hfloor : max 1 (headClock.getD 7 0) = 1 := by omega
    show (if max 1 (headClock.getD 7 0) = sequenceMax then none
      else some { record with reserved := max 1 (headClock.getD 7 0) + 1 }) = _
    rw [hfloor]
    rfl
  have hreserve : AuthorState.reserve ⟨some record, false, none⟩ 7 headClock 3 4 =
      some { id := 7, reserved := 2 } := by
    show (record.continued false headClock 4).reserveNext headClock = _
    have hcontinued : record.continued false headClock 4 = record := by
      simp [Author.continued, record]
    rw [hcontinued, hnext]
  have hfirst : AuthorState.reserve { } 7 ∅ 1 2 = some record := by decide +kernel
  have hstep : AuthorStep 7 (AuthorWorld.initial 7 false) (.reserved ⟨7, 1⟩ ∅ { id := 7 } false)
      ⟨⟨some record, false, some record⟩, [2, 1, 7], [⟨7, 1⟩]⟩ := by
    have hloaded : (AuthorWorld.initial 7 false).state.loaded 7 ∅ 1 = { id := 7 } := by
      decide +kernel
    exact @AuthorStep.reserve 7 (AuthorWorld.initial 7 false) ∅ 1 2 record false (by decide)
      (by decide) hfirst nofun
  have haccept : AuthorStep 7 ⟨⟨some record, false, some record⟩, [2, 1, 7], [⟨7, 1⟩]⟩
      (.accepted ⟨7, 1⟩)
      ⟨⟨some record, false, some { record with accepted := 1 }⟩, [2, 1, 7], [⟨7, 1⟩]⟩ :=
    .accept mem_cons_self
  have hcrash : AuthorStep 7
      ⟨⟨some record, false, some { record with accepted := 1 }⟩, [2, 1, 7], [⟨7, 1⟩]⟩ .other
      ⟨⟨some record, false, none⟩, [2, 1, 7], [⟨7, 1⟩]⟩ := .crash
  have hagain : AuthorStep 7 ⟨⟨some record, false, none⟩, [2, 1, 7], [⟨7, 1⟩]⟩
      (.reserved ⟨7, 2⟩ headClock record false) final :=
    @AuthorStep.reserve 7 ⟨⟨some record, false, none⟩, [2, 1, 7], [⟨7, 1⟩]⟩ headClock 3 4
      { id := 7, reserved := 2 } false (by decide) (by decide) hreserve nofun
  exact (((Run.refl.snoc hstep).snoc haccept).snoc hcrash).snoc hagain

/-- The head lacks the mutation accepted before the restart, and the chain goes
on: a clock with the second dot would not mean the first. -/
theorem chain_goes_on_without_the_accepted :
    ∃ events w, Run (AuthorStep 7) (AuthorWorld.initial 7 false) events w ∧
      ¬ Always ChainLaw events := by
  refine ⟨events ∅, final, run ∅ (by decide +kernel), ?_⟩
  intro h
  have hlaw := h [_, _, _] _ (prefix_refl _) 1 (by decide) (by decide)
  exact absurd hlaw (by decide +kernel)

/-- The head carries it, and the law holds. -/
theorem chain_goes_on_with_the_accepted :
    Run (AuthorStep 7) (AuthorWorld.initial 7 false) (events {(7, 1)}) final ∧
      (returnedDots (events {(7, 1)})).Nodup ∧
      (Always ChainLaw (events {(7, 1)}) ↔ Always ForgottenCarried (events {(7, 1)})) := by
  have hrun := run {(7, 1)} (by decide +kernel)
  exact ⟨hrun, author_chain_law_iff 7 false _ _ hrun⟩

end ForgottenAccept

end Macha
