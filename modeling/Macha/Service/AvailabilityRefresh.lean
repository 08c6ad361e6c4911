import Macha.Library.Run
import Macha.Ledger.Availability

/-!
# Refreshing the availability survey

`AvailabilityService::refresh`: what this node lacks of the referenced objects is
joined when the inventory or the holdings changed, the peers are asked when
something could have changed their answer, and a survey is published. After a peer
failed, what the last survey found unavailable is kept.
-/

namespace Macha

open List Option

open Trie TrieDiff

/-! ## What a refresh is given -/

/-- `ReferencedSets` for the data objects: a trie on disk and some more ids. -/
structure ReferencedSets where
  view : Option LedgerRecords := none
  others : List LedgerId := []
  sorted : SortedSet others
deriving DecidableEq

/-- An inventory; `object` tells one object from another with the same contents, as the
pointer that `refresh` compares does. -/
structure InventoryHorizon extends ReferencedSets where
  object : Nat
deriving DecidableEq

structure HeldIdentity where
  hash : Hash256 := Hash256.zero
  removals : Nat := 0
  complete : Bool := false
deriving DecidableEq

structure HeldView where
  identity : HeldIdentity
  trie : Option TrieUnion

/-- A peer that hosts extents, with the trie it can be asked about. -/
structure AvailabilityHost where
  id : NodeId
  used : Nat
  supported : Bool
  source : Option TrieSource

/-- Where the pass may be stopped, or fail. -/
inductive RefreshStop where
  | joining
  | surveying
  | filling
deriving DecidableEq

structure RefreshInput where
  hasSnapshot : Bool := true
  topologyEvents : Nat
  inventory : Option InventoryHorizon
  view : HeldView
  hosts : List AvailabilityHost
  now : Nat
  /-- How long this refresh takes. -/
  cost : Nat
  stop : Option RefreshStop := none

namespace ReferencedSets

def contains (sets : ReferencedSets) (id : LedgerId) : Bool :=
  (sets.view.bind fun view => view[id]?).isSome || decide (id ∈ sets.others)

/-- Some part has a record of the id. -/
def heldBy (sha256 : HashInput → Hash256) (parts : List ObjectTrie) (id : LedgerId) : Bool :=
  parts.any fun part => ((part.get sha256 id).getD none).isSome

/-- `not_held`. The join of the view with the parts, both in the order of the ids, finds a
record exactly where a lookup does. -/
def notHeld (sha256 : HashInput → Hash256) (sets : ReferencedSets) (parts : List ObjectTrie) :
    List LedgerId :=
  let viewed := ((sets.view.map fun view => view.toList).getD []).map Prod.fst
  sortedUnion (viewed.filter fun id => !heldBy sha256 parts id)
    (sets.others.filter fun id => !heldBy sha256 parts id)

end ReferencedSets

def TrieUnion.held (sha256 : HashInput → Hash256) (union : TrieUnion) (id : LedgerId) : Bool :=
  ((union.get sha256 id).getD none).isSome

/-- `AvailabilityService`, without the path table and what only schedules the next pass. -/
structure AvailabilityService where
  surveyed : Bool := false
  joinedInventory : Option InventoryHorizon := none
  joinedIdentity : HeldIdentity := {}
  missing : List LedgerId := []
  survey : AvailabilitySurvey := {}
  surveyedPeers : List (NodeId × Nat) := []
  surveyedTopologyEvents : Nat := 0
  surveyedAt : Nat := 0
  surveyedCost : Nat := 0
  retryAt : Option Nat := none
  retryBackoff : Nat := 0

namespace AvailabilityService

def share : Nat := 20

/-- A second, in the nanoseconds of the clock. -/
def second : Nat := 10 ^ 9

def retryFloor : Nat := second

def retryCeiling : Nat := 5 * 60 * second

variable (s : AvailabilityService) (i : RefreshInput)

def lost : Bool := s.surveyed && decide (i.view.identity.removals ≠ s.joinedIdentity.removals)

def sameInventory : Bool := decide (i.inventory = s.joinedInventory)

def changed : Bool :=
  !s.surveyed || !s.sameInventory i ||
    decide (i.view.identity.hash ≠ s.joinedIdentity.hash) || s.lost i

def gainedOnly : Bool := s.surveyed && s.changed i && !s.lost i && s.sameInventory i

/-- The peers in order, with what each has used. -/
def peersOf (hosts : List AvailabilityHost) : List (NodeId × Nat) :=
  (hosts.map fun host => (host.id, host.used)).mergeSort fun a b =>
    decide (a.1 < b.1) || (decide (a.1 = b.1) && decide (a.2 ≤ b.2))

def samePeers : Bool := decide ((peersOf i.hosts).map Prod.fst = s.surveyedPeers.map Prod.fst)

def shrank : Bool :=
  s.samePeers i && ((peersOf i.hosts).zip s.surveyedPeers).any fun (a, b) => decide (a.2 < b.2)

def grew : Bool :=
  s.samePeers i && ((peersOf i.hosts).zip s.surveyedPeers).any fun (a, b) => decide (b.2 < a.2)

def mustAsk : Bool :=
  !s.surveyed || decide (i.topologyEvents ≠ s.surveyedTopologyEvents) || !s.samePeers i ||
    s.shrank i || s.retryAt.any fun retry => decide (retry ≤ i.now)

def foundMissing : Bool :=
  s.surveyed && (!s.survey.unavailable.isEmpty || !s.survey.unknown.isEmpty)

def paced : Bool := s.changed i || (s.grew i && s.foundMissing)

/-- A gain alone asks nobody. -/
def asks : Bool := s.mustAsk i || !s.gainedOnly i || (s.grew i && s.foundMissing)

variable (sha256 : HashInput → Hash256)

def joined (inventory : InventoryHorizon) (trie : TrieUnion) : AvailabilityService :=
  if s.changed i = true then
    { s with
      missing := inventory.notHeld sha256 trie.parts
      joinedInventory := some inventory
      joinedIdentity := i.view.identity }
  else s

/-- The survey and the peers' parts in it, when the peers are asked. -/
def askedSurvey (inventory : InventoryHorizon) (trie : TrieUnion) (missingHere : List LedgerId) :
    AvailabilitySurvey × List PeerDiff :=
  let (survey, diffs) := surveyByDiff (unionSource sha256 trie) missingHere inventory.contains
    (i.hosts.map (·.source))
  if survey.peersFailed ≠ 0 ∧ s.surveyed = true then
    (keepUnavailable survey s.survey (trie.held sha256), diffs)
  else (survey, diffs)

def gainedSurvey (missingHere : List LedgerId) : AvailabilitySurvey :=
  { s.survey with
    unavailable := sortedIntersection s.survey.unavailable missingHere
    unknown := sortedIntersection s.survey.unknown missingHere }

/-- When a peer that could have answered is asked again. -/
def retried (diffs : List PeerDiff) : AvailabilityService :=
  if (i.hosts.zip diffs).any (fun (host, diff) => !diff.answered && host.supported) = true then
    let backoff := min (max (s.retryBackoff * 2) retryFloor) retryCeiling
    { s with retryBackoff := backoff, retryAt := some (i.now + backoff) }
  else { s with retryBackoff := 0, retryAt := none }

/-- The part of `refresh` after the decision to publish. -/
def publish (inventory : InventoryHorizon) (trie : TrieUnion) :
    AvailabilityService × Option AvailabilitySurvey :=
  let next := s.joined i sha256 inventory trie
  if i.stop = some .surveying then (next, none)
  else if s.asks i = true then
    let (survey, diffs) := s.askedSurvey i sha256 inventory trie next.missing
    let next := { next with surveyedAt := i.now }
    if i.stop = some .filling then (next, none)
    else
      ({ next.retried i diffs with
        survey := survey
        surveyedCost := i.cost
        surveyed := true
        surveyedTopologyEvents := i.topologyEvents
        surveyedPeers := peersOf i.hosts }, some survey)
  else if i.stop = some .filling then (next, none)
  else
    let survey := s.gainedSurvey next.missing
    ({ next with
      survey := survey
      surveyedCost := if s.changed i = true then i.cost else s.surveyedCost }, some survey)

/-- `refresh`, with the survey it publishes. -/
def refresh : AvailabilityService × Option AvailabilitySurvey :=
  match i.view.trie, i.inventory with
  | some trie, some inventory =>
    if i.hasSnapshot = false ∨ i.view.identity.complete = false then (s, none)
    else if s.mustAsk i = false ∧ s.paced i = true ∧
        i.now < s.surveyedAt + s.surveyedCost * share then (s, none)
    else if s.mustAsk i = false ∧ s.paced i = false then
      ({ s with surveyedPeers := peersOf i.hosts }, none)
    else if i.stop = some .joining ∧ s.changed i = true then (s, none)
    else s.publish i sha256 inventory trie
  | _, _ => (s, none)

end AvailabilityService

section

variable {sha256 : HashInput → Hash256} {parts : List ObjectTrie} {full : List (List TrieRecord)}

theorem get_of_holds {part : ObjectTrie} {records : List TrieRecord}
    (h : part.Holds sha256 records) (id : LedgerId) :
    part.get sha256 id = some (leafFind records id) :=
  find_canon h.canon (placed_root h.sorted) id

theorem findSome_isSome_iff {records : List (List TrieRecord)} {id : LedgerId} :
    (records.findSome? fun r => leafFind r id).isSome = true ↔ ∃ r ∈ records, HasRecord r id := by
  rw [findSome?_isSome_iff]
  rfl

theorem heldBy_iff (h : PartsHold sha256 parts full) (id : LedgerId) :
    ReferencedSets.heldBy sha256 parts id = true ↔ HasRecord (unionOf full) id := by
  have hany : ReferencedSets.heldBy sha256 parts id = true ↔ ∃ r ∈ full, HasRecord r id := by
    unfold ReferencedSets.heldBy
    induction h with
    | nil => simp
    | @cons part records parts full hpart hparts ih =>
      rw [any_cons, Bool.or_eq_true, ih, get_of_holds hpart id, exists_mem_cons_iff]
      rfl
  rw [hany, HasRecord, leafFind_unionOf (allSorted_of_hold h), findSome_isSome_iff]

theorem contains_iff {sets : ReferencedSets} {id : LedgerId} : sets.contains id = true ↔
    id ∈ ((sets.view.map fun view => view.toList).getD []).map Prod.fst ∨ id ∈ sets.others := by
  unfold ReferencedSets.contains
  rw [Bool.or_eq_true, decide_eq_true_iff]
  refine or_congr_left ?_
  cases sets.view with
  | none => simp
  | some view =>
    rw [isSome_iff_exists, List.mem_map]
    constructor
    · rintro ⟨value, hvalue⟩
      exact ⟨(id, value), (OrdMap.mem_toList _ _ _).2 hvalue, rfl⟩
    · rintro ⟨⟨_, value⟩, hmem, rfl⟩
      exact ⟨value, (OrdMap.mem_toList _ _ _).1 hmem⟩

theorem mem_notHeld (h : PartsHold sha256 parts full) {sets : ReferencedSets} {id : LedgerId} :
    id ∈ sets.notHeld sha256 parts ↔ sets.contains id = true ∧ ¬ HasRecord (unionOf full) id := by
  unfold ReferencedSets.notHeld
  rw [mem_sortedUnion, mem_filter, mem_filter, ← or_and_right, contains_iff,
    ← heldBy_iff h, Bool.not_eq_true', Bool.not_eq_true]

theorem sorted_notHeld (sha256 : HashInput → Hash256) (sets : ReferencedSets)
    (parts : List ObjectTrie) : SortedSet (sets.notHeld sha256 parts) := by
  have hviewed : SortedSet (((sets.view.map fun view => view.toList).getD []).map Prod.fst) := by
    cases sets.view with
    | none => exact SortedSet.nil
    | some view => exact pairwise_map.2 (sorted_toList view)
  exact sorted_union (hviewed.filter _) (sets.sorted.filter _)

end

/-! ## What a refresh keeps -/

/-- The union is one that was made, its identity is its root's, and each peer answers from
one snapshot or fails. -/
structure RefreshInput.Ok (sha256 : HashInput → Hash256) (i : RefreshInput) (trie : TrieUnion) :
    Prop where
  made : MadeUnion sha256 trie
  hash : i.view.identity.hash = trie.rootSummary.hash
  peers : ∀ host ∈ i.hosts, PeerOk sha256 (unionSource sha256 trie) host.source

namespace AvailabilityService

/-- What was missing at the last join, and lists in order. -/
structure Joined (sha256 : HashInput → Hash256) (s : AvailabilityService) : Prop where
  surveyed : s.surveyed = true → s.joinedInventory.isSome = true
  missing : ∀ inventory, s.joinedInventory = some inventory → ∃ held, SortedRecords held ∧
    s.joinedIdentity.hash = (summaryOf sha256 32 held).hash ∧
    ∀ id, id ∈ s.missing ↔ inventory.contains id = true ∧ ¬ HasRecord held id
  missing_sorted : SortedSet s.missing
  unavailable_sorted : SortedSet s.survey.unavailable

variable {sha256 : HashInput → Hash256} {s : AvailabilityService} {i : RefreshInput}
  {trie : TrieUnion} {inventory : InventoryHorizon} {full : List (List TrieRecord)}

/-- The union in view stands for the parts' records. -/
structure Viewed (sha256 : HashInput → Hash256) (i : RefreshInput) (trie : TrieUnion)
    (full : List (List TrieRecord)) : Prop where
  parts : PartsHold sha256 trie.parts full
  node : NodeOk sha256 32 [] (full.map (below [])) trie.root
  hash : i.view.identity.hash = trie.rootSummary.hash

theorem Viewed.hash_eq (h : Viewed sha256 i trie full) :
    i.view.identity.hash = (summaryOf sha256 32 (unionOf full)).hash :=
  h.hash.trans (congrArg Summary.hash (rootSummary_eq h.node (allSorted_of_hold h.parts)))

theorem exists_viewed (hinj : Function.Injective sha256) (hok : i.Ok sha256 trie) :
    ∃ full, Viewed sha256 i trie full := by
  obtain ⟨full, hparts, hnode⟩ := stands_of_made hinj hok.made
  exact ⟨full, hparts, hnode, hok.hash⟩

variable (hinventory : i.inventory = some inventory)

include hinventory in
theorem joined_of_unchanged (hchanged : s.changed i = false) :
    s.joinedInventory = some inventory ∧ s.joinedIdentity.hash = i.view.identity.hash := by
  unfold changed sameInventory at hchanged
  simp only [Bool.or_eq_false_iff, Bool.not_eq_false', decide_eq_true_iff, ne_eq,
    decide_eq_false_iff_not, not_not] at hchanged
  obtain ⟨⟨⟨-, hsame⟩, hhash⟩, -⟩ := hchanged
  exact ⟨hsame ▸ hinventory, hhash.symm⟩

theorem Joined.joined (h : s.Joined sha256) (inventory : InventoryHorizon)
    (hview : Viewed sha256 i trie full) :
    (s.joined i sha256 inventory trie).Joined sha256 := by
  unfold AvailabilityService.joined
  split
  · refine ⟨fun _ => rfl, fun other hother => ?_, sorted_notHeld _ _ _, h.unavailable_sorted⟩
    cases hother
    exact ⟨unionOf full, sorted_unionOf (allSorted_of_hold hview.parts), hview.hash_eq,
      fun id => mem_notHeld hview.parts⟩
  · exact h

theorem Joined.congr (h : s.Joined sha256) {t : AvailabilityService}
    (hinventory : t.joinedInventory = s.joinedInventory)
    (hidentity : t.joinedIdentity = s.joinedIdentity) (hmissing : t.missing = s.missing)
    (hsurveyed : t.surveyed = true → s.joinedInventory.isSome = true)
    (hsorted : SortedSet t.survey.unavailable) : t.Joined sha256 := by
  refine ⟨?_, ?_, ?_, hsorted⟩
  · rwa [hinventory]
  · rw [hinventory, hidentity, hmissing]
    exact h.missing
  · rw [hmissing]
    exact h.missing_sorted

theorem sorted_askedSurvey (h : s.Joined sha256) {missingHere : List LedgerId}
    (hmissing : SortedSet missingHere) :
    SortedSet (s.askedSurvey i sha256 inventory trie missingHere).1.unavailable := by
  have hsurvey := sorted_surveyByDiff inventory.contains (unionSource sha256 trie) hmissing
    (i.hosts.map (·.source))
  unfold askedSurvey
  dsimp only
  split
  · exact sorted_keepUnavailable hsurvey h.unavailable_sorted _
  · exact hsurvey

include hinventory in
theorem joinedInventory_isSome (sha256 : HashInput → Hash256) (s : AvailabilityService)
    (trie : TrieUnion) :
    (s.joined i sha256 inventory trie).joinedInventory.isSome = true := by
  unfold AvailabilityService.joined
  split
  · rfl
  · next hchanged =>
    rw [(joined_of_unchanged hinventory (Bool.eq_false_iff.2 hchanged)).1]
    rfl

include hinventory in
theorem Joined.publish (h : s.Joined sha256) (hview : Viewed sha256 i trie full) :
    (s.publish i sha256 inventory trie).1.Joined sha256 := by
  have hnext := h.joined inventory hview
  have hsome := joinedInventory_isSome hinventory sha256 s trie
  unfold AvailabilityService.publish
  split
  · exact hnext
  · split
    · split
      · exact hnext.congr rfl rfl rfl (fun _ => hsome) hnext.unavailable_sorted
      · refine hnext.congr ?_ ?_ ?_ (fun _ => hsome)
          (sorted_askedSurvey h hnext.missing_sorted) <;>
          (unfold retried; dsimp only; split <;> rfl)
    · split
      · exact hnext
      · refine hnext.congr rfl rfl rfl (fun _ => hsome) ?_
        exact h.unavailable_sorted.sortedIntersection _

section

variable (hinj : Function.Injective sha256)

include hinj

theorem Joined.refresh (h : s.Joined sha256)
    (hok : ∀ trie, i.view.trie = some trie → i.Ok sha256 trie) :
    (s.refresh i sha256).1.Joined sha256 := by
  unfold AvailabilityService.refresh
  split
  · next trie inventory htrie hinventory =>
    obtain ⟨full, hview⟩ := exists_viewed hinj (hok trie htrie)
    split
    · exact h
    · split
      · exact h
      · split
        · exact h.congr rfl rfl rfl h.surveyed h.unavailable_sorted
        · split
          · exact h
          · exact h.publish hinventory hview
  · exact h

/-! ## What a refresh publishes -/

section

variable (hzero : ∀ input, sha256 input ≠ Hash256.zero)

include hinventory hzero

end

def step (sha256 : HashInput → Hash256) (s : AvailabilityService) (i : RefreshInput) :
    Option AvailabilityService :=
  some (s.refresh i sha256).1

end

end AvailabilityService

namespace FailingPeer

open AvailabilityService

def id : LedgerId := WideIds.wideId 0

def inventory : InventoryHorizon where
  others := [id]
  sorted := pairwise_singleton _ id
  object := 0

/-- A node that holds nothing. -/
def union : TrieUnion := ⟨[], none⟩

def view : HeldView := ⟨⟨union.rootSummary.hash, 0, true⟩, some union⟩

def alone : RefreshInput where
  topologyEvents := 0
  inventory := some inventory
  view := view
  hosts := []
  now := 0
  cost := 0

/-- Two peers are known: one answers, the other fails. -/
def joined (source : TrieSource) : RefreshInput :=
  { alone with
    topologyEvents := 1
    hosts := [⟨1, 0, true, some source⟩, ⟨2, 0, true, none⟩] }

def surveyed : AvailabilityService := (AvailabilityService.refresh {} alone namedHash).1

end FailingPeer

end Macha
