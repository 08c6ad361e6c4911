import Macha.Library.SortedSets
import Macha.Ledger.TrieDiff
import Macha.Ledger.TrieUnionRead

/-!
# A survey by differences

Which referenced objects no reachable node holds: `survey_by_diff` compares this
node's held trie with each peer's, and `keep_unavailable` carries the last survey's
findings over when a peer could not finish.
-/

namespace Macha

open List Option

open Trie TrieDiff

/-! ## A union as a source -/

/-- `UnionSource`. A prefix is never longer than an id. -/
def unionSource (sha256 : HashInput → Hash256) (union : TrieUnion) : TrieSource where
  root := union.rootSummary
  children paths := paths.mapM (union.children sha256)
  records paths := paths.mapM fun path =>
    if path.length ≤ 32 then union.records sha256 path noLimit else some []

section

variable {sha256 : HashInput → Hash256} {union : TrieUnion}

theorem stands_of_made (hinj : Function.Injective sha256) (h : MadeUnion sha256 union) :
    ∃ full, PartsHold sha256 union.parts full ∧
      NodeOk sha256 32 [] (full.map (below [])) union.root := by
  cases h with
  | @make parts full hint _ hparts hhint hmake =>
    obtain ⟨hmade, hthrown⟩ := make_spec hinj hparts hint fun other hother =>
      (hhint other hother).hintOk hinj
    by_cases hcalm : Calm full
    · obtain ⟨root, hroot, hok⟩ := hmade hcalm
      rw [hmake] at hroot
      cases hroot
      exact ⟨full, hparts, hok⟩
    · rw [hthrown hcalm] at hmake
      cases hmake

end

/-! ## Records by their root -/

section

variable {sha256 : HashInput → Hash256} {records others : List TrieRecord}

end

/-! ## The survey -/

structure AvailabilitySurvey where
  unavailable : List LedgerId := []
  unknown : List LedgerId := []
  peersAsked : Nat := 0
  peersFailed : Nat := 0
  rounds : Nat := 0
  nodesAsked : Nat := 0

structure PeerDiff where
  answered : Bool := false
  root : Hash256 := Hash256.zero
  lacks : List LedgerId := []

def keepUnavailable (next last : AvailabilitySurvey) (held : LedgerId → Bool) :
    AvailabilitySurvey :=
  let kept := last.unavailable.filter fun id => !held id
  let unavailable := sortedUnion next.unavailable kept
  { next with
    unavailable := unavailable
    unknown := sortedDifference next.unknown unavailable }

/-- The rounds a diff may take: one for each byte of an id, and two. -/
def diffRounds : Nat := 34

/-- The diff of this node's trie with a peer's; none when the peer, which may fail to
name its root already, or this node's trie cannot answer. -/
def peerDiff (here : TrieSource) (there : Option TrieSource) :
    Option (TrieDiffCost × List TrieDifference) :=
  there.bind fun there => diffTries here there diffRounds

/-- What one peer adds to a survey, and what it holds that this node does not. -/
def surveyPeer (here : TrieSource) (referenced : LedgerId → Bool) (there : Option TrieSource)
    (survey : AvailabilitySurvey) : AvailabilitySurvey × PeerDiff × List LedgerId :=
  match peerDiff here there with
  | none =>
    ({ survey with
      peersAsked := survey.peersAsked + 1
      peersFailed := survey.peersFailed + 1 }, {}, [])
  | some (cost, differences) =>
    let lacks := differences.filter fun d =>
      d.left.isSome && d.right.isNone && referenced d.id
    let holds := differences.filter fun d => d.left.isNone && d.right.isSome
    ({ survey with
      peersAsked := survey.peersAsked + 1
      rounds := survey.rounds + cost.rounds
      nodesAsked := survey.nodesAsked + cost.prefixes },
    { answered := true
      root := (there.map fun there => there.root.hash).getD Hash256.zero
      lacks := sortedUnique (lacks.map (·.id)) },
    holds.map (·.id))

def surveyPeers (here : TrieSource) (referenced : LedgerId → Bool) :
    List (Option TrieSource) → AvailabilitySurvey →
      AvailabilitySurvey × List PeerDiff × List LedgerId
  | [], survey => (survey, [], [])
  | there :: sources, survey =>
    let (survey, diff, holds) := surveyPeer here referenced there survey
    let (survey, diffs, heldElsewhere) := surveyPeers here referenced sources survey
    (survey, diff :: diffs, holds ++ heldElsewhere)

def surveyByDiff (here : TrieSource) (missingHere : List LedgerId) (referenced : LedgerId → Bool)
    (sources : List (Option TrieSource)) : AvailabilitySurvey × List PeerDiff :=
  let (survey, diffs, heldElsewhere) := surveyPeers here referenced sources {}
  let rest := sortedDifference missingHere (sortedUnique heldElsewhere)
  if survey.peersFailed ≠ 0 then ({ survey with unknown := rest }, diffs)
  else ({ survey with unavailable := rest }, diffs)

/-! ## What a survey finds -/

/-- A peer answers from one snapshot of what it holds. -/
def AnswersFrom (sha256 : HashInput → Hash256) (there : Option TrieSource)
    (held : List TrieRecord) : Prop :=
  SortedRecords held ∧ ∃ source, there = some source ∧ Answers sha256 source held

def HasRecord (records : List TrieRecord) (id : LedgerId) : Prop :=
  (leafFind records id).isSome = true

section

variable {sha256 : HashInput → Hash256} {here : TrieSource} {mine : List TrieRecord}
  {there : Option TrieSource} {next last : AvailabilitySurvey}
variable (referenced : LedgerId → Bool)

section

variable (hinj : Function.Injective sha256)

include hinj

variable {held : List TrieRecord}

/-- A peer of a refresh: it answers from one snapshot, or fails. -/
def PeerOk (sha256 : HashInput → Hash256) (here : TrieSource) (there : Option TrieSource) : Prop :=
  (∃ held, AnswersFrom sha256 there held) ∨ peerDiff here there = none

theorem AnswersFrom.unique {held other : List TrieRecord} (h : AnswersFrom sha256 there held)
    (h' : AnswersFrom sha256 there other) : held = other := by
  obtain ⟨hheld, source, rfl, hanswers⟩ := h
  obtain ⟨hother, _, hsame, hanswers'⟩ := h'
  cases hsame
  have hroot := hanswers.root.symm.trans hanswers'.root
  rw [summaryBelow_eq_iff hinj hheld hother (Nat.zero_le _), below_eq_self (allBelow_nil _),
    below_eq_self (allBelow_nil _)] at hroot
  exact hroot

omit hinj in
theorem surveyPeers_unavailable (here : TrieSource) (sources : List (Option TrieSource))
    (survey : AvailabilitySurvey) :
    (surveyPeers here referenced sources survey).1.unavailable = survey.unavailable := by
  induction sources generalizing survey with
  | nil => rfl
  | cons there sources ih =>
    refine (ih (surveyPeer here referenced there survey).1).trans ?_
    unfold surveyPeer
    cases peerDiff here there <;> rfl

variable {sources : List (Option TrieSource)}

end

theorem sorted_surveyByDiff (here : TrieSource) {missingHere : List LedgerId}
    (h : SortedSet missingHere) (sources : List (Option TrieSource)) :
    SortedSet (surveyByDiff here missingHere referenced sources).1.unavailable := by
  unfold surveyByDiff
  dsimp only
  split
  · rw [surveyPeers_unavailable]
    exact SortedSet.nil
  · exact h.sortedDifference _

theorem sorted_keepUnavailable (h : SortedSet next.unavailable) (h' : SortedSet last.unavailable)
    (held : LedgerId → Bool) :
    SortedSet (keepUnavailable next last held).unavailable :=
  sorted_union h (h'.filter _)

end

end Macha
