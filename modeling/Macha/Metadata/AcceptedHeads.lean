import Macha.Library.Collect
import Macha.Library.Run
import Macha.Library.Search
import Macha.Metadata.Clock
import Macha.Metadata.History

/-!
# Accepted heads

A replica keeps certificates for the commits that no other accepted commit
incorporates. A head goes when the history says that it is an ancestor of another
one, or when the clock of another covers its own and goes beyond it. The history is
known in part, and grows by commits that arrive in any order.
-/

namespace Macha

open List OrdMap

structure Commit where
  generation : Nat
  previous : Hash256 := Hash256.zero
  mergeParents : List Hash256 := []
  mutationSequences : VersionClock := ∅
  metadataWriteReplicasRequired : Nat := 1

/-- The commits by their hashes; a hash binds its record. -/
structure CommitGraph where
  commit : Hash256 → Commit
  genesis : Hash256
  generation_genesis : (commit genesis).generation = 1
  clock_genesis : (commit genesis).mutationSequences = ∅

structure MetadataAcceptance where
  generation : Nat
  hash : Hash256
  required : Nat
  /-- In order and without repetition, as `accept_commit` makes them. -/
  replicas : OrdMap NodeId Unit := ∅
deriving DecidableEq

/-- The stored commits, each with its `previous_known`. -/
abbrev StoredCommits := OrdMap Hash256 Bool

abbrev AcceptedHeads := OrdMap Hash256 MetadataAcceptance

structure HeadsReplica where
  history : StoredCommits := ∅
  acceptedHeads : AcceptedHeads := ∅
  /-- What `accept_commit` was told of and did not refuse. -/
  everAccepted : List Hash256 := []

inductive HeadsEvent
  | storeCommit (hash : Hash256) (encodedDelta : Bool)
  | importHistory (hash : Hash256) (body : HistoryBody) (previousKnown : Bool)
  | acceptCommit (value : MetadataAcceptance)
  | prune

section

variable (g : CommitGraph)

namespace CommitGraph

def clock (hash : Hash256) : VersionClock := (g.commit hash).mutationSequences

def parents (hash : Hash256) : List Hash256 :=
  (g.commit hash).previous :: (g.commit hash).mergeParents

/-- The commits the walk of `history_is_ancestor_locked` goes on to. -/
def follow (history : StoredCommits) (hash : Hash256) : List Hash256 :=
  match history[hash]? with
  | none => []
  | some previousKnown =>
    let c := g.commit hash
    (if previousKnown || (decide (c.previous ≠ Hash256.zero) && (history[c.previous]?).isSome) then
      [c.previous] else []) ++ c.mergeParents

def names (history : StoredCommits) (ancestor hash : Hash256) : Bool :=
  (history[hash]?).isSome &&
    (decide ((g.commit hash).previous ≠ Hash256.zero ∧ (g.commit hash).previous = ancestor) ||
      decide (ancestor ∈ (g.commit hash).mergeParents))

def historyIsAncestor (history : StoredCommits) (ancestor descendant : Hash256) : Bool :=
  if ancestor = descendant then (history[ancestor]?).isSome
  else searchFrom (g.follow history) (g.names history ancestor) history.keys descendant

/-- `accepted_head_is_ancestor_locked`; a stored commit can be materialised. -/
def acceptedHeadIsAncestor (history : StoredCommits) (ancestor descendant : Hash256) : Bool :=
  g.historyIsAncestor history ancestor descendant ||
    if ancestor = g.genesis then
      (history[descendant]?).isSome &&
        decide ((g.commit g.genesis).generation < (g.commit descendant).generation)
    else
      (history[ancestor]?).isSome && (history[descendant]?).isSome &&
        decide (g.clock ancestor ≠ ∅ ∧ g.clock ancestor ≠ g.clock descendant) &&
          clockCoversClock (g.clock descendant) (g.clock ancestor)

/-- One turn of `prune_accepted_heads_locked`. -/
def pruneHead (history : StoredCommits) (heads : AcceptedHeads) (head : Hash256) : AcceptedHeads :=
  if heads.keys.any fun other =>
      decide (other ≠ head) && g.acceptedHeadIsAncestor history head other then
    heads.erase head
  else heads

def pruneHeads (history : StoredCommits) (heads : AcceptedHeads) : AcceptedHeads :=
  heads.keys.foldl (g.pruneHead history) heads

/-- The clock and generation of a delta body over its parent, which
`apply_metadata_delta_in_place` and the succession rule require. -/
def deltaFits (hash : Hash256) : Bool :=
  decide ((g.commit (g.commit hash).previous).generation < (g.commit hash).generation) &&
    clockCoversClock (g.clock hash) (g.clock (g.commit hash).previous)

end CommitGraph

def certificateAddsNothing (held incoming : MetadataAcceptance) : Bool :=
  if held.required = 0 then decide (incoming.required = 0)
  else if incoming.required = 0 then true
  else if incoming.required < held.required then false
  else incoming.replicas.keys.all fun replica => (held.replicas[replica]?).isSome

/-- The certificate of a head that is accepted again. -/
def mergeCertificates (held incoming : MetadataAcceptance) : MetadataAcceptance :=
  if held.required = 0 ∧ incoming.required ≠ 0 then incoming
  else if held.required ≠ 0 ∧ incoming.required ≠ 0 then
    { held with
      required := min held.required incoming.required
      replicas := incoming.replicas.keys.foldl (fun all replica => all.insert replica ())
        held.replicas }
  else held

/-- What `accept_commit` requires of a certificate before it looks at the commit. -/
def MetadataAcceptance.wellFormed (value : MetadataAcceptance) : Bool :=
  decide (value.generation ≠ 0 ∧ value.hash ≠ Hash256.zero) &&
    (value.replicas[(0 : NodeId)]?).isNone &&
      if value.required ≠ 0 then decide (value.required ≤ value.replicas.size)
      else value.replicas.isEmpty

def acceptanceMatchesRecordPolicy (value : MetadataAcceptance) : Bool :=
  if (g.commit value.hash).metadataWriteReplicasRequired = 0 then
    decide (value.hash = g.genesis ∧ value.required = 0) && value.replicas.isEmpty
  else decide (value.required ≠ 0)

namespace HeadsReplica

def prune (s : HeadsReplica) : HeadsReplica :=
  { s with acceptedHeads := g.pruneHeads s.history s.acceptedHeads }

def storeCommit (s : HeadsReplica) (hash : Hash256) (encodedDelta : Bool) :
    Option HeadsReplica := do
  let c := g.commit hash
  guard (c.generation ≠ 0)
  let known := decide (1 < c.generation ∧ c.previous ≠ Hash256.zero) &&
    (s.history[c.previous]?).isSome
  guard (encodedDelta = true → known = true → g.deltaFits hash = true)
  if (s.history[hash]?).isSome then some s
  else some { s with history := s.history.insert hash known }

def importHistory (s : HeadsReplica) (hash : Hash256) (body : HistoryBody)
    (previousKnown : Bool) : Option HeadsReplica := do
  let c := g.commit hash
  guard (c.generation ≠ 0 ∧ hash ≠ Hash256.zero ∧ c.mergeParents.length ≤ 64)
  guard (body = .delta → previousKnown = true ∧ (s.history[c.previous]?).isSome = true ∧
    g.deltaFits hash = true)
  let known := previousKnown &&
    !(decide (body = .full ∧ c.previous ≠ Hash256.zero) && (s.history[c.previous]?).isNone)
  if (s.history[hash]?).isSome then some s
  else some (prune g { s with history := s.history.insert hash known })

/-- `accept_commit`, unless it returns false. -/
def acceptCommit (s : HeadsReplica) (value : MetadataAcceptance) : Option HeadsReplica := do
  guard (value.wellFormed = true)
  let s' := { s with everAccepted := value.hash :: s.everAccepted }
  if (s.acceptedHeads[value.hash]?).any fun held =>
      decide (held.generation = value.generation) && certificateAddsNothing held value then
    some s'
  else do
    guard ((s.history[value.hash]?).isSome = true ∧
      (g.commit value.hash).generation = value.generation)
    guard (acceptanceMatchesRecordPolicy g value = true)
    if s.acceptedHeads.keys.any fun head =>
        decide (head ≠ value.hash) && g.acceptedHeadIsAncestor s.history value.hash head then
      some { s' with acceptedHeads := s.acceptedHeads.erase value.hash }
    else
      let kept := s.acceptedHeads.filter fun head _ =>
        !(decide (head ≠ value.hash) && g.acceptedHeadIsAncestor s.history head value.hash)
      let held := (kept[value.hash]?).elim value (mergeCertificates · value)
      some (prune g { s' with acceptedHeads := kept.insert value.hash held })

def step (s : HeadsReplica) : HeadsEvent → Option HeadsReplica
  | .storeCommit hash encodedDelta => s.storeCommit g hash encodedDelta
  | .importHistory hash body previousKnown => s.importHistory g hash body previousKnown
  | .acceptCommit value => s.acceptCommit g value
  | .prune => some (s.prune g)

end HeadsReplica

abbrev HeadsStep := Computes (HeadsReplica.step g)

/-- A stored commit, reached from the descendant over stored commits, names the
ancestor. -/
def Ancestor (history : StoredCommits) (ancestor descendant : Hash256) : Prop :=
  ∃ last, LeadsTo (g.follow history) descendant last ∧ g.names history ancestor last = true

/-- Clocks tell commits apart: the clock of a new commit covers those of its parents and
is covered by those of the commits that name it; an accepted commit has a clock and a
generation after the first, unless it is the genesis, and no head has the same clock
unless one is an ancestor of the other. -/
def ClocksGrow (t : Transition HeadsReplica HeadsEvent) : Prop :=
  match t.event with
  | .storeCommit hash _ | .importHistory hash _ _ =>
    t.before.history[hash]? = none → (∀ p ∈ g.parents hash, (t.before.history[p]?).isSome = true →
        clockCoversClock (g.clock hash) (g.clock p) = true) ∧
      ∀ d : Hash256, (t.before.history[d]?).isSome = true → hash ∈ g.parents d →
        clockCoversClock (g.clock d) (g.clock hash) = true
  | .acceptCommit value =>
    (t.before.history[value.hash]?).isSome = true →
      (value.hash = g.genesis ∨ g.clock value.hash ≠ ∅ ∧
        (g.commit g.genesis).generation < (g.commit value.hash).generation) ∧
      ∀ h : Hash256, (t.before.acceptedHeads[h]?).isSome = true → h ≠ value.hash →
        g.clock h = g.clock value.hash →
          Ancestor g t.before.history h value.hash ∨ Ancestor g t.before.history value.hash h
  | .prune => True

end

/-! ## What ancestry says of clocks -/

section

variable {g : CommitGraph} {history : StoredCommits} {a b d x : Hash256}

theorem stored_of_follow (h : g.follow history x ≠ []) : x ∈ history.keys := by
  unfold CommitGraph.follow at h
  rw [OrdMap.mem_keys]
  cases hx : history[x]? with
  | none =>
    rw [hx] at h
    exact absurd rfl h
  | some _ => rfl

theorem mem_parents_of_follow (h : b ∈ g.follow history x) : b ∈ g.parents x := by
  unfold CommitGraph.follow at h
  split at h
  · cases h
  · rcases mem_append.1 h with h | h
    · split at h
      · rw [mem_singleton.1 h]
        exact mem_cons_self
      · cases h
    · exact mem_cons_of_mem _ h

theorem mem_parents_of_names (h : g.names history a x = true) :
    (history[x]?).isSome = true ∧ a ∈ g.parents x := by
  obtain ⟨hstored, h⟩ := (Bool.and_eq_true _ _).mp h
  refine ⟨hstored, ?_⟩
  rcases (Bool.or_eq_true _ _).mp h with h | h
  · rw [← (of_decide_eq_true h).2]
    exact mem_cons_self
  · exact mem_cons_of_mem _ (of_decide_eq_true h)

theorem historyIsAncestor_iff (hne : a ≠ d) :
    g.historyIsAncestor history a d = true ↔ Ancestor g history a d := by
  unfold CommitGraph.historyIsAncestor
  rw [if_neg hne]
  exact searchFrom_iff fun _ => stored_of_follow

/-- The clocks of stored commits cover those of their stored parents. -/
def ClocksMonotone (g : CommitGraph) (history : StoredCommits) : Prop :=
  ∀ d p : Hash256, (history[d]?).isSome = true → (history[p]?).isSome = true →
    p ∈ g.parents d → clockCoversClock (g.clock d) (g.clock p) = true

theorem covers_of_reached (grows : ClocksMonotone g history) (hx : (history[x]?).isSome = true)
    (h : LeadsTo (g.follow history) d x) :
    (history[d]?).isSome = true ∧ clockCoversClock (g.clock d) (g.clock x) = true := by
  induction h using Relation.ReflTransGen.head_induction_on with
  | refl => exact ⟨hx, clockCoversClock_refl _⟩
  | head hstep _ ih =>
    have hstored := (OrdMap.mem_keys _ _).1 (stored_of_follow (ne_nil_of_mem hstep))
    exact ⟨hstored, clockCoversClock_trans
      (grows _ _ hstored ih.1 (mem_parents_of_follow hstep)) ih.2⟩

theorem covers_of_ancestor (grows : ClocksMonotone g history) (ha : (history[a]?).isSome = true)
    (h : Ancestor g history a d) : clockCoversClock (g.clock d) (g.clock a) = true := by
  obtain ⟨last, hreached, hnames⟩ := h
  obtain ⟨hlast, hparent⟩ := mem_parents_of_names hnames
  exact clockCoversClock_trans (covers_of_reached grows hlast hreached).2
    (grows _ _ hlast ha hparent)

theorem covers_empty (clock : VersionClock) : clockCoversClock clock ∅ = true := by
  exact clockCoversClock_iff.2 fun node sequence h => elim_empty h

theorem covers_of_isAncestor (grows : ClocksMonotone g history) (ha : (history[a]?).isSome = true)
    (hne : a ≠ d) (h : g.acceptedHeadIsAncestor history a d = true) :
    clockCoversClock (g.clock d) (g.clock a) = true := by
  rcases (Bool.or_eq_true _ _).mp h with h | h
  · exact covers_of_ancestor grows ha ((historyIsAncestor_iff hne).1 h)
  · split at h
    · next hgenesis =>
      rw [hgenesis, CommitGraph.clock, CommitGraph.clock, g.clock_genesis]
      exact covers_empty _
    · exact ((Bool.and_eq_true _ _).mp h).2

theorem isAncestor_of_ancestor (hne : a ≠ d) (h : Ancestor g history a d) :
    g.acceptedHeadIsAncestor history a d = true :=
  (Bool.or_eq_true _ _).mpr (.inl ((historyIsAncestor_iff hne).2 h))

/-- The commit has a clock of its own, or is the genesis. -/
def Told (g : CommitGraph) (hash : Hash256) : Prop :=
  hash = g.genesis ∨ g.clock hash ≠ ∅ ∧ (g.commit g.genesis).generation < (g.commit hash).generation

theorem isAncestor_of_covers (ha : (history[a]?).isSome = true) (hb : (history[b]?).isSome = true)
    (hne : a ≠ b) (toldA : Told g a) (toldB : Told g b) (hclocks : g.clock a ≠ g.clock b)
    (h : clockCoversClock (g.clock b) (g.clock a) = true) :
    g.acceptedHeadIsAncestor history a b = true := by
  refine (Bool.or_eq_true _ _).mpr (.inr ?_)
  split
  · next hgenesis =>
    have hafter := (toldB.resolve_left fun hb => hne (hgenesis.trans hb.symm)).2
    rw [hb, decide_eq_true hafter]
    rfl
  · next hgenesis =>
    have hclock := (toldA.resolve_left hgenesis).1
    rw [ha, hb, h, decide_eq_true ⟨hclock, hclocks⟩]
    rfl

def CoveredByHead (g : CommitGraph) (heads : AcceptedHeads) (c : Hash256) : Prop :=
  ∃ h : Hash256, (heads[h]?).isSome = true ∧ clockCoversClock (g.clock h) (g.clock c) = true

variable {heads : AcceptedHeads} {head c : Hash256} {ks : List Hash256}

theorem isSome_of_erase {k : Hash256} (h : ((heads.erase k)[a]?).isSome = true) :
    k ≠ a ∧ (heads[a]?).isSome = true := by
  obtain ⟨value, hvalue⟩ := Option.isSome_iff_exists.1 h
  obtain ⟨hne, hold⟩ := getElem?_erase_eq_some hvalue
  rw [hold]
  exact ⟨hne, rfl⟩

theorem isSome_erase {k : Hash256} (hne : k ≠ a) (h : (heads[a]?).isSome = true) :
    ((heads.erase k)[a]?).isSome = true := by
  rw [show (heads.erase k)[a]? = heads[a]? from getElem?_erase_of_ne _ hne]
  exact h

theorem CoveredByHead.erase (h : CoveredByHead g heads c) {other : Hash256} (hne : head ≠ other)
    (hother : (heads[other]?).isSome = true)
    (hcovers : clockCoversClock (g.clock other) (g.clock head) = true) :
    CoveredByHead g (heads.erase head) c := by
  obtain ⟨holder, hholder, hc⟩ := h
  by_cases hsame : head = holder
  · subst hsame
    exact ⟨other, isSome_erase hne hother, clockCoversClock_trans hcovers hc⟩
  · exact ⟨holder, isSome_erase hsame hholder, hc⟩

theorem pruneHead_cases (g : CommitGraph) (history : StoredCommits) (heads : AcceptedHeads)
    (head : Hash256) :
    (∃ other : Hash256, head ≠ other ∧ (heads[other]?).isSome = true ∧
        g.acceptedHeadIsAncestor history head other = true ∧
          g.pruneHead history heads head = heads.erase head) ∨
      (∀ other : Hash256, head ≠ other → (heads[other]?).isSome = true →
        g.acceptedHeadIsAncestor history head other = false) ∧
          g.pruneHead history heads head = heads := by
  unfold CommitGraph.pruneHead
  split
  · next hany =>
    obtain ⟨other, hother, h⟩ := List.any_eq_true.1 hany
    obtain ⟨hne, hancestor⟩ := (Bool.and_eq_true _ _).mp h
    exact .inl ⟨other, (of_decide_eq_true hne).symm, (OrdMap.mem_keys _ _).1 hother, hancestor, rfl⟩
  · next hnone =>
    refine .inr ⟨fun other hne hother => ?_, rfl⟩
    by_contra hancestor
    refine hnone (List.any_eq_true.2 ⟨other, (OrdMap.mem_keys _ _).2 hother, ?_⟩)
    rw [decide_eq_true hne.symm, (Bool.not_eq_false _).mp hancestor]
    rfl

theorem pruneHead_subset (h : ((g.pruneHead history heads head)[a]?).isSome = true) :
    (heads[a]?).isSome = true := by
  rcases pruneHead_cases g history heads head with ⟨_, -, -, -, hprune⟩ | ⟨-, hprune⟩
  · rw [hprune] at h
    exact (isSome_of_erase h).2
  · rw [hprune] at h
    exact h

theorem foldl_pruneHead_subset (h : ((ks.foldl (g.pruneHead history) heads)[a]?).isSome = true) :
    (heads[a]?).isSome = true := by
  induction ks generalizing heads with
  | nil => exact h
  | cons k ks ih => exact pruneHead_subset (ih h)

/-- A head that was looked at and kept is no ancestor of one that is kept. -/
theorem foldl_pruneHead_antichain (ha : a ∈ ks) (hne : a ≠ b)
    (hkept : ((ks.foldl (g.pruneHead history) heads)[a]?).isSome = true)
    (hb : ((ks.foldl (g.pruneHead history) heads)[b]?).isSome = true) :
    g.acceptedHeadIsAncestor history a b = false := by
  induction ks generalizing heads with
  | nil => cases ha
  | cons k ks ih =>
    rcases mem_cons.1 ha with rfl | ha
    · have hhere : ((g.pruneHead history heads a)[a]?).isSome = true :=
        foldl_pruneHead_subset hkept
      rcases pruneHead_cases g history heads a with ⟨_, -, -, -, hprune⟩ | ⟨hnone, -⟩
      · rw [hprune] at hhere
        exact absurd rfl (isSome_of_erase hhere).1
      · exact hnone b hne (pruneHead_subset (foldl_pruneHead_subset hb))
    · exact ih ha hkept hb

theorem foldl_pruneHead_covered (grows : ClocksMonotone g history)
    (hstored : ∀ a : Hash256, (heads[a]?).isSome = true → (history[a]?).isSome = true)
    (h : CoveredByHead g heads c) :
    CoveredByHead g (ks.foldl (g.pruneHead history) heads) c := by
  induction ks generalizing heads with
  | nil => exact h
  | cons k ks ih =>
    refine ih (fun a ha => hstored a (pruneHead_subset ha)) ?_
    by_cases hk : (heads[k]?).isSome = true
    · rcases pruneHead_cases g history heads k with ⟨other, hne, hother, hanc, hprune⟩ | ⟨-, hprune⟩
      · rw [hprune]
        exact h.erase hne hother (covers_of_isAncestor grows (hstored k hk) hne hanc)
      · rw [hprune]
        exact h
    · rcases pruneHead_cases g history heads k with ⟨_, -, -, -, hprune⟩ | ⟨-, hprune⟩
      · rw [hprune, erase_eq_self (Option.not_isSome_iff_eq_none.1 hk)]
        exact h
      · rw [hprune]
        exact h

/-- All but that the heads are an antichain. -/
structure HeadsFit (g : CommitGraph) (s : HeadsReplica) : Prop where
  stored : ∀ a : Hash256, (s.acceptedHeads[a]?).isSome = true → (s.history[a]?).isSome = true
  grows : ClocksMonotone g s.history
  told : ∀ a : Hash256, (s.acceptedHeads[a]?).isSome = true → Told g a
  clocks : ∀ a b : Hash256, (s.acceptedHeads[a]?).isSome = true →
    (s.acceptedHeads[b]?).isSome = true → a ≠ b → g.clock a ≠ g.clock b
  covered : ∀ c ∈ s.everAccepted, CoveredByHead g s.acceptedHeads c

structure HeadsSound (g : CommitGraph) (s : HeadsReplica) : Prop extends HeadsFit g s where
  antichain : ∀ a b : Hash256, (s.acceptedHeads[a]?).isSome = true →
    (s.acceptedHeads[b]?).isSome = true → a ≠ b → g.acceptedHeadIsAncestor s.history a b = false

theorem HeadsFit.prune {s : HeadsReplica} (fit : HeadsFit g s) : HeadsSound g (s.prune g) where
  stored a ha := fit.stored a (foldl_pruneHead_subset ha)
  grows := fit.grows
  told a ha := fit.told a (foldl_pruneHead_subset ha)
  clocks a b ha hb := fit.clocks a b (foldl_pruneHead_subset ha) (foldl_pruneHead_subset hb)
  covered c hc := foldl_pruneHead_covered fit.grows fit.stored (fit.covered c hc)
  antichain _ _ ha hb hne :=
    foldl_pruneHead_antichain ((OrdMap.mem_keys _ _).2 (foldl_pruneHead_subset ha)) hne ha hb

namespace HeadsSound

variable {s next : HeadsReplica} {hash : Hash256}

theorem not_covers (inv : HeadsSound g s) (ha : (s.acceptedHeads[a]?).isSome = true)
    (hb : (s.acceptedHeads[b]?).isSome = true) (hne : a ≠ b) :
    clockCoversClock (g.clock b) (g.clock a) = false := by
  by_contra h
  have hancestor := isAncestor_of_covers (inv.stored a ha) (inv.stored b hb) hne (inv.told a ha)
    (inv.told b hb) (inv.clocks a b ha hb hne) ((Bool.not_eq_false _).mp h)
  rw [inv.antichain a b ha hb hne] at hancestor
  cases hancestor

theorem empty : HeadsSound g {} := by
  have hnone : ∀ a : Hash256, ¬ ((∅ : AcceptedHeads)[a]?).isSome = true := by
    intro a h
    cases h
  have hempty : ∀ a : Hash256, ¬ ((∅ : StoredCommits)[a]?).isSome = true := by
    intro a h
    cases h
  exact ⟨⟨fun a ha => absurd ha (hnone a), fun d _ hd => absurd hd (hempty d),
    fun a ha => absurd ha (hnone a), fun a _ ha => absurd ha (hnone a), nofun⟩,
    fun a _ ha => absurd ha (hnone a)⟩

theorem isSome_insert_of_isSome {ν : Type} {m : OrdMap Hash256 ν} {k : Hash256} {v : ν}
    (h : (m[a]?).isSome = true) : ((m.insert k v)[a]?).isSome = true := by
  by_cases hk : k = a
  · rw [hk, show (m.insert a v)[a]? = some v from getElem?_insert_self _ _ _]
    rfl
  · rw [show (m.insert k v)[a]? = m[a]? from getElem?_insert_of_ne _ _ hk]
    exact h

theorem eq_or_isSome_of_insert {ν : Type} {m : OrdMap Hash256 ν} {k : Hash256} {v : ν}
    (h : ((m.insert k v)[a]?).isSome = true) : k = a ∨ (m[a]?).isSome = true := by
  obtain ⟨value, hvalue⟩ := Option.isSome_iff_exists.1 h
  rcases getElem?_insert_eq_some hvalue with ⟨rfl, -⟩ | ⟨-, hold⟩
  · exact .inl rfl
  · rw [hold]
    exact .inr rfl

/-- A new commit whose clock fits those of its parents and of its children. -/
theorem monotone_insert (grows : ClocksMonotone g history) {known : Bool}
    (hparents : ∀ p ∈ g.parents hash, (history[p]?).isSome = true →
      clockCoversClock (g.clock hash) (g.clock p) = true)
    (hchildren : ∀ d : Hash256, (history[d]?).isSome = true → hash ∈ g.parents d →
      clockCoversClock (g.clock d) (g.clock hash) = true) :
    ClocksMonotone g (history.insert hash known) := by
  intro d p hd hp hparent
  rcases eq_or_isSome_of_insert hd with rfl | hd
  · rcases eq_or_isSome_of_insert hp with rfl | hp
    · exact clockCoversClock_refl _
    · exact hparents p hparent hp
  · rcases eq_or_isSome_of_insert hp with rfl | hp
    · exact hchildren d hd hparent
    · exact grows d p hd hp hparent

section

variable (inv : HeadsSound g s)

include inv

/-- More history makes no head an ancestor of another, since it would be covered. -/
theorem insert {known : Bool} (grows : ClocksMonotone g (s.history.insert hash known)) :
    HeadsSound g { s with history := s.history.insert hash known } where
  stored a ha := isSome_insert_of_isSome (inv.stored a ha)
  grows := grows
  __ := inv
  antichain a b ha hb hne := by
    by_contra h
    have hcovers := covers_of_isAncestor grows (isSome_insert_of_isSome (inv.stored a ha)) hne
      ((Bool.not_eq_false _).mp h)
    rw [inv.not_covers ha hb hne] at hcovers
    cases hcovers

theorem storeCommit {encodedDelta : Bool}
    (hsafe : ClocksGrow g ⟨s, .storeCommit hash encodedDelta, next⟩)
    (h : s.storeCommit g hash encodedDelta = some next) : HeadsSound g next := by
  obtain ⟨-, h⟩ := guard_bind_eq_some h
  obtain ⟨-, h⟩ := guard_bind_eq_some h
  split at h
  · cases h
    exact inv
  · next habsent =>
    cases h
    obtain ⟨hparents, hchildren⟩ := hsafe (Option.not_isSome_iff_eq_none.1 habsent)
    exact inv.insert (monotone_insert inv.grows hparents hchildren)

theorem importHistory {body : HistoryBody} {previousKnown : Bool}
    (hsafe : ClocksGrow g ⟨s, .importHistory hash body previousKnown, next⟩)
    (h : s.importHistory g hash body previousKnown = some next) : HeadsSound g next := by
  obtain ⟨-, h⟩ := guard_bind_eq_some h
  obtain ⟨-, h⟩ := guard_bind_eq_some h
  split at h
  · cases h
    exact inv
  · next habsent =>
    cases h
    obtain ⟨hparents, hchildren⟩ := hsafe (Option.not_isSome_iff_eq_none.1 habsent)
    exact (inv.insert (monotone_insert inv.grows hparents hchildren)).toHeadsFit.prune

omit inv in
theorem mem_kept (h : ((heads.filter fun head _ =>
      !(decide (head ≠ hash) && g.acceptedHeadIsAncestor history head hash))[a]?).isSome = true) :
    (heads[a]?).isSome = true ∧ (a ≠ hash → g.acceptedHeadIsAncestor history a hash = false) := by
  rw [OrdMap.getElem?_filter] at h
  obtain ⟨value, hvalue⟩ := Option.isSome_iff_exists.1 h
  obtain ⟨hold, htest⟩ := Option.filter_eq_some_iff.1 hvalue
  rw [hold]
  refine ⟨rfl, fun hne => ?_⟩
  rw [decide_eq_true hne, Bool.true_and, Bool.not_eq_true'] at htest
  exact htest

omit inv in
theorem isSome_kept (ha : (heads[a]?).isSome = true)
    (hnot : a ≠ hash → g.acceptedHeadIsAncestor history a hash = false) :
    ((heads.filter fun head _ =>
      !(decide (head ≠ hash) && g.acceptedHeadIsAncestor history head hash))[a]?).isSome = true := by
  obtain ⟨value, hvalue⟩ := Option.isSome_iff_exists.1 ha
  rw [OrdMap.getElem?_filter, hvalue]
  by_cases hne : a = hash
  · rw [hne]
    simp
  · rw [Option.filter_some, hnot hne]
    simp

theorem fit_insert {held : MetadataAcceptance}
    (hstored : (s.history[hash]?).isSome = true) (htold : Told g hash)
    (hclocks : ∀ h : Hash256, (s.acceptedHeads[h]?).isSome = true → h ≠ hash →
      g.clock h = g.clock hash → Ancestor g s.history h hash ∨ Ancestor g s.history hash h)
    (hfree : ∀ h : Hash256, (s.acceptedHeads[h]?).isSome = true → h ≠ hash →
      g.acceptedHeadIsAncestor s.history hash h = false) :
    HeadsFit g { s with
        acceptedHeads := (s.acceptedHeads.filter fun head _ =>
          !(decide (head ≠ hash) && g.acceptedHeadIsAncestor s.history head hash)).insert hash held
        everAccepted := hash :: s.everAccepted } := by
  have hself : ∀ heads : AcceptedHeads, ((heads.insert hash held)[hash]?).isSome = true := by
    intro heads
    rw [show (heads.insert hash held)[hash]? = some held from getElem?_insert_self _ _ _]
    rfl
  have hapart : ∀ h : Hash256, (s.acceptedHeads[h]?).isSome = true → h ≠ hash →
      g.acceptedHeadIsAncestor s.history h hash = false → g.clock h ≠ g.clock hash := by
    intro h hh hne hnot heq
    rcases hclocks h hh hne heq with hanc | hanc
    · rw [isAncestor_of_ancestor hne hanc] at hnot
      cases hnot
    · have hnone := hfree h hh hne
      rw [isAncestor_of_ancestor hne.symm hanc] at hnone
      cases hnone
  refine ⟨fun a ha => ?_, inv.grows, fun a ha => ?_, fun a b ha hb hne => ?_, fun c hc => ?_⟩
  · rcases eq_or_isSome_of_insert ha with rfl | ha
    · exact hstored
    · exact inv.stored a (mem_kept ha).1
  · rcases eq_or_isSome_of_insert ha with rfl | ha
    · exact htold
    · exact inv.told a (mem_kept ha).1
  · rcases eq_or_isSome_of_insert ha with rfl | ha
    · obtain ⟨hold, hnot⟩ := mem_kept ((eq_or_isSome_of_insert hb).resolve_left hne)
      exact (hapart b hold hne.symm (hnot hne.symm)).symm
    · obtain ⟨holdA, hnotA⟩ := mem_kept ha
      rcases eq_or_isSome_of_insert hb with rfl | hb
      · exact hapart a holdA hne (hnotA hne)
      · exact inv.clocks a b holdA (mem_kept hb).1 hne
  · rcases mem_cons.1 hc with rfl | hc
    · exact ⟨c, hself _, clockCoversClock_refl _⟩
    · obtain ⟨holder, hholder, hcovers⟩ := inv.covered c hc
      by_cases hsame : holder = hash
      · subst hsame
        exact ⟨holder, hself _, hcovers⟩
      · cases hanc : g.acceptedHeadIsAncestor s.history holder hash with
        | true =>
          exact ⟨hash, hself _, clockCoversClock_trans
            (covers_of_isAncestor inv.grows (inv.stored holder hholder) hsame hanc) hcovers⟩
        | false =>
          exact ⟨holder, isSome_insert_of_isSome (isSome_kept hholder fun _ => hanc), hcovers⟩

theorem acceptCommit {value : MetadataAcceptance}
    (hsafe : ClocksGrow g ⟨s, .acceptCommit value, next⟩) (h : s.acceptCommit g value = some next) :
    HeadsSound g next := by
  obtain ⟨-, h⟩ := guard_bind_eq_some h
  split at h
  · next hheld =>
    cases h
    refine ⟨⟨inv.stored, inv.grows, inv.told, inv.clocks, fun c hc => ?_⟩, inv.antichain⟩
    rcases mem_cons.1 hc with rfl | hc
    · obtain ⟨held, hin, -⟩ := (Option.any_eq_true _ _).1 hheld
      refine ⟨value.hash, ?_, clockCoversClock_refl _⟩
      rw [hin]
      rfl
    · exact inv.covered c hc
  · obtain ⟨⟨hstored, -⟩, h⟩ := guard_bind_eq_some h
    obtain ⟨-, h⟩ := guard_bind_eq_some h
    obtain ⟨htold, hclocks⟩ := hsafe hstored
    split at h
    · next hancestor =>
      cases h
      obtain ⟨head, hhead, htest⟩ := List.any_eq_true.1 hancestor
      obtain ⟨hne, hanc⟩ := (Bool.and_eq_true _ _).mp htest
      have hne' : value.hash ≠ head := (of_decide_eq_true hne).symm
      have hin := (OrdMap.mem_keys _ _).1 hhead
      have hcovers := covers_of_isAncestor inv.grows hstored hne' hanc
      refine ⟨⟨fun a ha => inv.stored a (isSome_of_erase ha).2, inv.grows,
        fun a ha => inv.told a (isSome_of_erase ha).2,
        fun a b ha hb => inv.clocks a b (isSome_of_erase ha).2 (isSome_of_erase hb).2,
        fun c hc => ?_⟩,
        fun a b ha hb => inv.antichain a b (isSome_of_erase ha).2 (isSome_of_erase hb).2⟩
      rcases mem_cons.1 hc with rfl | hc
      · exact ⟨head, isSome_erase hne' hin, hcovers⟩
      · exact (inv.covered c hc).erase hne' hin hcovers
    · next hnone =>
      have hfree : ∀ head : Hash256, (s.acceptedHeads[head]?).isSome = true →
          head ≠ value.hash → g.acceptedHeadIsAncestor s.history value.hash head = false := by
        intro head hhead hne
        by_contra hanc
        refine hnone (List.any_eq_true.2 ⟨head, (OrdMap.mem_keys _ _).2 hhead, ?_⟩)
        rw [decide_eq_true hne, (Bool.not_eq_false _).mp hanc]
        rfl
      cases h
      exact (inv.fit_insert hstored htold hclocks hfree).prune

end

end HeadsSound

end

/-! ## Heads that are not pruned, and heads that are lost -/

namespace FewCommits

def commit : Hash256 → Commit
  | [1] => { generation := 2, mutationSequences := (∅ : VersionClock).insert 1 1 }
  | [2] =>
    { generation := 4, previous := [3], mutationSequences := (∅ : VersionClock).insert 1 1 }
  | [3] =>
    { generation := 3, previous := [1], mutationSequences := (∅ : VersionClock).insert 1 1 }
  | [4] =>
    { generation := 3, previous := [1], mutationSequences := (∅ : VersionClock).insert 2 1 }
  | [5] =>
    { generation := 3
      previous := [1]
      mutationSequences := ((∅ : VersionClock).insert 1 1).insert 2 1 }
  | [6] =>
    { generation := 3, previous := [1], mutationSequences := (∅ : VersionClock).insert 1 2 }
  | _ => { generation := 1 }

def graph : CommitGraph := ⟨commit, [0], rfl, rfl⟩

/-- One replica, the author, holds the commit. -/
def certificate (hash : Hash256) : MetadataAcceptance where
  generation := (commit hash).generation
  hash := hash
  required := 1
  replicas := (∅ : OrdMap NodeId Unit).insert 7 ()

def after (events : List HeadsEvent) : HeadsReplica :=
  (events.foldlM (HeadsReplica.step graph) {}).getD {}

theorem run_after {events : List HeadsEvent}
    (h : (events.foldlM (HeadsReplica.step graph) {}).isSome = true) :
    ∃ trace, Run (Traced (HeadsStep graph)) {} trace (after events) ∧
      trace.map (·.event) = events := by
  exact exists_run_last h rfl

end FewCommits

namespace TwoBranches

open FewCommits

def next (s : HeadsReplica) (event : HeadsEvent) : HeadsReplica := (s.step graph event).getD {}

variable {s : HeadsReplica}

def rootStored : HeadsReplica := next {} (.storeCommit [1] false)

def rootAccepted : HeadsReplica := next rootStored (.acceptCommit (certificate [1]))

def firstStored : HeadsReplica := next rootAccepted (.storeCommit [5] true)

def firstAccepted : HeadsReplica := next firstStored (.acceptCommit (certificate [5]))

def secondImported : HeadsReplica := next firstAccepted (.importHistory [6] .full true)

def last : HeadsReplica := next secondImported (.acceptCommit (certificate [6]))

/-- What `ClocksGrow` asks of a new commit, over the commits here. -/
def fits (s : HeadsReplica) (hash : Hash256) : Bool :=
  ((graph.parents hash).all fun p =>
      !(s.history[p]?).isSome || clockCoversClock (graph.clock hash) (graph.clock p)) &&
    s.history.keys.all fun d =>
      decide (hash ∉ graph.parents d) || clockCoversClock (graph.clock d) (graph.clock hash)

/-- What it asks of an accepted commit. -/
def apart (s : HeadsReplica) (hash : Hash256) : Bool :=
  decide (graph.clock hash ≠ ∅ ∧ 1 < (commit hash).generation) &&
    s.acceptedHeads.keys.all fun h =>
      decide (h = hash) || decide (graph.clock h ≠ graph.clock hash)

end TwoBranches

end Macha
