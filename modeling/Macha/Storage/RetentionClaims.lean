import Macha.Library.Run
import Macha.Storage.Retention

/-!
# Claims are lost only to releases that saw them

`RetentionStore` keeps per origin the highest claim that stands and the highest
release. Claims may come late, out of order, or after the release that covers
them; what stands is still what no release of the object has observed.
-/

namespace Macha

open List OrdMap

structure RetentionStore where
  data : ClassLedger := {}
  control : ClassLedger := {}

namespace RetentionStore

def classFor (store : RetentionStore) : RetentionClass → ClassLedger
  | .data => store.data
  | .control => store.control

def setClass (store : RetentionStore) (type : RetentionClass) (ledger : ClassLedger) :
    RetentionStore :=
  match type with
  | .data => { store with data := ledger }
  | .control => { store with control := ledger }

def record (store : RetentionStore) (type : RetentionClass) (id : ObjectId) : Option ObjectState :=
  (store.classFor type).trie[id]?

def standsTo (store : RetentionStore) (type : RetentionClass) (id : ObjectId) (origin : NodeId) :
    Nat :=
  ((store.record type id).getD {}).addedTo origin

def retained (store : RetentionStore) (type : RetentionClass) (id : ObjectId) : Bool :=
  (store.classFor type).trie.retained id

end RetentionStore

inductive ClaimCall
  | retainBatch (type : RetentionClass) (ids : List ObjectId) (dot : RetentionDot)
  | releaseUnreferenced (type : RetentionClass) (live : ObjectId → Bool) (observed : VersionClock)
      (budget : Nat)

namespace RetentionStore

/-- One call; `retain_batch` throws on a dot without an origin or a sequence. -/
def call (store : RetentionStore) : ClaimCall → Option RetentionStore
  | .retainBatch type ids dot => do
    let trie ← (store.classFor type).trie.retainBatch ids dot
    some (store.setClass type { store.classFor type with trie })
  | .releaseUnreferenced type live observed budget =>
    some (store.setClass type
      ((store.classFor type).releaseUnreferenced live observed budget))

/-- The calls as steps; one that throws changes nothing. -/
def ClaimCallStep (store : RetentionStore) (call : ClaimCall) (next : RetentionStore) : Prop :=
  next = (store.call call).getD store

@[simp] theorem classFor_setClass (store : RetentionStore) (type other : RetentionClass)
    (ledger : ClassLedger) :
    (store.setClass type ledger).classFor other =
      if type = other then ledger else store.classFor other := by
  cases type <;> cases other <;> rfl

variable {store next : RetentionStore} {type : RetentionClass}

theorem getD_addRecord (dot : RetentionDot) (record : Option ObjectState) :
    (addRecord dot record).getD {} = (record.getD {}).applyAdd dot := by
  unfold addRecord
  split
  · next hsame => exact hsame.symm
  · rfl

theorem record_retainBatch {ids : List ObjectId} {dot : RetentionDot}
    (h : ClaimCallStep store (.retainBatch type ids dot) next)
    (hdot : dot.origin ≠ 0 ∧ dot.sequence ≠ 0) (other : RetentionClass) (id : ObjectId) :
    next.record other id =
      if type = other ∧ id ∈ ids then addRecord dot (store.record other id)
      else store.record other id := by
  have hvalid : ¬ (dot.origin = 0 ∨ dot.sequence = 0) := by
    rintro (hzero | hzero)
    · exact hdot.1 hzero
    · exact hdot.2 hzero
  have hnext : next = store.setClass type
      { store.classFor type with trie := (store.classFor type).trie.add ids dot } := by
    rw [h]
    unfold call RetentionLedger.retainBatch
    dsimp only
    rw [if_neg hvalid]
    rfl
  rw [hnext]
  unfold record
  rw [classFor_setClass]
  by_cases htype : type = other
  · subst htype
    rw [if_pos rfl, RetentionLedger.getElem?_add]
    simp
  · rw [if_neg htype, if_neg fun hboth => htype hboth.1]

theorem eq_of_refused {ids : List ObjectId} {dot : RetentionDot}
    (h : ClaimCallStep store (.retainBatch type ids dot) next)
    (hdot : ¬ (dot.origin ≠ 0 ∧ dot.sequence ≠ 0)) : next = store := by
  have hinvalid : dot.origin = 0 ∨ dot.sequence = 0 := by
    by_contra hvalid
    push Not at hvalid
    exact hdot hvalid
  rw [h]
  unfold call RetentionLedger.retainBatch
  dsimp only
  rw [if_pos hinvalid]
  rfl

theorem record_release {live : ObjectId → Bool} {observed : VersionClock} {budget : Nat}
    (h : ClaimCallStep store (.releaseUnreferenced type live observed budget) next)
    (other : RetentionClass) (id : ObjectId) :
    next.record other id =
      if type = other ∧ id ∈ (store.classFor type).released live observed budget then
        releaseRecord (ClassLedger.encodedClock observed) (store.record other id)
      else store.record other id := by
  have hnext : next = store.setClass type
      ((store.classFor type).releaseUnreferenced live observed budget) := h
  rw [hnext]
  unfold record
  rw [classFor_setClass]
  by_cases htype : type = other
  · subst htype
    rw [if_pos rfl, ClassLedger.getElem?_releaseUnreferenced]
    simp
  · rw [if_neg htype, if_neg fun hboth => htype hboth.1]

theorem getD_encodedClock_le (observed : VersionClock) (origin : NodeId) :
    (ClassLedger.encodedClock observed).getD origin 0 ≤ observed.getD origin 0 := by
  unfold ClassLedger.encodedClock
  rw [getD_eq, getD_eq, OrdMap.getElem?_filter]
  cases observed[origin]? with
  | none => exact Nat.le_refl _
  | some sequence =>
    rw [Option.filter_some]
    split
    · exact Nat.le_refl _
    · exact Nat.zero_le _

end RetentionStore

open RetentionStore

/-- The call released the object, and its observed clock has an entry for the
origin of at least the sequence. -/
def ReleasedDot (t : Transition RetentionStore ClaimCall) (type : RetentionClass) (id : ObjectId)
    (dot : RetentionDot) : Prop :=
  ∃ live observed budget, t.event = .releaseUnreferenced type live observed budget ∧
    id ∈ (t.before.classFor type).released live observed budget ∧
      ∃ sequence, observed[dot.origin]? = some sequence ∧ dot.sequence ≤ sequence

def RetainedDot (t : Transition RetentionStore ClaimCall) (type : RetentionClass) (id : ObjectId)
    (dot : RetentionDot) : Prop :=
  ∃ ids, t.event = .retainBatch type ids dot ∧ id ∈ ids ∧ dot.origin ≠ 0 ∧ dot.sequence ≠ 0

/-- The dot, or a later one of its origin, protects the object. -/
def Protects (store : RetentionStore) (type : RetentionClass) (id : ObjectId)
    (dot : RetentionDot) : Prop :=
  dot.sequence ≤ store.standsTo type id dot.origin

/-- A dot that protects the object stops doing so only through a release of the
object that observed it. -/
def StopsByRelease (t : Transition RetentionStore ClaimCall) : Prop :=
  ∀ type id dot, 0 < dot.sequence → Protects t.before type id dot →
    Protects t.after type id dot ∨ ReleasedDot t type id dot

/-- A claim no earlier release of the object covered leaves the object retained,
and protects it. -/
def RetainProtects (past : List (Transition RetentionStore ClaimCall))
    (t : Transition RetentionStore ClaimCall) : Prop :=
  ∀ type id dot, RetainedDot t type id dot → (∀ u ∈ past, ¬ ReleasedDot u type id dot) →
    Protects t.after type id dot ∧ t.after.retained type id = true

variable {type : RetentionClass} {id : ObjectId} {dot : RetentionDot} {observed : VersionClock}

theorem Protects.retained {store : RetentionStore} (hpos : 0 < dot.sequence)
    (h : Protects store type id dot) :
    store.retained type id = true := by
  unfold RetentionStore.retained
  have hclaimed := ObjectState.claimed_of_addedTo (Nat.lt_of_lt_of_le hpos h)
  unfold RetentionLedger.retained
  rw [RetentionLedger.state_eq]
  exact hclaimed

/-- What the records remember of releases comes from releases of the past. -/
def RemovedByRelease (past : List (Transition RetentionStore ClaimCall))
    (store : RetentionStore) : Prop :=
  ∀ type id (dot : RetentionDot), 0 < dot.sequence →
    dot.sequence ≤ ((store.record type id).getD {}).removedTo dot.origin →
      ∃ t ∈ past, ReleasedDot t type id dot

theorem exists_entry {origin : NodeId} {sequence : Nat} (hpos : 0 < sequence)
    (h : sequence ≤ observed.getD origin 0) :
    ∃ seen, observed[origin]? = some seen ∧ sequence ≤ seen := by
  rw [getD_eq] at h
  cases hseen : observed[origin]? with
  | none =>
    rw [hseen] at h
    have hzero : sequence ≤ 0 := h
    omega
  | some seen =>
    rw [hseen] at h
    exact ⟨seen, rfl, h⟩

theorem releasedDot_of_encoded {store next : RetentionStore} {live : ObjectId → Bool} {budget : Nat}
    (hpos : 0 < dot.sequence) (hid : id ∈ (store.classFor type).released live observed budget)
    (h : dot.sequence ≤ (ClassLedger.encodedClock observed).getD dot.origin 0) :
    ReleasedDot ⟨store, .releaseUnreferenced type live observed budget, next⟩ type id dot :=
  ⟨live, observed, budget, rfl, hid,
    exists_entry hpos (h.trans (getD_encodedClock_le observed dot.origin))⟩

theorem stopsByRelease_of_step {store next : RetentionStore} {call : ClaimCall}
    (h : ClaimCallStep store call next) : StopsByRelease ⟨store, call, next⟩ := by
  intro type id dot hpos hprotects
  unfold Protects standsTo at hprotects ⊢
  cases call with
  | retainBatch claimed ids added =>
    left
    by_cases hdot : added.origin ≠ 0 ∧ added.sequence ≠ 0
    · rw [record_retainBatch h hdot]
      split
      · rw [getD_addRecord, ObjectState.addedTo_applyAdd]
        split
        · exact hprotects.trans (le_max_left _ _)
        · exact hprotects
      · exact hprotects
    · rw [eq_of_refused h hdot]
      exact hprotects
  | releaseUnreferenced released live observed budget =>
    rw [record_release h]
    split
    · next hboth =>
      obtain ⟨rfl, hid⟩ := hboth
      obtain ⟨-, s, hs, -⟩ := ClassLedger.claimed_of_released hid
      have hrecord : store.record released id = some s := hs
      rw [hrecord] at hprotects ⊢
      show _ ≤ (s.applyRelease _).addedTo _ ∨ _
      rw [ObjectState.addedTo_applyRelease]
      split
      · next hcovered =>
        right
        exact releasedDot_of_encoded hpos hid (hprotects.trans hcovered)
      · exact .inl hprotects
    · exact .inl hprotects

variable {past : List (Transition RetentionStore ClaimCall)} {last : RetentionStore}

theorem removedByRelease_of_step {store next : RetentionStore} {call : ClaimCall}
    (inv : RemovedByRelease past store) (h : ClaimCallStep store call next) :
    RemovedByRelease (past ++ [⟨store, call, next⟩]) next := by
  have hkeep : ∀ type id (dot : RetentionDot), 0 < dot.sequence →
      dot.sequence ≤ ((store.record type id).getD {}).removedTo dot.origin →
        ∃ t ∈ past ++ [⟨store, call, next⟩], ReleasedDot t type id dot := by
    intro type id dot hpos hle
    obtain ⟨t, ht, hreleased⟩ := inv type id dot hpos hle
    exact ⟨t, mem_append_left _ ht, hreleased⟩
  intro type id dot hpos hle
  cases call with
  | retainBatch claimed ids added =>
    by_cases hdot : added.origin ≠ 0 ∧ added.sequence ≠ 0
    · rw [record_retainBatch h hdot] at hle
      split at hle
      · rw [getD_addRecord, ObjectState.removedTo_applyAdd] at hle
        exact hkeep type id dot hpos hle
      · exact hkeep type id dot hpos hle
    · rw [eq_of_refused h hdot] at hle
      exact hkeep type id dot hpos hle
  | releaseUnreferenced released live observed budget =>
    rw [record_release h] at hle
    split at hle
    · next hboth =>
      obtain ⟨rfl, hid⟩ := hboth
      obtain ⟨-, s, hs, -⟩ := ClassLedger.claimed_of_released hid
      have hrecord : store.record released id = some s := hs
      rw [hrecord] at hle
      have hmax : dot.sequence ≤ (s.applyRelease _).removedTo dot.origin := hle
      rw [ObjectState.removedTo_applyRelease] at hmax
      rcases le_max_iff.1 hmax with hold | hnew
      · refine hkeep released id dot hpos ?_
        rw [hrecord]
        exact hold
      · exact ⟨_, mem_append_right _ mem_cons_self, releasedDot_of_encoded hpos hid hnew⟩
    · exact hkeep type id dot hpos hle

theorem retainProtects_of_step {store next : RetentionStore} {call : ClaimCall}
    (inv : RemovedByRelease past store) (h : ClaimCallStep store call next) :
    RetainProtects past ⟨store, call, next⟩ := by
  rintro type id dot ⟨ids, hcall, hid, horigin, hsequence⟩ hnone
  have hcall : call = .retainBatch type ids dot := hcall
  subst hcall
  have hpos : 0 < dot.sequence := Nat.pos_of_ne_zero hsequence
  have huncovered : ((store.record type id).getD {}).removedTo dot.origin < dot.sequence := by
    by_contra hle
    obtain ⟨t, ht, hreleased⟩ := inv type id dot hpos (Nat.le_of_not_lt hle)
    exact hnone t ht hreleased
  have hprotects : Protects next type id dot := by
    unfold Protects standsTo
    rw [record_retainBatch h ⟨horigin, hsequence⟩, if_pos ⟨rfl, hid⟩, getD_addRecord,
      ObjectState.addedTo_applyAdd, if_pos ⟨rfl, huncovered⟩]
    exact le_max_right _ _
  exact ⟨hprotects, hprotects.retained hpos⟩

theorem Run.removedByRelease {events : List (Transition RetentionStore ClaimCall)}
    (run : Run (Traced ClaimCallStep) {} events last) :
    RemovedByRelease events last := by
  refine run.invariant (P := RemovedByRelease) ?_ ?_
  · intro type id dot hpos hle
    have hzero : ((RetentionStore.record {} type id).getD {}).removedTo dot.origin = 0 := by
      cases type <;> rfl
    omega
  · rintro past store ⟨before, call, after⟩ next inv ⟨hstep, rfl, rfl⟩
    exact removedByRelease_of_step inv hstep

theorem Run.claimLaws {events : List (Transition RetentionStore ClaimCall)}
    (run : Run (Traced ClaimCallStep) {} events last) :
    Always (fun past t => StopsByRelease t ∧ RetainProtects past t) events := by
  induction run with
  | refl => exact always_nil _
  | @snoc events store next event run hstep ih =>
    obtain ⟨before, call, after⟩ := event
    obtain ⟨hcall, rfl, rfl⟩ := hstep
    exact always_snoc.2
      ⟨ih, stopsByRelease_of_step hcall, retainProtects_of_step run.removedByRelease hcall⟩

theorem Run.protects {events : List (Transition RetentionStore ClaimCall)}
    (run : Run (Traced ClaimCallStep) {} events last)
    (hretained : ∃ t ∈ events, RetainedDot t type id dot)
    (hnone : ∀ t ∈ events, ¬ ReleasedDot t type id dot) : Protects last type id dot := by
  induction run with
  | refl =>
    obtain ⟨t, ht, -⟩ := hretained
    cases ht
  | @snoc events store next event run hstep ih =>
    obtain ⟨before, call, after⟩ := event
    obtain ⟨hcall, rfl, rfl⟩ := hstep
    have hpast : ∀ t ∈ events, ¬ ReleasedDot t type id dot :=
      fun t ht => hnone t (mem_append_left _ ht)
    obtain ⟨t, ht, hdot⟩ := hretained
    have hpos : 0 < dot.sequence := by
      obtain ⟨_, _, _, _, hsequence⟩ := hdot
      exact Nat.pos_of_ne_zero hsequence
    rcases mem_append.1 ht with ht | ht
    · have hbefore := ih ⟨t, ht, hdot⟩ hpast
      rcases stopsByRelease_of_step hcall type id dot hpos hbefore with hafter | hreleased
      · exact hafter
      · exact absurd hreleased (hnone _ (mem_append_right _ mem_cons_self))
    · rw [mem_singleton.1 ht] at hdot
      exact (retainProtects_of_step run.removedByRelease hcall type id dot hdot hpast).1

/-- In every interleaving of claims and releases a dot stops protecting an object
only through a release of the object that observed it, and a claim that no
earlier release of the object covered leaves the object retained; one that no
release covers at all keeps it retained to the end. -/
theorem claims_lost_only_to_observing_releases
    {events : List (Transition RetentionStore ClaimCall)} {last : RetentionStore}
    (run : Run (Traced ClaimCallStep) {} events last) :
    Always (fun past t => StopsByRelease t ∧ RetainProtects past t) events ∧
      ∀ type id dot, (∃ t ∈ events, RetainedDot t type id dot) →
        (∀ t ∈ events, ¬ ReleasedDot t type id dot) → last.retained type id = true := by
  refine ⟨run.claimLaws, fun type id dot hretained hnone => ?_⟩
  have hpos : 0 < dot.sequence := by
    obtain ⟨_, _, _, _, _, _, hsequence⟩ := hretained
    exact Nat.pos_of_ne_zero hsequence
  exact (run.protects hretained hnone).retained hpos

namespace ReleasedOneOfTwo

def object : ObjectId := [1]

def first : ClaimCall := .retainBatch .data [object] ⟨1, 4⟩

def second : ClaimCall := .retainBatch .data [object] ⟨2, 7⟩

/-- The release has seen the first author only. -/
def seen : VersionClock := (∅ : VersionClock).insert 1 4

def release : ClaimCall := .releaseUnreferenced .data (fun _ => false) seen 8

def afterFirst : RetentionStore := (RetentionStore.call {} first).getD {}

def afterSecond : RetentionStore := (afterFirst.call second).getD afterFirst

def afterRelease : RetentionStore := (afterSecond.call release).getD afterSecond

def events : List (Transition RetentionStore ClaimCall) :=
  [⟨{}, first, afterFirst⟩, ⟨afterFirst, second, afterSecond⟩, ⟨afterSecond, release, afterRelease⟩]

theorem second_not_released : ∀ t ∈ events, ¬ ReleasedDot t .data object ⟨2, 7⟩ := by
  rintro t ht ⟨live, observed, budget, hevent, -, sequence, hseen, -⟩
  simp only [events, mem_cons, not_mem_nil, or_false] at ht
  rcases ht with rfl | rfl | rfl
  · cases hevent
  · cases hevent
  · cases hevent
    cases hseen

/-- Two authors claim the object; a release that has seen one of them comes, and
the claim of the other still protects it. -/
theorem second_claim_protects : afterRelease.retained .data object = true ∧
      Always (fun past t => StopsByRelease t ∧ RetainProtects past t) events := by
  have run : Run (Traced ClaimCallStep) {} events afterRelease :=
    ((Run.refl.trace_snoc rfl).trace_snoc rfl).trace_snoc rfl
  obtain ⟨hlaws, hkept⟩ := claims_lost_only_to_observing_releases run
  refine ⟨hkept .data object ⟨2, 7⟩ ⟨_, mem_cons_of_mem _ mem_cons_self, ?_⟩
    second_not_released, hlaws⟩
  exact ⟨[object], rfl, mem_cons_self, by decide, by decide⟩

end ReleasedOneOfTwo

end Macha
