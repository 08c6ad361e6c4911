import Macha.Metadata.Types

/-!
# Retention claims

`RetentionStore` keeps for each object an observed-remove state: the claims
that stand, each a mutation of an author, and per author how far claims have
been released. A claim that was released before it came has no effect.
-/

namespace Macha

open List OrdMap

/-- The mutation that makes a claim. -/
structure RetentionDot where
  origin : NodeId := 0
  sequence : Nat := 0
deriving DecidableEq, Repr

/-- One object's observed-remove state. -/
structure ObjectState where
  adds : VersionClock := ∅
  removed : VersionClock := ∅
deriving DecidableEq

namespace ObjectState

def claimed (s : ObjectState) : Bool := !s.adds.isEmpty

/-- The dot was not released before it came. -/
def takes (s : ObjectState) (dot : RetentionDot) : Bool :=
  decide (s.removed.getD dot.origin 0 < dot.sequence)

/-- `apply_add_locked` for one object. -/
def applyAdd (s : ObjectState) (dot : RetentionDot) : ObjectState :=
  if !s.takes dot then s
  else if dot.sequence ≤ s.adds.getD dot.origin 0 then s
  else { s with adds := s.adds.insert dot.origin dot.sequence }

/-- One entry of the clock a release has observed. -/
def releaseOrigin (s : ObjectState) (seen : NodeId × Nat) : ObjectState :=
  let (origin, sequence) := seen
  if sequence = 0 then s
  else
    { adds :=
        match s.adds[origin]? with
        | some added => if added ≤ sequence then s.adds.erase origin else s.adds
        | none => s.adds
      removed := s.removed.insert origin (max (s.removed.getD origin 0) sequence) }

/-- `apply_release_locked` for one object. -/
def applyRelease (s : ObjectState) (observed : VersionClock) : ObjectState :=
  observed.toList.foldl releaseOrigin s

end ObjectState

/-- The claims of one class of objects. -/
abbrev RetentionLedger := OrdMap ObjectId ObjectState

namespace RetentionLedger

def state (ledger : RetentionLedger) (id : ObjectId) : ObjectState := ledger.getD id {}

def retained (ledger : RetentionLedger) (id : ObjectId) : Bool := (ledger.state id).claimed

def update (ledger : RetentionLedger) (id : ObjectId) (change : ObjectState → ObjectState) :
    RetentionLedger :=
  if change (ledger.state id) = ledger.state id then ledger
  else ledger.insert id (change (ledger.state id))

/-- `retain_batch`; a dot without an origin or a sequence is refused. -/
def retainBatch (ledger : RetentionLedger) (ids : List ObjectId) (dot : RetentionDot) :
    Option RetentionLedger :=
  if dot.origin = 0 ∨ dot.sequence = 0 then none
  else some (ids.foldl (fun ledger id => ledger.update id (·.applyAdd dot)) ledger)

/-- `apply_release_locked`; an object without a record is passed over. -/
def release (ledger : RetentionLedger) (ids : List ObjectId) (observed : VersionClock) :
    RetentionLedger :=
  ids.foldl (fun ledger id =>
    if ledger.contains id then ledger.update id (·.applyRelease observed) else ledger) ledger

/-- `apply_prune_locked` forgets the state of unclaimed objects. -/
def prune (ledger : RetentionLedger) (ids : List ObjectId) : RetentionLedger :=
  ids.foldl (fun ledger id => if ledger.retained id then ledger else ledger.erase id) ledger

end RetentionLedger

/-! ## What stands after each change -/

namespace ObjectState

variable {s : ObjectState} {dot : RetentionDot}

theorem claimed_iff :
    s.claimed = true ↔ ∃ (origin : NodeId) (sequence : Nat), s.adds[origin]? = some sequence := by
  unfold claimed
  rw [Bool.not_eq_true', ← Bool.not_eq_true, Std.ExtTreeMap.isEmpty_iff]
  constructor
  · intro hne
    by_contra hnone
    push Not at hnone
    refine hne (OrdMap.ext fun k => ?_)
    cases hk : s.adds[k]? with
    | none => simp
    | some v => exact (hnone k v hk).elim
  · rintro ⟨origin, sequence, hadd⟩ hempty
    simp [hempty] at hadd

theorem claimed_applyAdd (htakes : s.takes dot = true) : (s.applyAdd dot).claimed = true := by
  have hpos : 0 < dot.sequence := by
    have hlt := of_decide_eq_true htakes
    omega
  unfold applyAdd
  rw [htakes]
  simp only [Bool.not_true, Bool.false_eq_true, if_false]
  split
  · next hle =>
    rw [claimed_iff]
    cases hadd : s.adds[dot.origin]? with
    | none =>
      rw [Std.ExtTreeMap.getD_eq_getD_getElem?, hadd, Option.getD_none] at hle
      omega
    | some sequence => exact ⟨_, _, hadd⟩
  · rw [claimed_iff]
    exact ⟨dot.origin, dot.sequence, getElem?_insert_self _ _ _⟩

theorem applyAdd_of_not_takes (htakes : s.takes dot = false) : s.applyAdd dot = s := by
  unfold applyAdd
  simp [htakes]

variable {origin : NodeId} {sequence : Nat} {observed : VersionClock}

theorem releaseOrigin_adds {seen : NodeId × Nat}
    (h : (s.releaseOrigin seen).adds[origin]? = some sequence) :
    s.adds[origin]? = some sequence := by
  unfold releaseOrigin at h
  dsimp only at h
  split at h
  · exact h
  · split at h
    · split at h
      · rw [getElem?_erase] at h
        split at h
        · cases h
        · exact h
      · exact h
    · exact h

theorem applyRelease_adds (h : (s.applyRelease observed).adds[origin]? = some sequence) :
    s.adds[origin]? = some sequence := by
  unfold applyRelease at h
  generalize observed.toList = seen at h
  induction seen generalizing s with
  | nil => exact h
  | cons first rest ih => exact releaseOrigin_adds (ih h)

theorem claimed_of_applyRelease (h : (s.applyRelease observed).claimed = true) :
    s.claimed = true := by
  obtain ⟨origin, sequence, hadd⟩ := claimed_iff.1 h
  exact claimed_iff.2 ⟨origin, sequence, applyRelease_adds hadd⟩

end ObjectState

namespace RetentionLedger

variable (ledger : RetentionLedger)

theorem state_insert (id i : ObjectId) (s : ObjectState) :
    state (ledger.insert id s) i = if id = i then s else state ledger i := by
  unfold state
  rw [Std.ExtTreeMap.getD_eq_getD_getElem?, Std.ExtTreeMap.getD_eq_getD_getElem?,
    OrdMap.getElem?_insert]
  split <;> rfl

theorem state_update (id i : ObjectId) (change : ObjectState → ObjectState) :
    (ledger.update id change).state i =
      if id = i then change (ledger.state i) else ledger.state i := by
  unfold update
  split
  · next hsame =>
    split
    · next heq => rw [← heq, hsame]
    · rfl
  · rw [state_insert]
    split
    · next heq => rw [heq]
    · rfl

theorem state_erase (id i : ObjectId) :
    state (ledger.erase id) i = if id = i then {} else state ledger i := by
  unfold state
  rw [Std.ExtTreeMap.getD_eq_getD_getElem?, Std.ExtTreeMap.getD_eq_getD_getElem?, getElem?_erase]
  split <;> rfl

theorem retained_empty (id : ObjectId) : retained (∅ : RetentionLedger) id = false := by
  unfold retained state
  simp [ObjectState.claimed]

theorem retained_prune (ids : List ObjectId) (i : ObjectId) :
    (ledger.prune ids).retained i = ledger.retained i := by
  unfold prune
  induction ids generalizing ledger with
  | nil => rfl
  | cons id ids ih =>
    rw [foldl_cons, ih]
    split
    · rfl
    · next hunclaimed =>
      unfold retained at hunclaimed ⊢
      rw [state_erase]
      split
      · next heq =>
        subst heq
        simpa [ObjectState.claimed] using hunclaimed
      · rfl

theorem retained_of_release {ids : List ObjectId} {observed : VersionClock} {i : ObjectId}
    (h : (ledger.release ids observed).retained i = true) : ledger.retained i = true := by
  induction ids generalizing ledger with
  | nil => exact h
  | cons id ids ih =>
    have hstep := ih _ h
    dsimp only at hstep
    split at hstep
    · unfold retained at hstep ⊢
      rw [state_update] at hstep
      split at hstep
      · exact ObjectState.claimed_of_applyRelease hstep
      · exact hstep
    · exact hstep

end RetentionLedger

/-! ## Origin by origin -/

namespace ObjectState

/-- How far claims of the origin stand. -/
def addedTo (s : ObjectState) (origin : NodeId) : Nat := s.adds.getD origin 0

/-- How far claims of the origin were released. -/
def removedTo (s : ObjectState) (origin : NodeId) : Nat := s.removed.getD origin 0

/-- No clock has an entry of zero. -/
structure Sound (s : ObjectState) : Prop where
  adds : ∀ origin : NodeId, s.adds[origin]? ≠ some 0
  removed : ∀ origin : NodeId, s.removed[origin]? ≠ some 0

theorem clock_ext {a b : VersionClock} (ha : ∀ origin : NodeId, a[origin]? ≠ some 0)
    (hb : ∀ origin : NodeId, b[origin]? ≠ some 0)
    (h : ∀ origin, a.getD origin 0 = b.getD origin 0) : a = b := by
  refine OrdMap.ext fun origin => ?_
  have hvalue := h origin
  have hleft := ha origin
  have hright := hb origin
  rw [getD_eq, getD_eq] at hvalue
  cases hx : a[origin]? with
  | none =>
    cases hy : b[origin]? with
    | none => rfl
    | some y =>
      rw [hx, hy] at hvalue
      rw [hy, ← show 0 = y from hvalue] at hright
      exact absurd rfl hright
  | some x =>
    cases hy : b[origin]? with
    | none =>
      rw [hx, hy] at hvalue
      rw [hx, show x = 0 from hvalue] at hleft
      exact absurd rfl hleft
    | some y =>
      rw [hx, hy] at hvalue
      rw [show x = y from hvalue]

/-- What stands and what was released, origin by origin, is the state. -/
theorem ext_of_sound {s t : ObjectState} (hs : s.Sound) (ht : t.Sound)
    (hadds : ∀ origin, s.addedTo origin = t.addedTo origin)
    (hremoved : ∀ origin, s.removedTo origin = t.removedTo origin) : s = t := by
  obtain ⟨adds, removed⟩ := s
  obtain ⟨adds', removed'⟩ := t
  have hadds : adds = adds' := clock_ext hs.adds ht.adds hadds
  have hremoved : removed = removed' := clock_ext hs.removed ht.removed hremoved
  rw [hadds, hremoved]

variable {s : ObjectState}

theorem claimed_of_addedTo {origin : NodeId} (h : 0 < s.addedTo origin) : s.claimed = true := by
  unfold addedTo at h
  rw [getD_eq] at h
  rw [claimed_iff]
  cases hadd : s.adds[origin]? with
  | none =>
    rw [hadd] at h
    exact absurd h (Nat.lt_irrefl 0)
  | some sequence => exact ⟨origin, sequence, hadd⟩

theorem Sound.claimed_iff (hs : s.Sound) : s.claimed = true ↔ ∃ origin, 0 < s.addedTo origin := by
  constructor
  · intro h
    obtain ⟨origin, sequence, hadd⟩ := ObjectState.claimed_iff.1 h
    have hne := hs.adds origin
    refine ⟨origin, ?_⟩
    unfold addedTo
    rw [getD_eq, hadd]
    rw [hadd] at hne
    exact Nat.pos_of_ne_zero fun hzero => hne (congrArg some hzero)
  · rintro ⟨origin, hpos⟩
    exact claimed_of_addedTo hpos

theorem addedTo_applyAdd (s : ObjectState) (dot : RetentionDot) (origin : NodeId) :
    (s.applyAdd dot).addedTo origin =
      if dot.origin = origin ∧ s.removedTo origin < dot.sequence then
        max (s.addedTo origin) dot.sequence
      else s.addedTo origin := by
  unfold applyAdd takes
  by_cases htakes : s.removed.getD dot.origin 0 < dot.sequence
  · rw [decide_eq_true htakes]
    simp only [Bool.not_true, Bool.false_eq_true, if_false]
    by_cases horigin : dot.origin = origin
    · subst horigin
      have hcond : dot.origin = dot.origin ∧ s.removedTo dot.origin < dot.sequence :=
        ⟨rfl, htakes⟩
      split
      · next hle => exact (max_eq_left hle).symm
      · next hlt =>
        have hvalue : addedTo { s with adds := s.adds.insert dot.origin dot.sequence }
            dot.origin = dot.sequence := by
          unfold addedTo
          rw [getD_eq, getElem?_insert_self]
          rfl
        rw [hvalue]
        unfold addedTo
        omega
    · have hcond : ¬ (dot.origin = origin ∧ s.removedTo origin < dot.sequence) :=
        fun h => horigin h.1
      split
      · rfl
      · unfold addedTo
        rw [getD_eq, getElem?_insert_of_ne _ _ horigin, ← getD_eq]
  · rw [decide_eq_false htakes]
    simp only [Bool.not_false, if_true]
    rw [if_neg]
    rintro ⟨rfl, hlt⟩
    exact htakes hlt

theorem removedTo_applyAdd (s : ObjectState) (dot : RetentionDot) (origin : NodeId) :
    (s.applyAdd dot).removedTo origin = s.removedTo origin := by
  unfold applyAdd
  split
  · rfl
  · split
    · rfl
    · rfl

theorem Sound.applyAdd (hs : s.Sound) (dot : RetentionDot) : (s.applyAdd dot).Sound := by
  unfold ObjectState.applyAdd
  split
  · exact hs
  · next htakes =>
    split
    · exact hs
    · refine ⟨fun origin => ?_, hs.removed⟩
      rw [OrdMap.getElem?_insert]
      split
      · intro hzero
        rw [Bool.not_eq_true', Bool.not_eq_false] at htakes
        have hlt := of_decide_eq_true htakes
        have hsequence : dot.sequence = 0 := Option.some_inj.1 hzero
        omega
      · exact hs.adds origin

/-- What one entry of the observed clock leaves of the claims that stand. -/
def releaseAdds (adds : VersionClock) (seen : NodeId × Nat) : VersionClock :=
  if seen.2 = 0 then adds
  else
    match adds[seen.1]? with
    | some added => if added ≤ seen.2 then adds.erase seen.1 else adds
    | none => adds

def releaseRemoved (removed : VersionClock) (seen : NodeId × Nat) : VersionClock :=
  if seen.2 = 0 then removed
  else removed.insert seen.1 (max (removed.getD seen.1 0) seen.2)

theorem foldl_releaseOrigin (seen : List (NodeId × Nat)) (s : ObjectState) :
    seen.foldl releaseOrigin s =
      ⟨seen.foldl releaseAdds s.adds, seen.foldl releaseRemoved s.removed⟩ := by
  induction seen generalizing s with
  | nil => rfl
  | cons first rest ih =>
    have hone : s.releaseOrigin first =
        ⟨releaseAdds s.adds first, releaseRemoved s.removed first⟩ := by
      unfold releaseOrigin releaseAdds releaseRemoved
      dsimp only
      split
      · rfl
      · rfl
    rw [foldl_cons, hone, ih]
    rfl

theorem releaseAdds_getElem? (adds : VersionClock) (observed : VersionClock) (origin : NodeId) :
    (observed.toList.foldl releaseAdds adds)[origin]? =
      match observed[origin]? with
      | some sequence =>
        if sequence = 0 then adds[origin]? else adds[origin]?.filter fun n => decide (sequence < n)
      | none => adds[origin]? := by
  have hfold := getElem?_foldl_toList observed releaseAdds
    (fun _ sequence added =>
      if sequence = 0 then added else added.filter fun n => decide (sequence < n))
  rw [hfold]
  · cases observed[origin]? <;> rfl
  · intro m seen
    unfold releaseAdds
    split
    · rfl
    · cases hadd : m[seen.1]? with
      | none =>
        rw [hadd]
        rfl
      | some added =>
        dsimp only
        by_cases hle : added ≤ seen.2
        · rw [if_pos hle, getElem?_erase, if_pos rfl, Option.filter_some,
            decide_eq_false (Nat.not_lt.2 hle)]
          rfl
        · rw [if_neg hle, hadd, Option.filter_some, decide_eq_true (Nat.lt_of_not_le hle)]
          rfl
  · intro m seen a hne
    unfold releaseAdds
    split
    · rfl
    · split
      · split
        · rw [getElem?_erase, if_neg hne]
        · rfl
      · rfl

theorem releaseRemoved_getElem? (removed : VersionClock) (observed : VersionClock)
    (origin : NodeId) :
    (observed.toList.foldl releaseRemoved removed)[origin]? =
      match observed[origin]? with
      | some sequence =>
        if sequence = 0 then removed[origin]?
        else some (max (removed[origin]?.getD 0) sequence)
      | none => removed[origin]? := by
  have hfold := getElem?_foldl_toList observed releaseRemoved
    (fun _ sequence old => if sequence = 0 then old else some (max (old.getD 0) sequence))
  rw [hfold]
  · cases observed[origin]? <;> rfl
  · intro m seen
    unfold releaseRemoved
    split
    · rfl
    · rw [getElem?_insert_self, getD_eq]
  · intro m seen a hne
    unfold releaseRemoved
    split
    · rfl
    · rw [getElem?_insert_of_ne _ _ hne]

theorem addedTo_applyRelease (s : ObjectState) (observed : VersionClock) (origin : NodeId) :
    (s.applyRelease observed).addedTo origin =
      if s.addedTo origin ≤ observed.getD origin 0 then 0 else s.addedTo origin := by
  unfold applyRelease addedTo
  rw [foldl_releaseOrigin]
  simp only [getD_eq]
  rw [releaseAdds_getElem?]
  cases hseen : observed[origin]? with
  | none =>
    simp only [Option.getD_none, Nat.le_zero]
    split
    · next hzero => exact hzero
    · rfl
  | some sequence =>
    cases hadd : s.adds[origin]? with
    | none => simp
    | some added =>
      by_cases hzero : sequence = 0
      · subst hzero
        simp only [if_true, Option.getD_some, Nat.le_zero]
        split
        · next h => exact h
        · rfl
      · simp only [if_neg hzero, Option.getD_some]
        by_cases hle : added ≤ sequence
        · rw [Option.filter_some, decide_eq_false (Nat.not_lt.2 hle), if_pos hle]
          rfl
        · rw [Option.filter_some, decide_eq_true (Nat.lt_of_not_le hle), if_neg hle]
          rfl

theorem removedTo_applyRelease (s : ObjectState) (observed : VersionClock) (origin : NodeId) :
    (s.applyRelease observed).removedTo origin =
      max (s.removedTo origin) (observed.getD origin 0) := by
  unfold applyRelease removedTo
  rw [foldl_releaseOrigin]
  simp only [getD_eq]
  rw [releaseRemoved_getElem?]
  cases hseen : observed[origin]? with
  | none => simp
  | some sequence =>
    dsimp only
    split
    · next hzero => simp [hzero]
    · rfl

theorem Sound.applyRelease (hs : s.Sound) (observed : VersionClock) :
    (s.applyRelease observed).Sound := by
  unfold ObjectState.applyRelease
  rw [foldl_releaseOrigin]
  constructor
  · intro origin
    rw [releaseAdds_getElem?]
    split
    · split
      · exact hs.adds origin
      · intro h
        exact hs.adds origin (Option.eq_some_of_filter_eq_some h)
    · exact hs.adds origin
  · intro origin
    rw [releaseRemoved_getElem?]
    split
    · split
      · exact hs.removed origin
      · next hne =>
        intro h
        have hmax := Option.some_inj.1 h
        omega
    · exact hs.removed origin

/-! ### Twice is once -/

theorem applyAdd_applyAdd (s : ObjectState) (dot : RetentionDot) :
    (s.applyAdd dot).applyAdd dot = s.applyAdd dot := by
  by_cases htakes : s.takes dot = true
  · by_cases hle : dot.sequence ≤ s.adds.getD dot.origin 0
    · have hsame : s.applyAdd dot = s := by
        unfold applyAdd
        rw [htakes, if_pos hle]
        rfl
      rw [hsame, hsame]
    · have hnew : s.applyAdd dot = { s with adds := s.adds.insert dot.origin dot.sequence } := by
        unfold applyAdd
        rw [htakes, if_neg hle]
        rfl
      rw [hnew]
      unfold applyAdd
      split
      · rfl
      · rw [if_pos]
        rw [getD_eq, getElem?_insert_self]
        exact Nat.le_refl _
  · have hsame : s.applyAdd dot = s := applyAdd_of_not_takes (Bool.not_eq_true _ ▸ htakes)
    rw [hsame, hsame]

theorem applyRelease_applyRelease (s : ObjectState) (observed : VersionClock) :
    (s.applyRelease observed).applyRelease observed = s.applyRelease observed := by
  unfold applyRelease
  rw [foldl_releaseOrigin, foldl_releaseOrigin, ObjectState.mk.injEq]
  constructor
  · refine OrdMap.ext fun origin => ?_
    rw [releaseAdds_getElem?, releaseAdds_getElem?]
    cases observed[origin]? with
    | none => rfl
    | some sequence =>
      dsimp only
      split
      · rfl
      · simp
  · refine OrdMap.ext fun origin => ?_
    rw [releaseRemoved_getElem?, releaseRemoved_getElem?]
    cases observed[origin]? with
    | none => rfl
    | some sequence =>
      dsimp only
      split
      · rfl
      · rw [Option.getD_some, max_assoc, max_self]

end ObjectState

/-- One object's record through a claim; a claim without effect makes none. -/
def addRecord (dot : RetentionDot) (record : Option ObjectState) : Option ObjectState :=
  if (record.getD {}).applyAdd dot = record.getD {} then record
  else some ((record.getD {}).applyAdd dot)

def releaseRecord (observed : VersionClock) (record : Option ObjectState) : Option ObjectState :=
  record.map (·.applyRelease observed)

def pruneRecord (record : Option ObjectState) : Option ObjectState :=
  record.filter ObjectState.claimed

theorem addRecord_addRecord (dot : RetentionDot) (record : Option ObjectState) :
    addRecord dot (addRecord dot record) = addRecord dot record := by
  by_cases hsame : (record.getD {}).applyAdd dot = record.getD {}
  · have hone : addRecord dot record = record := if_pos hsame
    rw [hone, hone]
  · have hone : addRecord dot record = some ((record.getD {}).applyAdd dot) := if_neg hsame
    rw [hone]
    exact if_pos (ObjectState.applyAdd_applyAdd _ _)

theorem releaseRecord_releaseRecord (observed : VersionClock) (record : Option ObjectState) :
    releaseRecord observed (releaseRecord observed record) = releaseRecord observed record := by
  cases record with
  | none => rfl
  | some s => exact congrArg some (s.applyRelease_applyRelease observed)

theorem pruneRecord_pruneRecord (record : Option ObjectState) :
    pruneRecord (pruneRecord record) = pruneRecord record := by
  unfold pruneRecord
  simp

namespace RetentionLedger

variable (ledger : RetentionLedger)

def add (ids : List ObjectId) (dot : RetentionDot) : RetentionLedger :=
  ids.foldl (fun ledger id => ledger.update id (·.applyAdd dot)) ledger

theorem state_eq (id : ObjectId) : ledger.state id = ledger[id]?.getD {} :=
  getD_eq _ _ _

theorem getElem?_update (id i : ObjectId) (change : ObjectState → ObjectState) :
    (ledger.update id change)[i]? =
      if id = i then
        if change (ledger[i]?.getD {}) = ledger[i]?.getD {} then ledger[i]?
        else some (change (ledger[i]?.getD {}))
      else ledger[i]? := by
  unfold update
  rw [state_eq]
  by_cases hid : id = i
  · subst hid
    rw [if_pos rfl]
    split
    · rfl
    · exact getElem?_insert_self _ _ _
  · split
    · rfl
    · exact getElem?_insert_of_ne _ _ hid

theorem getElem?_add (ids : List ObjectId) (dot : RetentionDot) (i : ObjectId) :
    (ledger.add ids dot)[i]? = if i ∈ ids then addRecord dot ledger[i]? else ledger[i]? := by
  unfold add
  convert @getElem?_foldl_keys _ _ _
    (fun ledger id => update ledger id (·.applyAdd dot)) (addRecord dot)
    (fun m k => (getElem?_update m k k _).trans (if_pos rfl))
    (fun m k a hne => (getElem?_update m k a _).trans (if_neg hne))
    ids (.inr (addRecord_addRecord dot)) ledger i

theorem getElem?_release_self (observed : VersionClock) (id : ObjectId) :
    (if ledger.contains id then ledger.update id (·.applyRelease observed)
      else ledger)[id]? = releaseRecord observed ledger[id]? := by
  cases hget : ledger[id]? with
  | none =>
    rw [if_neg]
    · exact hget
    · rw [OrdMap.contains_iff, hget]
      nofun
  | some s =>
    rw [if_pos]
    · rw [getElem?_update, if_pos rfl, hget]
      dsimp only [Option.getD_some]
      split
      · next hsame =>
        show some s = some (s.applyRelease observed)
        rw [hsame]
      · rfl
    · rw [OrdMap.contains_iff, hget]
      rfl

theorem getElem?_release (ids : List ObjectId) (observed : VersionClock) (i : ObjectId) :
    (ledger.release ids observed)[i]? =
      if i ∈ ids then releaseRecord observed ledger[i]? else ledger[i]? := by
  unfold release
  convert @getElem?_foldl_keys _ _ _
    (fun ledger id =>
      if ledger.contains id then update ledger id (·.applyRelease observed) else ledger)
    (releaseRecord observed) (fun m k => getElem?_release_self m observed k)
    (fun m k a hne => by
      split
      · rw [getElem?_update, if_neg hne]
      · rfl)
    ids (.inr (releaseRecord_releaseRecord observed)) ledger i

theorem getElem?_prune_self (id : ObjectId) :
    (if ledger.retained id then ledger else ledger.erase id)[id]? = pruneRecord ledger[id]? := by
  unfold retained
  rw [state_eq]
  cases hget : ledger[id]? with
  | none =>
    rw [if_neg]
    · rw [getElem?_erase, if_pos rfl]
      rfl
    · simp [ObjectState.claimed]
  | some s =>
    unfold pruneRecord
    rw [Option.filter_some]
    dsimp only [Option.getD_some]
    split
    · exact hget
    · rw [getElem?_erase, if_pos rfl]

theorem getElem?_prune (ids : List ObjectId) (i : ObjectId) :
    (ledger.prune ids)[i]? = if i ∈ ids then pruneRecord ledger[i]? else ledger[i]? := by
  unfold prune
  convert @getElem?_foldl_keys _ _ _
    (fun ledger id => if retained ledger id then ledger else ledger.erase id)
    pruneRecord getElem?_prune_self
    (fun m k a hne => by
      split
      · rfl
      · rw [getElem?_erase, if_neg hne])
    ids (.inr pruneRecord_pruneRecord) ledger i

end RetentionLedger

/-- The objects of DATA, and those of the namespace and catalogue. -/
inductive RetentionClass
  | data
  | control
deriving DecidableEq, Repr

/-- The claims of one class, and where the last scans stopped. -/
structure ClassLedger where
  trie : RetentionLedger := ∅
  releaseAfter : Option ObjectId := none
  pruneAfter : Option ObjectId := none

namespace ClassLedger

/-- The order `scan_locked` visits records in: those after the cursor, then the
others from the first. Where none is after the cursor it stops at the second one. -/
def scanOrder (trie : RetentionLedger) (cursor : Option ObjectId) : List (ObjectId × ObjectState) :=
  match cursor with
  | none => trie.toList
  | some after =>
    if (trie.toList.filter fun item => after < item.1) = [] then trie.toList.take 1
    else
      trie.toList.filter (fun item => after < item.1) ++
        trie.toList.filter fun item => item.1 ≤ after

/-- The visits of `release_unreferenced`: up to the budget it gathers claimed
objects that are not live, and the cursor follows. -/
def scanClaims (live : ObjectId → Bool) (budget : Nat) :
    List (ObjectId × ObjectState) → Option ObjectId → List ObjectId →
      List ObjectId × Option ObjectId
  | [], cursor, candidates => (candidates, cursor)
  | (id, record) :: rest, _, candidates =>
    let candidates := if record.claimed && !live id then candidates ++ [id] else candidates
    if candidates.length < budget then scanClaims live budget rest (some id) candidates
    else (candidates, some id)

/-- What a call of `release_unreferenced` comes across, and the cursor after it. -/
def releaseCandidates (ledger : ClassLedger) (live : ObjectId → Bool) (budget : Nat) :
    List ObjectId × Option ObjectId :=
  scanClaims live budget
    ((scanOrder ledger.trie ledger.releaseAfter).take (max (budget * 128) 8192))
    ledger.releaseAfter []

/-- The entries of the observed clock that say something. -/
def encodedClock (observed : VersionClock) : VersionClock :=
  observed.filter fun node sequence => decide (node ≠ 0 ∧ sequence ≠ 0)

def releaseUnreferenced (ledger : ClassLedger) (live : ObjectId → Bool) (observed : VersionClock)
    (budget : Nat) : ClassLedger :=
  if budget = 0 ∨ (encodedClock observed).isEmpty then ledger
  else if ledger.trie.isEmpty then { ledger with releaseAfter := none }
  else
    let (candidates, cursor) := ledger.releaseCandidates live budget
    { ledger with
      releaseAfter := cursor
      trie := ledger.trie.release candidates (encodedClock observed) }

/-- The objects a call of `release_unreferenced` releases. -/
def released (ledger : ClassLedger) (live : ObjectId → Bool) (observed : VersionClock)
    (budget : Nat) : List ObjectId :=
  if budget = 0 ∨ (encodedClock observed).isEmpty ∨ ledger.trie.isEmpty then []
  else (ledger.releaseCandidates live budget).1

theorem getElem?_releaseUnreferenced (ledger : ClassLedger) (live : ObjectId → Bool)
    (observed : VersionClock) (budget : Nat) (i : ObjectId) :
    (ledger.releaseUnreferenced live observed budget).trie[i]? =
      if i ∈ ledger.released live observed budget then
        releaseRecord (encodedClock observed) ledger.trie[i]?
      else ledger.trie[i]? := by
  unfold releaseUnreferenced released
  by_cases hnothing : budget = 0 ∨ (encodedClock observed).isEmpty
  · have hnone : budget = 0 ∨ (encodedClock observed).isEmpty ∨ ledger.trie.isEmpty := by
      rcases hnothing with h | h
      · exact .inl h
      · exact .inr (.inl h)
    rw [if_pos hnothing, if_pos hnone]
    simp
  · rw [if_neg hnothing]
    by_cases hempty : ledger.trie.isEmpty = true
    · have hnone : budget = 0 ∨ (encodedClock observed).isEmpty ∨ ledger.trie.isEmpty :=
        .inr (.inr hempty)
      rw [if_pos hempty, if_pos hnone]
      simp
    · have hsome : ¬ (budget = 0 ∨ (encodedClock observed).isEmpty ∨ ledger.trie.isEmpty) := by
        rintro (h | h | h)
        · exact hnothing (.inl h)
        · exact hnothing (.inr h)
        · exact hempty h
      rw [if_neg hempty, if_neg hsome]
      exact RetentionLedger.getElem?_release _ _ _ _

variable {live : ObjectId → Bool} {budget : Nat} {cursor : Option ObjectId}

theorem mem_scanClaims {items : List (ObjectId × ObjectState)} {found : List ObjectId}
    {id : ObjectId} (h : id ∈ (scanClaims live budget items cursor found).1) :
    id ∈ found ∨ ∃ record, (id, record) ∈ items ∧ record.claimed = true ∧ live id = false := by
  induction items generalizing cursor found with
  | nil => exact .inl h
  | cons item items ih =>
    obtain ⟨key, record⟩ := item
    have hfound : ∀ x, x ∈ (if record.claimed && !live key then found ++ [key] else found) →
        x ∈ found ∨ ∃ r, (x, r) ∈ (key, record) :: items ∧ r.claimed = true ∧ live x = false := by
      intro x hx
      split at hx
      · next hkey =>
        rw [Bool.and_eq_true, Bool.not_eq_true'] at hkey
        rcases mem_append.1 hx with hx | hx
        · exact .inl hx
        · rw [mem_singleton.1 hx]
          exact .inr ⟨record, mem_cons_self, hkey⟩
      · exact .inl hx
    unfold scanClaims at h
    dsimp only at h
    generalize (if record.claimed && !live key then found ++ [key] else found) = next at h hfound
    split at h
    · rcases ih h with h | ⟨r, hr, hrest⟩
      · exact hfound id h
      · exact .inr ⟨r, mem_cons_of_mem _ hr, hrest⟩
    · exact hfound id h

theorem mem_scanOrder {trie : RetentionLedger} {item : ObjectId × ObjectState}
    (h : item ∈ scanOrder trie cursor) : item ∈ trie.toList := by
  unfold scanOrder at h
  split at h
  · exact h
  · split at h
    · exact mem_of_mem_take h
    · rcases mem_append.1 h with h | h
      · exact (mem_filter.1 h).1
      · exact (mem_filter.1 h).1

theorem claimed_of_released {ledger : ClassLedger} {observed : VersionClock} {i : ObjectId}
    (h : i ∈ ledger.released live observed budget) :
    live i = false ∧ ∃ s, ledger.trie[i]? = some s ∧ s.claimed = true := by
  unfold released at h
  split at h
  · cases h
  · rcases mem_scanClaims h with h | ⟨record, hmem, hclaimed, hlive⟩
    · cases h
    · exact ⟨hlive, record,
        (OrdMap.mem_toList _ _ _).1 (mem_scanOrder (mem_of_mem_take hmem)), hclaimed⟩

end ClassLedger

end Macha
