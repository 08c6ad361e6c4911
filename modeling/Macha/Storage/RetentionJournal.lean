import Macha.Library.Collect
import Macha.Storage.RetentionClaims

/-!
# Recovering claims from the log

Every add, release and prune is written to `claims.log` before it is applied. A
checkpoint saves the data trie, then the control trie, and then empties the log;
a start replays the log over the tries as they were saved. When a crash comes
between, a trie already has part of the log, and replaying it again is harmless
as long as that part does not forget the object: a prune drops what was released,
and the operations before it act once more on what came after.
-/

namespace Macha

open List Option

/-- A frame of `claims.log`. -/
inductive JournalOp
  | add (type : RetentionClass) (dot : RetentionDot) (ids : List ObjectId)
  | release (type : RetentionClass) (observed : VersionClock) (ids : List ObjectId)
  | prune (type : RetentionClass) (ids : List ObjectId)

abbrev RetentionTries := RetentionClass → RetentionLedger

namespace JournalOp

def apply (op : JournalOp) (tries : RetentionTries) : RetentionTries :=
  match op with
  | add type dot ids => Function.update tries type ((tries type).add ids dot)
  | release type observed ids => Function.update tries type ((tries type).release ids observed)
  | prune type ids => Function.update tries type ((tries type).prune ids)

def onRecord (type : RetentionClass) (id : ObjectId) (op : JournalOp)
    (record : Option ObjectState) : Option ObjectState :=
  match op with
  | add t dot ids => if t = type ∧ id ∈ ids then addRecord dot record else record
  | release t observed ids => if t = type ∧ id ∈ ids then releaseRecord observed record else record
  | prune t ids => if t = type ∧ id ∈ ids then pruneRecord record else record

def Touches (type : RetentionClass) (id : ObjectId) : JournalOp → Prop
  | add t _ ids => t = type ∧ id ∈ ids
  | release t _ ids => t = type ∧ id ∈ ids
  | prune t ids => t = type ∧ id ∈ ids

def Prunes (type : RetentionClass) (id : ObjectId) : JournalOp → Prop
  | prune t ids => t = type ∧ id ∈ ids
  | _ => False

theorem onRecord_of_not_touches {type : RetentionClass} {id : ObjectId} {op : JournalOp}
    (h : ¬ op.Touches type id) (record : Option ObjectState) :
    op.onRecord type id record = record := by
  cases op with
  | add t dot ids => exact if_neg h
  | release t observed ids => exact if_neg h
  | prune t ids => exact if_neg h

theorem apply_getElem? (op : JournalOp) (tries : RetentionTries) (type : RetentionClass)
    (id : ObjectId) : (op.apply tries type)[id]? = op.onRecord type id (tries type)[id]? := by
  have hupdate : ∀ t ledger,
      Function.update tries t ledger type = if t = type then ledger else tries type := by
    intro t ledger
    by_cases ht : t = type
    · subst ht
      simp
    · rw [if_neg ht, Function.update_of_ne (Ne.symm ht)]
  cases op with
  | add t | release t | prune t =>
    show (Function.update tries t _ type)[id]? = _
    rw [hupdate]
    unfold onRecord
    by_cases ht : t = type
    · subst ht
      rw [if_pos rfl]
      simp [RetentionLedger.getElem?_add, RetentionLedger.getElem?_release,
        RetentionLedger.getElem?_prune]
    · simp [ht]

end JournalOp

/-- `load_journal_locked`: the log over the tries. -/
def replayLog (log : List JournalOp) (tries : RetentionTries) : RetentionTries :=
  log.foldl (fun tries op => op.apply tries) tries

def replayRecord (type : RetentionClass) (id : ObjectId) (log : List JournalOp)
    (record : Option ObjectState) : Option ObjectState :=
  log.foldl (fun record op => op.onRecord type id record) record

theorem replayLog_append (a b : List JournalOp) (tries : RetentionTries) :
    replayLog (a ++ b) tries = replayLog b (replayLog a tries) :=
  foldl_append

theorem replayRecord_append (type : RetentionClass) (id : ObjectId) (a b : List JournalOp)
    (record : Option ObjectState) :
    replayRecord type id (a ++ b) record = replayRecord type id b (replayRecord type id a record) :=
  foldl_append

theorem replayLog_getElem? (log : List JournalOp) (tries : RetentionTries)
    (type : RetentionClass) (id : ObjectId) :
    (replayLog log tries type)[id]? = replayRecord type id log (tries type)[id]? := by
  unfold replayLog replayRecord
  induction log generalizing tries with
  | nil => rfl
  | cons op log ih => rw [foldl_cons, foldl_cons, ih, op.apply_getElem?]

theorem tries_ext {a b : RetentionTries} (h : ∀ type (id : ObjectId), (a type)[id]? = (b type)[id]?) :
    a = b :=
  funext fun type => OrdMap.ext fun id => h type id

/-! ## What a record remembers of an operation -/

/-- The record has the operation in it: applying it again changes nothing. -/
def Reflects (type : RetentionClass) (id : ObjectId) (op : JournalOp) (s : ObjectState) : Prop :=
  match op with
  | .add t dot ids => t = type → id ∈ ids →
    dot.sequence ≤ s.removedTo dot.origin ∨ dot.sequence ≤ s.addedTo dot.origin
  | .release t observed ids => t = type → id ∈ ids → ∀ origin,
    observed.getD origin 0 ≤ s.removedTo origin ∧
      (s.addedTo origin = 0 ∨ observed.getD origin 0 < s.addedTo origin)
  | .prune t ids => ¬ (t = type ∧ id ∈ ids)

section

variable {type : RetentionClass} {id : ObjectId} {s : ObjectState} {op : JournalOp}

theorem addRecord_some (dot : RetentionDot) (s : ObjectState) :
    addRecord dot (some s) = some (s.applyAdd dot) := by
  unfold addRecord
  split
  · next hsame => exact congrArg some hsame.symm
  · rfl

theorem applyAdd_eq_self {dot : RetentionDot}
    (h : dot.sequence ≤ s.removedTo dot.origin ∨ dot.sequence ≤ s.addedTo dot.origin) :
    s.applyAdd dot = s := by
  unfold ObjectState.applyAdd
  split
  · rfl
  · next htakes =>
    rw [Bool.not_eq_true', Bool.not_eq_false] at htakes
    have hlt : s.removedTo dot.origin < dot.sequence := of_decide_eq_true htakes
    have hle : dot.sequence ≤ s.adds.getD dot.origin 0 := by
      rcases h with h | h
      · omega
      · exact h
    exact if_pos hle

theorem applyRelease_eq_self (hs : s.Sound) {observed : VersionClock}
    (h : ∀ origin, observed.getD origin 0 ≤ s.removedTo origin ∧
      (s.addedTo origin = 0 ∨ observed.getD origin 0 < s.addedTo origin)) :
    s.applyRelease observed = s := by
  refine ObjectState.ext_of_sound (hs.applyRelease observed) hs (fun origin => ?_)
    (fun origin => ?_)
  · obtain ⟨-, hadded⟩ := h origin
    rw [ObjectState.addedTo_applyRelease]
    split
    · omega
    · rfl
  · obtain ⟨hremoved, -⟩ := h origin
    rw [ObjectState.removedTo_applyRelease]
    exact max_eq_left hremoved

theorem Reflects.onRecord (hs : s.Sound) (h : Reflects type id op s) :
    op.onRecord type id (some s) = some s := by
  cases op with
  | add t dot ids =>
    unfold JournalOp.onRecord
    dsimp only
    split
    · next hboth => rw [addRecord_some, applyAdd_eq_self (h hboth.1 hboth.2)]
    · rfl
  | release t observed ids =>
    unfold JournalOp.onRecord
    dsimp only
    split
    · next hboth => exact congrArg some (applyRelease_eq_self hs (h hboth.1 hboth.2))
    · rfl
  | prune t ids => exact if_neg h

theorem Reflects.replayRecord (hs : s.Sound) {log : List JournalOp}
    (h : ∀ op ∈ log, Reflects type id op s) : replayRecord type id log (some s) = some s := by
  unfold Macha.replayRecord
  induction log with
  | nil => rfl
  | cons op log ih =>
    rw [foldl_cons, (h op mem_cons_self).onRecord hs]
    exact ih fun op' hop' => h op' (mem_cons_of_mem _ hop')

theorem Reflects.applyAdd (h : Reflects type id op s) (dot : RetentionDot) :
    Reflects type id op (s.applyAdd dot) := by
  cases op with
  | add t dot' ids =>
    intro ht hid
    rw [ObjectState.removedTo_applyAdd, ObjectState.addedTo_applyAdd]
    rcases h ht hid with hle | hle
    · exact .inl hle
    · right
      split
      · exact hle.trans (le_max_left _ _)
      · exact hle
  | release t observed ids =>
    intro ht hid origin
    obtain ⟨hremoved, hadded⟩ := h ht hid origin
    rw [ObjectState.removedTo_applyAdd, ObjectState.addedTo_applyAdd]
    refine ⟨hremoved, ?_⟩
    split
    · next htakes => omega
    · exact hadded
  | prune t ids => exact h

theorem Reflects.applyRelease (h : Reflects type id op s) (seen : VersionClock) :
    Reflects type id op (s.applyRelease seen) := by
  cases op with
  | add t dot ids =>
    intro ht hid
    rw [ObjectState.removedTo_applyRelease, ObjectState.addedTo_applyRelease]
    rcases h ht hid with hle | hle
    · exact .inl (hle.trans (le_max_left _ _))
    · split
      · next hcovered => exact .inl (hle.trans (hcovered.trans (le_max_right _ _)))
      · exact .inr hle
  | release t observed ids =>
    intro ht hid origin
    obtain ⟨hremoved, hadded⟩ := h ht hid origin
    rw [ObjectState.removedTo_applyRelease, ObjectState.addedTo_applyRelease]
    refine ⟨hremoved.trans (le_max_left _ _), ?_⟩
    split
    · exact .inl rfl
    · exact hadded
  | prune t ids => exact h

end

/-! ## Replaying a part of the log again -/

/-- The operation as a call journals it, where the record is this: a claim has a
sequence, and what is released has a record. -/
def FitsRecord (type : RetentionClass) (id : ObjectId) (op : JournalOp)
    (record : Option ObjectState) : Prop :=
  match op with
  | .add t dot ids => t = type → id ∈ ids → dot.sequence ≠ 0
  | .release t _ ids => t = type → id ∈ ids → record.isSome = true
  | .prune _ _ => True

/-- Every operation of the log fits the record it comes to. -/
def LogFits (type : RetentionClass) (id : ObjectId) (log : List JournalOp)
    (record : Option ObjectState) : Prop :=
  ∀ before op after, log = before ++ op :: after →
    FitsRecord type id op (replayRecord type id before record)

section

variable {type : RetentionClass} {id : ObjectId} {record : Option ObjectState}
  {a b : List JournalOp}

theorem LogFits.of_append (h : LogFits type id (a ++ b) record) : LogFits type id a record := by
  intro before op after heq
  refine h before op (after ++ b) ?_
  rw [heq, append_assoc]
  rfl

theorem LogFits.append_right (h : LogFits type id (a ++ b) record) :
    LogFits type id b (replayRecord type id a record) := by
  intro before op after heq
  rw [← replayRecord_append]
  refine h (a ++ before) op after ?_
  rw [heq, append_assoc]

variable {log : List JournalOp} {op : JournalOp}

theorem LogFits.snoc (h : LogFits type id log record)
    (hop : FitsRecord type id op (replayRecord type id log record)) :
    LogFits type id (log ++ [op]) record := by
  intro before op' after heq
  rcases eq_nil_or_concat after with rfl | ⟨rest, last, rfl⟩
  · obtain ⟨rfl, hop'⟩ := append_inj' heq rfl
    rw [← singleton_inj.1 hop']
    exact hop
  · rw [concat_eq_append, ← cons_append, ← append_assoc] at heq
    obtain ⟨rfl, -⟩ := append_inj' heq rfl
    exact h before op' rest rfl

theorem LogFits.last (h : LogFits type id (log ++ [op]) record) :
    FitsRecord type id op (replayRecord type id log record) :=
  h log op [] rfl

theorem replayRecord_snoc (log : List JournalOp) (op : JournalOp) :
    replayRecord type id (log ++ [op]) record =
      op.onRecord type id (replayRecord type id log record) := by
  rw [replayRecord_append]
  rfl

theorem onRecord_sound (h : ∀ s ∈ record, s.Sound) : ∀ s ∈ op.onRecord type id record, s.Sound := by
  have hempty : (∅ : VersionClock).toList = [] → ({} : ObjectState).Sound := fun _ =>
    ⟨fun origin => by simp, fun origin => by simp⟩
  have hstate : (record.getD {}).Sound := by
    cases record with
    | none => exact hempty rfl
    | some s => exact h s rfl
  cases op with
  | add t dot ids =>
    unfold JournalOp.onRecord
    dsimp only
    split
    · unfold addRecord
      split
      · exact h
      · rintro s ⟨⟩
        exact hstate.applyAdd dot
    · exact h
  | release t observed ids =>
    unfold JournalOp.onRecord
    dsimp only
    split
    · intro s hs
      obtain ⟨r, hr, rfl⟩ := map_eq_some_iff.1 hs
      exact (h r hr).applyRelease observed
    · exact h
  | prune t ids =>
    unfold JournalOp.onRecord
    dsimp only
    split
    · intro s hs
      exact h s (eq_some_of_filter_eq_some hs)
    · exact h

theorem replayRecord_sound (h : ∀ s ∈ record, s.Sound) :
    ∀ s ∈ replayRecord type id log record, s.Sound := by
  induction log generalizing record with
  | nil => exact h
  | cons op log ih => exact ih (onRecord_sound h)

theorem addRecord_isSome {dot : RetentionDot} (hsequence : dot.sequence ≠ 0)
    (record : Option ObjectState) : ∃ s, addRecord dot record = some s := by
  cases record with
  | some s => exact ⟨_, addRecord_some dot s⟩
  | none =>
    have hne : ({} : ObjectState).applyAdd dot ≠ {} := by
      intro heq
      have hadded := congrArg (fun s : ObjectState => s.addedTo dot.origin) heq
      rw [ObjectState.addedTo_applyAdd, if_pos ⟨rfl, Nat.pos_of_ne_zero hsequence⟩] at hadded
      have hzero : ({} : ObjectState).addedTo dot.origin = 0 := rfl
      omega
    exact ⟨_, if_neg hne⟩

theorem reflects_onRecord (hsound : ∀ s ∈ record, s.Sound) (hfits : FitsRecord type id op record)
    (hprune : ¬ op.Prunes type id) :
    (∀ s, op.onRecord type id record = some s → Reflects type id op s) ∧
      (op.onRecord type id record = none → ¬ op.Touches type id) := by
  cases op with
  | add t dot ids =>
    unfold JournalOp.onRecord
    by_cases hboth : t = type ∧ id ∈ ids
    · have hsequence := hfits hboth.1 hboth.2
      simp only [if_pos hboth]
      constructor
      · intro s hs _ _
        have hstate : s = (record.getD {}).applyAdd dot := by
          rw [← RetentionStore.getD_addRecord, hs]
          rfl
        rw [hstate, ObjectState.removedTo_applyAdd, ObjectState.addedTo_applyAdd]
        by_cases htakes : (record.getD {}).removedTo dot.origin < dot.sequence
        · right
          rw [if_pos ⟨rfl, htakes⟩]
          exact le_max_right _ _
        · exact .inl (Nat.le_of_not_lt htakes)
      · intro hnone
        obtain ⟨s, hs⟩ := addRecord_isSome hsequence record
        rw [hs] at hnone
        cases hnone
    · exact ⟨fun s _ ht hid => absurd ⟨ht, hid⟩ hboth, fun _ => hboth⟩
  | release t observed ids =>
    unfold JournalOp.onRecord
    by_cases hboth : t = type ∧ id ∈ ids
    · obtain ⟨r, hr⟩ := isSome_iff_exists.1 (hfits hboth.1 hboth.2)
      simp only [if_pos hboth]
      subst hr
      constructor
      · rintro s ⟨⟩ _ _ origin
        rw [ObjectState.removedTo_applyRelease, ObjectState.addedTo_applyRelease]
        refine ⟨le_max_right _ _, ?_⟩
        split
        · exact .inl rfl
        · next hlt => exact .inr (Nat.lt_of_not_le hlt)
      · nofun
    · exact ⟨fun s _ ht hid => absurd ⟨ht, hid⟩ hboth, fun _ => hboth⟩
  | prune t ids =>
    have hnot : ¬ (t = type ∧ id ∈ ids) := hprune
    unfold JournalOp.onRecord
    exact ⟨fun s _ => hnot, fun _ => hnot⟩

theorem reflects_of_not_touches (h : ¬ op.Touches type id) (s : ObjectState) :
    Reflects type id op s := by
  cases op with
  | add t dot ids => exact fun ht hid => absurd ⟨ht, hid⟩ h
  | release t observed ids => exact fun ht hid => absurd ⟨ht, hid⟩ h
  | prune t ids => exact h

variable {s : ObjectState} {origin : NodeId}

theorem reflects_step {op other : JournalOp} (h : Reflects type id other s)
    (hprune : ¬ op.Prunes type id) :
    ∃ next, op.onRecord type id (some s) = some next ∧ Reflects type id other next := by
  cases op with
  | add t dot ids =>
    unfold JournalOp.onRecord
    dsimp only
    split
    · exact ⟨_, addRecord_some dot s, h.applyAdd dot⟩
    · exact ⟨s, rfl, h⟩
  | release t observed ids =>
    unfold JournalOp.onRecord
    dsimp only
    split
    · exact ⟨_, rfl, h.applyRelease observed⟩
    · exact ⟨s, rfl, h⟩
  | prune t ids => exact ⟨s, if_neg hprune, h⟩

/-- A part of the log without a prune of the object is in the record after it,
or does not touch the object. -/
theorem reflects_of_replay (hsound : ∀ s ∈ record, s.Sound) (hfits : LogFits type id log record)
    (hprune : ∀ op ∈ log, ¬ op.Prunes type id) :
    (∀ s, replayRecord type id log record = some s → ∀ op ∈ log, Reflects type id op s) ∧
      (replayRecord type id log record = none → ∀ op ∈ log, ¬ op.Touches type id) := by
  induction log using reverseRecOn with
  | nil => exact ⟨fun _ _ _ => nofun, fun _ _ => nofun⟩
  | append_singleton log op ih =>
    have hlast := hprune op (mem_append_right _ mem_cons_self)
    obtain ⟨hsome, hnone⟩ := ih hfits.of_append
      fun op' hop' => hprune op' (mem_append_left _ hop')
    obtain ⟨hopSome, hopNone⟩ := reflects_onRecord (replayRecord_sound hsound) hfits.last hlast
    rw [replayRecord_snoc]
    constructor
    · intro s hs op' hop'
      rcases mem_append.1 hop' with hop' | hop'
      · cases hmid : replayRecord type id log record with
        | none => exact reflects_of_not_touches (hnone hmid op' hop') s
        | some mid =>
          rw [hmid] at hs
          obtain ⟨next, hnext, hreflects⟩ := reflects_step (hsome mid hmid op' hop') hlast
          rw [hnext] at hs
          cases hs
          exact hreflects
      · rw [mem_singleton.1 hop']
        exact hopSome s hs
    · intro hnoneAfter op' hop'
      rcases mem_append.1 hop' with hop' | hop'
      · cases hmid : replayRecord type id log record with
        | none => exact hnone hmid op' hop'
        | some mid =>
          obtain ⟨next, hnext, -⟩ := reflects_step (hsome mid hmid op' hop') hlast
          rw [hmid, hnext] at hnoneAfter
          cases hnoneAfter
      · rw [mem_singleton.1 hop']
        exact hopNone hnoneAfter

theorem replayRecord_of_not_touches (h : ∀ op ∈ log, ¬ op.Touches type id)
    (record : Option ObjectState) :
    replayRecord type id log record = record := by
  unfold replayRecord
  induction log with
  | nil => rfl
  | cons op log ih =>
    rw [foldl_cons, JournalOp.onRecord_of_not_touches (h op mem_cons_self)]
    exact ih fun op' hop' => h op' (mem_cons_of_mem _ hop')

/-- Without a prune of the object the log may be replayed over its own result. -/
theorem replay_again_of_no_prune (hsound : ∀ s ∈ record, s.Sound)
    (hfits : LogFits type id log record) (hprune : ∀ op ∈ log, ¬ op.Prunes type id) :
    replayRecord type id log (replayRecord type id log record) =
      replayRecord type id log record := by
  obtain ⟨hsome, hnone⟩ := reflects_of_replay hsound hfits hprune
  cases hlog : replayRecord type id log record with
  | none => exact replayRecord_of_not_touches (hnone hlog) none
  | some s => exact Reflects.replayRecord (replayRecord_sound hsound s hlog) (hsome s hlog)

/-! ### Pruned, and not claimed again -/

/-- Every claim of the object in the log is covered by a later release of it. -/
def ClaimsReleased (type : RetentionClass) (id : ObjectId) (log : List JournalOp) : Prop :=
  ∀ before dot ids after, log = before ++ .add type dot ids :: after → id ∈ ids →
    ∃ observed released, JournalOp.release type observed released ∈ after ∧ id ∈ released ∧
      dot.sequence ≤ observed.getD dot.origin 0

/-- A claim that stands after the operation is its own, or stood before it and was
not observed by it. -/
theorem addedTo_onRecord (h : op.onRecord type id record = some s) (hpos : 0 < s.addedTo origin) :
    (∃ ids, op = .add type ⟨origin, s.addedTo origin⟩ ids ∧ id ∈ ids) ∨
      ∃ before, record = some before ∧ before.addedTo origin = s.addedTo origin ∧
        ∀ observed released, op = .release type observed released → id ∈ released →
          observed.getD origin 0 < s.addedTo origin := by
  by_cases htouches : op.Touches type id
  · cases op with
    | add t dot ids =>
      obtain ⟨rfl, hid⟩ := htouches
      have hadd : addRecord dot record = some s := (if_pos ⟨rfl, hid⟩).symm.trans h
      have hstate : s = (record.getD {}).applyAdd dot := by
        rw [← RetentionStore.getD_addRecord, hadd]
        rfl
      have hadded := ObjectState.addedTo_applyAdd (record.getD {}) dot origin
      rw [← hstate] at hadded
      by_cases hown : dot.origin = origin ∧ s.addedTo origin = dot.sequence
      · left
        obtain ⟨rfl, hsequence⟩ := hown
        exact ⟨ids, by rw [hsequence], hid⟩
      · right
        have hsame : (record.getD {}).addedTo origin = s.addedTo origin := by
          split at hadded
          · next htakes =>
            have hne : s.addedTo origin ≠ dot.sequence := fun heq => hown ⟨htakes.1, heq⟩
            omega
          · exact hadded.symm
        cases record with
        | none =>
          have hzero : ({} : ObjectState).addedTo origin = 0 := rfl
          rw [show (none : Option ObjectState).getD {} = {} from rfl] at hsame
          omega
        | some before => exact ⟨before, rfl, hsame, nofun⟩
    | release t observed ids =>
      obtain ⟨rfl, hid⟩ := htouches
      have hrelease : releaseRecord observed record = some s := (if_pos ⟨rfl, hid⟩).symm.trans h
      obtain ⟨before, hbefore, hstate⟩ := map_eq_some_iff.1 hrelease
      have hadded := ObjectState.addedTo_applyRelease before observed origin
      rw [hstate] at hadded
      split at hadded
      · omega
      · refine .inr ⟨before, hbefore, hadded.symm, ?_⟩
        rintro _ _ ⟨⟩ -
        omega
    | prune t ids =>
      have hprune : pruneRecord record = some s := (if_pos htouches).symm.trans h
      exact .inr ⟨s, eq_some_of_filter_eq_some hprune, rfl, nofun⟩
  · rw [op.onRecord_of_not_touches htouches] at h
    refine .inr ⟨s, h, rfl, ?_⟩
    rintro observed released rfl hid
    exact absurd ⟨rfl, hid⟩ htouches

/-- A claim that stands after a log over nothing is one of the log's, and no later
release of the log covers it. -/
theorem exists_add_of_addedTo (h : replayRecord type id log none = some s)
    (hpos : 0 < s.addedTo origin) :
    ∃ before ids after, log = before ++ .add type ⟨origin, s.addedTo origin⟩ ids :: after ∧
      id ∈ ids ∧ ∀ observed released, JournalOp.release type observed released ∈ after →
        id ∈ released → observed.getD origin 0 < s.addedTo origin := by
  induction log using reverseRecOn generalizing s with
  | nil => cases h
  | append_singleton log op ih =>
    rw [replayRecord_snoc] at h
    rcases addedTo_onRecord h hpos with ⟨ids, rfl, hid⟩ | ⟨mid, hmid, hadded, hop⟩
    · exact ⟨log, ids, [], rfl, hid, fun _ _ => nofun⟩
    · obtain ⟨before, ids, after, hlog, hid, hafter⟩ := ih hmid (by omega)
      rw [hadded] at hlog hafter
      refine ⟨before, ids, after ++ [op], ?_, hid, ?_⟩
      · rw [hlog, append_assoc]
        rfl
      · intro observed released hmem hreleased
        rcases mem_append.1 hmem with hmem | hmem
        · exact hafter observed released hmem hreleased
        · exact hop observed released (mem_singleton.1 hmem).symm hreleased

/-- Where the log ends without a record and its claims are all released by it, it
leaves none over nothing either. -/
theorem replay_again_of_forgotten (hsound : ∀ s ∈ record, s.Sound)
    (hfits : LogFits type id log record) (hnone : replayRecord type id log record = none)
    (hreleased : ClaimsReleased type id log) : replayRecord type id log none = none := by
  by_cases hprunes : ∃ op ∈ log, op.Prunes type id
  · obtain ⟨before, op, after, rfl, hop, hafter⟩ := exists_last_of_exists hprunes
    -- After the last prune nothing touches the object, for it has no record at the end.
    have hsplit : before ++ op :: after = (before ++ [op]) ++ after := by
      rw [append_assoc]
      rfl
    have huntouched : ∀ op ∈ after, ¬ op.Touches type id := by
      rw [hsplit] at hfits hnone
      rw [replayRecord_append] at hnone
      exact (reflects_of_replay (replayRecord_sound hsound) hfits.append_right hafter).2 hnone
    rw [hsplit, replayRecord_append, replayRecord_of_not_touches huntouched, replayRecord_snoc]
    cases op with
    | add t dot ids => exact hop.elim
    | release t observed ids => exact hop.elim
    | prune t ids =>
      refine (if_pos hop).trans ?_
      cases hbefore : replayRecord type id before none with
      | none => rfl
      | some s =>
        have hs : s.Sound := replayRecord_sound (by nofun) s hbefore
        refine filter_eq_none_iff.2 fun s' hs' hclaimed => ?_
        cases hs'
        obtain ⟨origin, hpos⟩ := hs.claimed_iff.1 hclaimed
        obtain ⟨first, ids', rest, rfl, hid, hrest⟩ := exists_add_of_addedTo hbefore hpos
        obtain ⟨observed, released, hmem, hreleasedId, hcovers⟩ :=
          hreleased first ⟨origin, s.addedTo origin⟩ ids' (rest ++ .prune t ids :: after)
            (by simp) hid
        rcases mem_append.1 hmem with hmem | hmem
        · have hlt := hrest observed released hmem hreleasedId
          exact absurd hcovers (Nat.not_le_of_lt hlt)
        · rcases mem_cons.1 hmem with heq | hmem
          · cases heq
          · exact huntouched _ hmem ⟨rfl, hreleasedId⟩
  · have hnot : ∀ op ∈ log, ¬ op.Prunes type id := fun op hop h => hprunes ⟨op, hop, h⟩
    exact replayRecord_of_not_touches ((reflects_of_replay hsound hfits hnot).2 hnone) none

end

end Macha
