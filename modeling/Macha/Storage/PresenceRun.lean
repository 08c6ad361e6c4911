import Macha.Storage.Presence

/-!
# The presence index is right about an object removed whole

All there is of one object, in the files, the index and the walk, is a small
view. Sections on other objects leave it as it is; each section on the object
keeps the index right about it, or still to be told.
-/

namespace Macha

open Option OrdMap

/-- What the walk has to do with one object. -/
structure WalkView where
  unread : Bool
  offered : Bool
  batched : Bool

structure ObjectView where
  file : Bool
  present : Bool
  pruned : Bool
  forgotten : Bool
  authoritative : Bool
  walk : Option WalkView
  stage : Option ObjectStage

/-- The index is right about the object, or will be told. -/
structure ObjectView.Sound (view : ObjectView) : Prop where
  present : view.present = true → view.file = true ∨ view.stage = some .pruning
  known : view.file = true → (∃ stores, view.stage = some (.removing stores)) ∨
    view.stage = some .installed ∨ view.present = true ∨
    view.authoritative = false ∧ view.forgotten = false ∧ view.pruned = false ∧
      ∀ walk, view.walk = some walk → walk.unread = true ∨ walk.batched = true
  removing : ∀ {stores}, view.stage = some (.removing stores) → view.file = true ∧
    view.present = false ∧ (view.authoritative = false → view.forgotten = true)
  storing : ∀ {size}, view.stage = some (.storing size) → view.file = false
  installed : view.stage = some .installed → view.file = true
  pruning : view.stage = some .pruning → view.file = false
  observing : view.stage = some .observing → view.file = true
  /-- A name the walk reads is of a file, or of one forgotten since. -/
  named : ∀ {walk}, view.walk = some walk → walk.offered = true ∨ walk.batched = true →
    view.file = true ∨ view.forgotten = true ∨ view.pruned = true ∨ view.stage = some .pruning
  warming : view.walk.isSome = true → view.authoritative = false

namespace PresenceStore

def view (store : PresenceStore) (id : ObjectId) : ObjectView where
  file := store.loose[id]?.isSome
  present := decide (id ∈ store.presence.present)
  pruned := decide (id ∈ store.presence.pruned)
  forgotten := decide (id ∈ store.presence.forgottenWhileWarming)
  authoritative := store.presence.authoritative
  walk := store.walk.map fun walk =>
    ⟨decide (id ∈ walk.unread), decide (id ∈ walk.offered), decide (id ∈ walk.batch)⟩
  stage := store.busy[id]?

theorem truthful_of_sound {store : PresenceStore} {id : ObjectId} (h : (store.view id).Sound) :
    store.Truthful id := by
  intro hauthoritative hidle
  have hidle : (store.view id).stage = none := hidle
  have hpresent := h.present
  have hknown := h.known
  rw [hidle] at hpresent hknown
  have hiff : id ∈ store.presence.present ↔ store.loose[id]?.isSome = true := by
    constructor
    · intro hmem
      rcases hpresent (decide_eq_true hmem) with hfile | hstage
      · exact hfile
      · cases hstage
    · intro hfile
      rcases hknown hfile with ⟨_, hstage⟩ | hstage | hmem | ⟨hwarming, -⟩
      · cases hstage
      · cases hstage
      · exact of_decide_eq_true hmem
      · cases hauthoritative.symm.trans hwarming
  unfold has PresenceIndex.answer
  by_cases hpacked : id ∈ store.packed
  · simp [hpacked]
  · by_cases hmem : id ∈ store.presence.present
    · simp [hpacked, hmem, hiff.1 hmem]
    · have hnone : ¬ store.loose[id]?.isSome = true := fun hsome => hmem (hiff.2 hsome)
      simp [hpacked, hmem, hauthoritative, hnone]

end PresenceStore

/-! ## What each section does to its object -/

namespace ObjectView

/-- The index forgets the object. -/
def forget (view : ObjectView) : ObjectView :=
  { view with present := false, forgotten := view.forgotten || !view.authoritative }

def unlink (view : ObjectView) : ObjectView :=
  { view with file := false, walk := view.walk.map fun walk => { walk with unread := false } }

def install (view : ObjectView) : ObjectView :=
  { view with file := true, walk := view.walk.map fun walk => { walk with offered := true } }

namespace Sound

variable {view : ObjectView}

section

variable (h : view.Sound)

include h

theorem forget_file (hfile : view.file = true) (stores : Option Nat) :
    ({ view.forget with stage := some (.removing stores) }).Sound where
  present := nofun
  known _ := .inl ⟨stores, rfl⟩
  removing _ := ⟨hfile, rfl, fun hwarming => by
    simp [forget, show view.authoritative = false from hwarming]⟩
  storing := nofun
  installed := nofun
  pruning := nofun
  observing := nofun
  named _ _ := .inl hfile
  warming := h.warming

theorem forget_absent (hstage : view.stage = none) (hfile : view.file = false) :
    view.forget.Sound where
  present := nofun
  known hnow := by simp [forget, hfile] at hnow
  removing hnow := by simp [forget, hstage] at hnow
  storing hnow := by simp [forget, hstage] at hnow
  installed hnow := by simp [forget, hstage] at hnow
  pruning hnow := by simp [forget, hstage] at hnow
  observing hnow := by simp [forget, hstage] at hnow
  named hwalk _ := by
    have hwarming := h.warming (by rw [show view.walk = some _ from hwalk]; rfl)
    simp [forget, hwarming]
  warming := h.warming

theorem unlink_removing {stores : Option Nat} (hstage : view.stage = some (.removing stores))
    {stage : Option ObjectStage} (hnext : stage = none ∨ ∃ size, stage = some (.storing size)) :
    ({ view.unlink with stage := stage }).Sound := by
  obtain ⟨-, hpresent, hforgotten⟩ := h.removing hstage
  constructor
  · intro hnow
    simp [unlink, hpresent] at hnow
  · nofun
  · rcases hnext with rfl | ⟨size, rfl⟩ <;> nofun
  · intro _ _
    rfl
  · rcases hnext with rfl | ⟨size, rfl⟩ <;> nofun
  · intro _
    rfl
  · rcases hnext with rfl | ⟨size, rfl⟩ <;> nofun
  · intro walk hwalk _
    obtain ⟨before, hbefore, -⟩ := map_eq_some_iff.1 hwalk
    have hwarming := h.warming (by rw [hbefore]; rfl)
    exact .inr (.inl (hforgotten hwarming))
  · intro hwalk
    exact h.warming (by simpa [unlink] using hwalk)

theorem absent (hfile : view.file = false) (hpruning : view.stage ≠ some .pruning)
    {stage : Option ObjectStage} (hnext : stage = none ∨ ∃ size, stage = some (.storing size)) :
    ({ view with stage := stage }).Sound := by
  have hpresent : view.present = false := by
    by_contra hpresent
    rcases h.present (by simpa using hpresent) with hnow | hnow
    · simp [hfile] at hnow
    · exact hpruning hnow
  constructor
  · intro hnow
    simp [hpresent] at hnow
  · intro hnow
    simp [hfile] at hnow
  · rcases hnext with rfl | ⟨size, rfl⟩ <;> nofun
  · intro _ _
    exact hfile
  · rcases hnext with rfl | ⟨size, rfl⟩ <;> nofun
  · intro _
    exact hfile
  · rcases hnext with rfl | ⟨size, rfl⟩ <;> nofun
  · intro walk hwalk hname
    rcases h.named hwalk hname with hnow | hnow | hnow | hnow
    · simp [hfile] at hnow
    · exact .inr (.inl hnow)
    · exact .inr (.inr (.inl hnow))
    · exact (hpruning hnow).elim
  · exact h.warming

theorem install_storing : ({ view.install with stage := some .installed }).Sound where
  present _ := .inl rfl
  known _ := .inr (.inl rfl)
  removing := nofun
  storing := nofun
  installed _ := rfl
  pruning := nofun
  observing := nofun
  named _ _ := .inl rfl
  warming hwalk := h.warming (by simpa [install] using hwalk)

theorem seen (hfile : view.file = true) (pruned : Bool) :
    ({ view with present := true, pruned := pruned, stage := none }).Sound where
  present _ := .inl hfile
  known _ := .inr (.inr (.inl rfl))
  removing := nofun
  storing := nofun
  installed := nofun
  pruning := nofun
  observing := nofun
  named _ _ := .inl hfile
  warming := h.warming

theorem unlink_empty : ({ view.unlink with stage := some .pruning }).Sound where
  present _ := .inr rfl
  known := nofun
  removing := nofun
  storing := nofun
  installed := nofun
  pruning _ := rfl
  observing := nofun
  named _ _ := .inr (.inr (.inr rfl))
  warming hwalk := h.warming (by simpa [unlink] using hwalk)

theorem pruned (hfile : view.file = false) :
    ({ view.forget with pruned := true, stage := none }).Sound where
  present := nofun
  known hnow := by simp [forget, hfile] at hnow
  removing := nofun
  storing := nofun
  installed := nofun
  pruning := nofun
  observing := nofun
  named _ _ := .inr (.inr (.inl rfl))
  warming := h.warming

theorem observe (hstage : view.stage = none) (hfile : view.file = true) :
    ({ view with stage := some .observing }).Sound where
  present _ := .inl hfile
  known _ := by
    rcases h.known hfile with ⟨_, hnow⟩ | hnow | hnow | hnow
    · simp [hstage] at hnow
    · simp [hstage] at hnow
    · exact .inr (.inr (.inl hnow))
    · exact .inr (.inr (.inr hnow))
  removing := nofun
  storing := nofun
  installed := nofun
  pruning := nofun
  observing _ := hfile
  named _ _ := .inl hfile
  warming := h.warming

theorem beginWalk (hwarming : view.authoritative = false) :
    ({ view with walk := some ⟨view.file, view.file, false⟩ }).Sound where
  __ := h
  known hfile := by
    refine (h.known hfile).imp_right (Or.imp_right (Or.imp_right ?_))
    rintro ⟨hnow, hforgotten, hpruned, -⟩
    refine ⟨hnow, hforgotten, hpruned, fun walk hwalk => ?_⟩
    cases hwalk
    exact .inl hfile
  named hwalk hname := by
    cases hwalk
    rcases hname with hname | hname
    · exact .inl hname
    · cases hname
  warming _ := hwarming

end

variable {walk : WalkView}

theorem readName (h : view.Sound) (hwalk : view.walk = some walk) (hoffered : walk.offered = true) :
    ({ view with walk := some ⟨false, walk.offered, true⟩ }).Sound where
  __ := h
  known hfile := by
    refine (h.known hfile).imp_right (Or.imp_right (Or.imp_right ?_))
    rintro ⟨hnow, hforgotten, hpruned, -⟩
    refine ⟨hnow, hforgotten, hpruned, fun walk hwalk => ?_⟩
    cases hwalk
    exact .inr rfl
  named _ _ := h.named hwalk (.inl hoffered)
  warming _ := h.warming (by rw [hwalk]; rfl)

theorem listed (h : view.Sound) (hwalk : view.walk = some walk) {after : Option WalkView}
    (hafter : after = none ∨ after = some ⟨walk.unread, walk.offered, false⟩) :
    ({ view with
      present := view.present || walk.batched && !view.pruned && !view.forgotten
      walk := after }).Sound where
  present hnow := by
    simp only [Bool.or_eq_true, Bool.and_eq_true, Bool.not_eq_true'] at hnow
    rcases hnow with hnow | ⟨⟨hbatched, hpruned⟩, hforgotten⟩
    · exact h.present hnow
    · rcases h.named hwalk (.inr hbatched) with hfile | hnow | hnow | hstage
      · exact .inl hfile
      · simp [hforgotten] at hnow
      · simp [hpruned] at hnow
      · exact .inr hstage
  known hfile := by
    rcases h.known hfile with hnow | hnow | hnow | ⟨hnow, hforgotten, hpruned, hcoming⟩
    · exact .inl hnow
    · exact .inr (.inl hnow)
    · exact .inr (.inr (.inl (by simp [hnow])))
    · rcases hcoming walk hwalk with hunread | hbatched
      · refine .inr (.inr (.inr ⟨hnow, hforgotten, hpruned, fun walk hwalk => ?_⟩))
        rcases hafter with rfl | rfl
        · cases hwalk
        · cases hwalk
          exact .inl hunread
      · exact .inr (.inr (.inl (by simp [hbatched, hforgotten, hpruned])))
  removing hstage := by
    obtain ⟨hfile, hpresent, hforgotten⟩ := h.removing hstage
    have hwarming := h.warming (by rw [hwalk]; rfl)
    exact ⟨hfile, by simp [hpresent, hforgotten hwarming], hforgotten⟩
  __ := h
  named hnow hname := by
    rcases hafter with rfl | rfl
    · cases hnow
    · cases hnow
      rcases hname with hname | hname
      · exact h.named hwalk (.inl hname)
      · cases hname
  warming _ := h.warming (by rw [hwalk]; rfl)

theorem warmed (h : view.Sound) (hwalk : view.walk = some walk) (hunread : walk.unread = false)
    (hbatched : walk.batched = false) :
    ({ view with authoritative := true, forgotten := false, walk := none }).Sound where
  __ := h
  known hfile := by
    rcases h.known hfile with hnow | hnow | hnow | ⟨-, -, -, hcoming⟩
    · exact .inl hnow
    · exact .inr (.inl hnow)
    · exact .inr (.inr (.inl hnow))
    · rcases hcoming walk hwalk with hnow | hnow
      · simp [hunread] at hnow
      · simp [hbatched] at hnow
  removing hstage := by
    obtain ⟨hfile, hpresent, -⟩ := h.removing hstage
    exact ⟨hfile, hpresent, nofun⟩
  named := nofun
  warming := nofun

end Sound

end ObjectView

namespace PresenceStore

variable {store next : PresenceStore} {id other : ObjectId} {event : PresenceEvent}

theorem view_enter (store : PresenceStore) (id : ObjectId) (stage : ObjectStage) :
    (store.enter id stage).view id = { store.view id with stage := some stage } := by
  unfold view enter
  rw [getElem?_insert_self]

theorem view_leave (store : PresenceStore) (id : ObjectId) :
    (store.leave id).view id = { store.view id with stage := none } := by
  unfold view leave
  rw [getElem?_erase, if_pos rfl]

theorem view_unlinkFile (store : PresenceStore) (id : ObjectId) :
    (store.unlinkFile id).view id = (store.view id).unlink := by
  unfold view unlinkFile ObjectView.unlink
  simp [Function.comp_def]

theorem view_installFile (store : PresenceStore) (id : ObjectId) (size : Nat) :
    (store.installFile id size).view id = (store.view id).install := by
  unfold view installFile ObjectView.install
  simp [Function.comp_def]

theorem view_forgotten (store : PresenceStore) (id : ObjectId) :
    ({ store with presence := store.presence.forgotten id }).view id =
      (store.view id).forget := by
  unfold view PresenceIndex.forgotten ObjectView.forget
  cases hauthoritative : store.presence.authoritative <;> simp

theorem view_prune (store : PresenceStore) (id : ObjectId) :
    ({ store with presence := store.presence.prune id }).view id =
      { (store.view id).forget with pruned := true } := by
  unfold view PresenceIndex.prune PresenceIndex.forgotten ObjectView.forget
  cases hauthoritative : store.presence.authoritative <;> simp

theorem view_listed (store : PresenceStore) (id : ObjectId) (batch : List ObjectId)
    (walk : Option PresenceWalk) :
    ({ store with presence := store.presence.listed batch, walk := walk }).view id =
      { store.view id with
        present := decide (id ∈ store.presence.present) || decide (id ∈ batch) &&
          !decide (id ∈ store.presence.pruned) &&
          !decide (id ∈ store.presence.forgottenWhileWarming)
        walk := ({ store with walk := walk }).view id |>.walk } := by
  have hmem : decide (id ∈ (store.presence.listed batch).present) =
      (decide (id ∈ store.presence.present) || decide (id ∈ batch) &&
        !decide (id ∈ store.presence.pruned) &&
        !decide (id ∈ store.presence.forgottenWhileWarming)) := by
    rw [Bool.eq_iff_iff]
    simp [PresenceIndex.mem_listed, and_assoc]
  unfold view
  rw [hmem]
  rfl

def eventObject : PresenceEvent → Option ObjectId
  | .put id _ _ | .store id _ | .publish id | .remove id | .unlink id _ | .prune id
  | .pruned id | .observe id | .observed id | .readName id => some id
  | _ => none

section

variable (hne : other ≠ id)

include hne

theorem view_enter_of_ne (stage : ObjectStage) :
    (store.enter other stage).view id = store.view id := by
  unfold view enter
  rw [getElem?_insert_of_ne _ _ hne]

theorem view_leave_of_ne : (store.leave other).view id = store.view id := by
  unfold view leave
  rw [getElem?_erase_of_ne _ hne]

theorem view_unlinkFile_of_ne : (store.unlinkFile other).view id = store.view id := by
  unfold view unlinkFile
  rw [getElem?_erase_of_ne _ hne]
  simp [Function.comp_def, hne.symm]

theorem view_installFile_of_ne (size : Nat) :
    (store.installFile other size).view id = store.view id := by
  unfold view installFile
  rw [getElem?_insert_of_ne _ _ hne]
  simp [Function.comp_def, hne.symm]

theorem view_presence_of_ne {index : PresenceIndex}
    (hindex : index = store.presence.forgotten other ∨ index = store.presence.prune other ∨
      index = store.presence.observed other ∨ index = store.presence.installed other) :
    ({ store with presence := index }).view id = store.view id := by
  have hne : id ≠ other := hne.symm
  rcases hindex with rfl | rfl | rfl | rfl
  · unfold view PresenceIndex.forgotten
    cases store.presence.authoritative <;> simp [hne]
  · unfold view PresenceIndex.prune PresenceIndex.forgotten
    cases store.presence.authoritative <;> simp [hne]
  · unfold view PresenceIndex.observed
    simp [hne]
  · unfold view PresenceIndex.installed
    simp [hne]

end

theorem view_step_of_ne (h : store.step event = some next)
    (hobject : eventObject event = some other) (hne : other ≠ id) :
    next.view id = store.view id := by
  cases event with
  | put object size damaged =>
    cases hobject
    obtain ⟨-, h⟩ := guard_bind_eq_some h
    split at h
    · cases h
      rfl
    · split at h
      · split at h
        · cases h
          rw [view_enter_of_ne hne, view_presence_of_ne hne (.inl rfl)]
        · cases h
          rfl
      · cases h
        exact view_enter_of_ne hne _
  | store object stored =>
    cases hobject
    simp only [step, storeObject] at h
    split at h
    · split at h
      · split at h
        · cases h
          exact view_leave_of_ne hne
        · cases h
          rw [view_enter_of_ne hne, view_installFile_of_ne hne]
      · cases h
        exact view_leave_of_ne hne
    · cases h
  | publish object =>
    cases hobject
    simp only [step, publish] at h
    split at h
    · cases h
      rw [view_leave_of_ne hne, view_presence_of_ne hne (.inr (.inr (.inr rfl)))]
    · cases h
  | remove object =>
    cases hobject
    obtain ⟨-, h⟩ := guard_bind_eq_some h
    split at h
    · cases h
      exact view_presence_of_ne hne (.inl rfl)
    · split at h
      · cases h
        rw [view_enter_of_ne hne, view_presence_of_ne hne (.inl rfl)]
      · cases h
        exact view_presence_of_ne hne (.inl rfl)
  | unlink object removed =>
    cases hobject
    simp only [step, unlink] at h
    split at h
    · split at h
      · split at h
        · cases h
          rw [view_enter_of_ne hne, view_unlinkFile_of_ne hne]
        · cases h
          rw [view_leave_of_ne hne, view_unlinkFile_of_ne hne]
      · cases h
        exact view_leave_of_ne hne
    · cases h
  | prune object =>
    cases hobject
    obtain ⟨-, h⟩ := guard_bind_eq_some h
    cases h
    rw [view_enter_of_ne hne, view_unlinkFile_of_ne hne]
  | pruned object =>
    cases hobject
    simp only [step, pruned] at h
    split at h
    · cases h
      rw [view_leave_of_ne hne, view_presence_of_ne hne (.inr (.inl rfl))]
    · cases h
  | observe object =>
    cases hobject
    obtain ⟨-, h⟩ := guard_bind_eq_some h
    cases h
    exact view_enter_of_ne hne _
  | observed object =>
    cases hobject
    simp only [step, observed] at h
    split at h
    · cases h
      rw [view_leave_of_ne hne, view_presence_of_ne hne (.inr (.inr (.inl rfl)))]
    · cases h
  | readName object =>
    cases hobject
    simp only [step, readName] at h
    split at h
    · next walk hwalk =>
      obtain ⟨-, h⟩ := guard_bind_eq_some h
      cases h
      unfold view
      rw [hwalk]
      simp [hne.symm]
    · cases h
  | beginWalk => cases hobject
  | flushBatch => cases hobject
  | walkFailed => cases hobject
  | warmed => cases hobject

theorem sound_step_self (sound : (store.view id).Sound) (h : store.step event = some next)
    (hobject : eventObject event = some id) (hwhole : RemovesWhole id ⟨store, event, next⟩) :
    (next.view id).Sound := by
  cases event with
  | put object size damaged =>
    cases hobject
    obtain ⟨hidle, h⟩ := guard_bind_eq_some h
    have hidle : (store.view id).stage = none := isNone_iff_eq_none.1 hidle
    split at h
    · cases h
      exact sound
    · split at h
      · next hloose =>
        split at h
        · cases h
          rw [view_enter, view_forgotten]
          exact sound.forget_file hloose _
        · cases h
          exact sound
      · next hloose =>
        cases h
        rw [view_enter]
        exact sound.absent (Bool.eq_false_iff.2 hloose) (by simp [hidle]) (.inr ⟨size, rfl⟩)
  | store object stored =>
    cases hobject
    simp only [step, storeObject] at h
    split at h
    · next size hstage =>
      have hstage : (store.view id).stage = some (.storing size) := hstage
      split at h
      · split at h
        · cases h
          rw [view_leave]
          exact sound.absent (sound.storing hstage) (by simp [hstage]) (.inl rfl)
        · cases h
          rw [view_enter, view_installFile]
          exact sound.install_storing
      · cases h
        rw [view_leave]
        exact sound.absent (sound.storing hstage) (by simp [hstage]) (.inl rfl)
    · cases h
  | publish object =>
    cases hobject
    simp only [step, publish] at h
    split at h
    · next hstage =>
      cases h
      have hview : ({ store with presence := store.presence.installed id }).view id =
          { store.view id with present := true, pruned := false } := by
        unfold view PresenceIndex.installed
        simp
      rw [view_leave, hview]
      exact sound.seen (sound.installed hstage) false
    · cases h
  | remove object =>
    cases hobject
    obtain ⟨hidle, h⟩ := guard_bind_eq_some h
    have hidle : (store.view id).stage = none := isNone_iff_eq_none.1 hidle
    split at h
    · next hpacked =>
      cases h
      have hloose : store.loose[id]? = none := hwhole rfl hpacked
      show (({ store with presence := store.presence.forgotten id }).view id).Sound
      rw [view_forgotten]
      exact sound.forget_absent hidle (by simp [view, hloose])
    · split at h
      · next hloose =>
        cases h
        rw [view_enter, view_forgotten]
        exact sound.forget_file hloose _
      · next hloose =>
        cases h
        rw [view_forgotten]
        exact sound.forget_absent hidle (Bool.eq_false_iff.2 hloose)
  | unlink object removed =>
    cases hobject
    have hremoved : removed = true := hwhole rfl
    subst hremoved
    simp only [step, unlink] at h
    split at h
    · next stores hstage =>
      simp only [if_true] at h
      split at h
      · next size =>
        cases h
        rw [view_enter, view_unlinkFile]
        exact sound.unlink_removing hstage (.inr ⟨size, rfl⟩)
      · cases h
        rw [view_leave, view_unlinkFile]
        exact sound.unlink_removing hstage (.inl rfl)
    · cases h
  | prune object =>
    cases hobject
    obtain ⟨-, h⟩ := guard_bind_eq_some h
    cases h
    rw [view_enter, view_unlinkFile]
    exact sound.unlink_empty
  | pruned object =>
    cases hobject
    simp only [step, pruned] at h
    split at h
    · next hstage =>
      cases h
      rw [view_leave, view_prune]
      exact sound.pruned (sound.pruning hstage)
    · cases h
  | observe object =>
    cases hobject
    obtain ⟨⟨hidle, hloose⟩, h⟩ := guard_bind_eq_some h
    cases h
    rw [view_enter]
    exact sound.observe (isNone_iff_eq_none.1 hidle) hloose
  | observed object =>
    cases hobject
    simp only [step, observed] at h
    split at h
    · next hstage =>
      cases h
      have hview : ({ store with presence := store.presence.observed id }).view id =
          { store.view id with present := true } := by
        unfold view PresenceIndex.observed
        simp
      rw [view_leave, hview]
      exact sound.seen (sound.observing hstage) _
    · cases h
  | readName object =>
    cases hobject
    simp only [step, readName] at h
    split at h
    · next walk hwalk =>
      obtain ⟨hoffered, h⟩ := guard_bind_eq_some h
      cases h
      have hview : (store.view id).walk = some
          ⟨decide (id ∈ walk.unread), decide (id ∈ walk.offered), decide (id ∈ walk.batch)⟩ := by
        unfold view
        rw [hwalk]
        rfl
      have hread := sound.readName hview (decide_eq_true hoffered)
      unfold view at hread ⊢
      simpa using hread
    · cases h
  | beginWalk => cases hobject
  | flushBatch => cases hobject
  | walkFailed => cases hobject
  | warmed => cases hobject

theorem sound_step_walk (sound : (store.view id).Sound) (h : store.step event = some next)
    (hobject : eventObject event = none) :
    (next.view id).Sound := by
  have hview {walk : PresenceWalk} (hwalk : store.walk = some walk) : (store.view id).walk = some
      ⟨decide (id ∈ walk.unread), decide (id ∈ walk.offered), decide (id ∈ walk.batch)⟩ := by
    unfold view
    rw [hwalk]
    rfl
  cases event with
  | beginWalk =>
    obtain ⟨⟨hwarming, -⟩, h⟩ := guard_bind_eq_some h
    cases h
    have hkeys : decide (id ∈ store.loose.keys.toFinset) = store.loose[id]?.isSome := by
      rw [Bool.eq_iff_iff]
      simp only [decide_eq_true_eq, List.mem_toFinset, OrdMap.mem_keys]
    have hbegun := sound.beginWalk hwarming
    unfold view at hbegun ⊢
    simp only [map_some, hkeys]
    exact hbegun
  | flushBatch =>
    simp only [step, flushBatch] at h
    split at h
    · next walk hwalk =>
      cases h
      rw [view_listed]
      exact sound.listed (hview hwalk) (.inr (by simp [view]))
    · cases h
  | walkFailed =>
    simp only [step, walkFailed] at h
    split at h
    · next walk hwalk =>
      cases h
      rw [view_listed]
      exact sound.listed (hview hwalk) (.inl rfl)
    · cases h
  | warmed =>
    simp only [step, warmed] at h
    split at h
    · next walk hwalk =>
      obtain ⟨⟨hunread, hbatch⟩, h⟩ := guard_bind_eq_some h
      cases h
      have hwarmed := sound.warmed (hview hwalk) (by simp [hunread])
        (by simp [List.isEmpty_iff.1 hbatch])
      have hview : ({ store with presence := store.presence.warmed, walk := none }).view id =
          { store.view id with authoritative := true, forgotten := false, walk := none } := by
        unfold view PresenceIndex.warmed
        simp
      exact hwarmed
    · cases h
  | _ => cases hobject

theorem sound_step (sound : (store.view id).Sound) (h : store.step event = some next)
    (hwhole : RemovesWhole id ⟨store, event, next⟩) :
    (next.view id).Sound := by
  cases hobject : eventObject event with
  | none => exact sound_step_walk sound h hobject
  | some other =>
    by_cases hid : other = id
    · subst hid
      exact sound_step_self sound h hobject hwhole
    · rw [view_step_of_ne h hobject hid]
      exact sound

theorem sound_opened (packThreshold : Nat) (loose : OrdMap ObjectId Nat)
    (packed : Finset ObjectId) (id : ObjectId) :
    ((opened packThreshold loose packed).view id).Sound := by
  have hstage : ((opened packThreshold loose packed).view id).stage = none :=
    Std.ExtTreeMap.getElem?_empty
  constructor
  · nofun
  · intro _
    exact .inr (.inr (.inr ⟨rfl, rfl, rfl, nofun⟩))
  · intro stores hnow
    cases hstage.symm.trans hnow
  · intro size hnow
    cases hstage.symm.trans hnow
  · intro hnow
    cases hstage.symm.trans hnow
  · intro hnow
    cases hstage.symm.trans hnow
  · intro hnow
    cases hstage.symm.trans hnow
  · nofun
  · nofun

theorem sound_run {trace : List (Transition PresenceStore PresenceEvent)} {opened : PresenceStore}
    (run : Run (Traced PresenceStep) opened trace store) (start : (opened.view id).Sound)
    (hwhole : Always (fun _ t => RemovesWhole id t) trace) : (store.view id).Sound :=
  run.invariant_of_always hwhole start fun _ _ _ hstep inv hlast =>
    sound_step inv hstep hlast

end PresenceStore

/-- Along every run in which the object is removed whole or not at all, `has` is
right about it after warm-up. -/
theorem has_tells_the_truth {packThreshold : Nat} {loose : OrdMap ObjectId Nat}
    {packed : Finset ObjectId} {trace : List (Transition PresenceStore PresenceEvent)}
    {store : PresenceStore}
    (run : Run (Traced PresenceStep) (.opened packThreshold loose packed) trace store)
    (id : ObjectId) (hwhole : Always (fun _ t => RemovesWhole id t) trace) : store.Truthful id :=
  PresenceStore.truthful_of_sound (PresenceStore.sound_run run
    (PresenceStore.sound_opened packThreshold loose packed id) hwhole)

namespace FailedUnlink

def object : ObjectId := [1]

def opened : PresenceStore := .opened 0 ((∅ : OrdMap ObjectId Nat).insert object 50) ∅

/-- The store is walked; then a removal forgets the object and cannot unlink it. -/
def events : List PresenceEvent :=
  [.beginWalk, .readName object, .flushBatch, .warmed, .remove object, .unlink object false]

def last : PresenceStore := (events.foldlM PresenceStore.step opened).getD {}

theorem possible : (events.foldlM PresenceStore.step opened).isSome = true := by decide +kernel

/-- The object's file is there, and `has` denies it. -/
theorem file_denied : ∃ trace, Run (Traced PresenceStep) opened trace last ∧
    trace.map (·.event) = events ∧ ¬ last.Truthful object := by
  obtain ⟨trace, run, hevents⟩ := exists_run_last possible (rfl : _ = last)
  refine ⟨trace, run, hevents, fun htruthful => ?_⟩
  have hends : last.presence.authoritative = true ∧ last.busy[object]? = none ∧
      last.has object = false ∧ last.loose[object]?.isSome = true := by decide +kernel
  have hhas := (htruthful hends.1 hends.2.1).2 (.inl hends.2.2.2)
  cases hhas

end FailedUnlink

namespace RemovedMidWalk

def kept : ObjectId := [2]

def gone : ObjectId := [3]

/-- A name is read, its object removed and put again before the batch is handed
over; the removal of another object fails. -/
def events : List PresenceEvent :=
  [.beginWalk, .readName kept, .readName gone, .remove kept, .unlink kept true, .flushBatch,
    .put kept 5 false, .store kept true, .publish kept, .remove gone, .unlink gone false, .warmed]

def opened : PresenceStore :=
  .opened 0 (((∅ : OrdMap ObjectId Nat).insert kept 50).insert gone 60) ∅

theorem possible : (events.foldlM (checkedStep PresenceStore.step (RemovesWhole kept)) opened).map
      (fun store : PresenceStore => (store.presence.authoritative, store.busy[kept]?)) =
        some (true, none) := by
  decide +kernel

theorem kept_is_known : ∃ trace store, Run (Traced PresenceStep) opened trace store ∧
    trace.map (·.event) = events ∧ Always (fun _ t => RemovesWhole kept t) trace ∧
    store.presence.authoritative = true ∧ store.busy[kept]? = none ∧ store.Truthful kept := by
  obtain ⟨store, hstore, hends⟩ := map_eq_some_iff.1 possible
  obtain ⟨trace, run, hwhole, hevents⟩ := exists_checked_run hstore
  simp only [Prod.mk.injEq] at hends
  exact ⟨trace, store, run, hevents, hwhole, hends.1, hends.2, has_tells_the_truth run kept hwhole⟩

end RemovedMidWalk

end Macha
