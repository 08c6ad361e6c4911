import Macha.Library.Run
import Macha.Storage.Retention

/-!
# Claims and deletions of data objects on one node

A claim path locks the stripes of its ids, sees that each object is here and
that no delete has marked it, and writes the claims. A delete that goes through
`ClaimStore::deletion` checks under the stripe that no claim stands and marks
the id until it is done. The drop of a local copy in `repair_step` checks that
no claim stands, and then removes the object without stripe or mark.
-/

namespace Macha

open List

/-- The stripe of an id: its first byte modulo the number of stripes. -/
def claimStripe (id : ObjectId) : Nat := id.headD 0 % 64

/-- The code that runs between two lock-delimited parts. -/
inductive ClaimThread
  /-- A claim path with its stripes held: the ids it found here, and those it
  has still to check. `strict` for `retain_objects` and `retain_on`, which
  refuse when one is not here; `retain_data_here` leaves it out. -/
  | claiming (strict : Bool) (ids : List ObjectId) (dot : RetentionDot)
      (held todo : List ObjectId)
  /-- A delete that marked the id and has not removed the object yet. -/
  | deleting (id : ObjectId)
  /-- A delete that is past the removal and still has its mark. -/
  | deleted (id : ObjectId)
  /-- A repair that found no claim on its object. -/
  | dropping (id : ObjectId)
deriving DecidableEq, Repr

namespace ClaimThread

/-- The ids whose stripes the thread holds. -/
def guarded : ClaimThread → List ObjectId
  | claiming _ ids _ _ _ => ids
  | _ => []

def mark : ClaimThread → Option ObjectId
  | deleting id => some id
  | deleted id => some id
  | _ => none

def found : ClaimThread → List ObjectId
  | claiming _ _ _ held _ => held
  | _ => []

end ClaimThread

/-- The node: its data objects, its claims, the marks, and what is under way. -/
structure ClaimWorld where
  holds : ObjectId → Bool
  ledger : RetentionLedger
  deleting : List ObjectId
  threads : List ClaimThread

namespace ClaimWorld

/-- No claim path holds the stripe of the id. -/
def StripeFree (w : ClaimWorld) (id : ObjectId) : Prop :=
  ∀ t ∈ w.threads, ∀ i ∈ t.guarded, claimStripe i ≠ claimStripe id

def present (w : ClaimWorld) (id : ObjectId) : Bool :=
  !w.deleting.contains id && w.holds id

def start (w : ClaimWorld) (t : ClaimThread) : ClaimWorld :=
  { w with threads := t :: w.threads }

def finish (w : ClaimWorld) (t : ClaimThread) : ClaimWorld :=
  { w with threads := w.threads.erase t }

def put (w : ClaimWorld) (id : ObjectId) : ClaimWorld :=
  { w with holds := Function.update w.holds id true }

def remove (w : ClaimWorld) (id : ObjectId) : ClaimWorld :=
  { w with holds := Function.update w.holds id false }

end ClaimWorld

/-- What a step did, as far as the laws below speak of it. -/
inductive ClaimEvent
  /-- Claims on the ids were written; the path reports success. -/
  | claimed (ids : List ObjectId) (dot : RetentionDot)
  /-- `repair_step` removed the local copy. -/
  | dropped (id : ObjectId)
  | internal
deriving DecidableEq, Repr

open ClaimThread in
inductive ClaimStep : ClaimWorld → ClaimEvent → ClaimWorld → Prop
  | put {w : ClaimWorld} {id : ObjectId} : ClaimStep w .internal (w.put id)
  | guard {w : ClaimWorld} {strict : Bool} {ids : List ObjectId} {dot : RetentionDot}
      (hfree : ∀ id ∈ ids, w.StripeFree id) :
      ClaimStep w .internal (w.start (claiming strict ids dot [] ids))
  | find {w : ClaimWorld} {strict : Bool} {ids : List ObjectId} {dot : RetentionDot}
      {held todo : List ObjectId} {id : ObjectId}
      (hthread : claiming strict ids dot held (id :: todo) ∈ w.threads)
      (hpresent : w.present id = true) :
      ClaimStep w .internal
        ((w.finish (claiming strict ids dot held (id :: todo))).start
          (claiming strict ids dot (held ++ [id]) todo))
  | refuse {w : ClaimWorld} {ids : List ObjectId} {dot : RetentionDot}
      {held todo : List ObjectId} {id : ObjectId}
      (hthread : claiming true ids dot held (id :: todo) ∈ w.threads)
      (habsent : w.present id = false) :
      ClaimStep w .internal (w.finish (claiming true ids dot held (id :: todo)))
  | leave {w : ClaimWorld} {ids : List ObjectId} {dot : RetentionDot}
      {held todo : List ObjectId} {id : ObjectId}
      (hthread : claiming false ids dot held (id :: todo) ∈ w.threads)
      (habsent : w.present id = false) :
      ClaimStep w .internal
        ((w.finish (claiming false ids dot held (id :: todo))).start
          (claiming false ids dot held todo))
  /-- The claims are written and the stripes released. -/
  | write {w : ClaimWorld} {strict : Bool} {ids : List ObjectId} {dot : RetentionDot}
      {held : List ObjectId} {ledger : RetentionLedger}
      (hthread : claiming strict ids dot held [] ∈ w.threads)
      (hwrite : w.ledger.retainBatch held dot = some ledger) :
      ClaimStep w (.claimed held dot)
        { w.finish (claiming strict ids dot held []) with ledger := ledger }
  /-- The write is refused, or the state device fails. -/
  | throw {w : ClaimWorld} {strict : Bool} {ids : List ObjectId} {dot : RetentionDot}
      {held : List ObjectId} (hthread : claiming strict ids dot held [] ∈ w.threads) :
      ClaimStep w .internal (w.finish (claiming strict ids dot held []))
  /-- `deletion` found no claim and marks the id. -/
  | deletion {w : ClaimWorld} {id : ObjectId} (hfree : w.StripeFree id)
      (hunclaimed : w.ledger.retained id = false) :
      ClaimStep w .internal { w.start (deleting id) with deleting := id :: w.deleting }
  /-- The removal of `gc_step`, `delete_object` or `erase_all`. -/
  | delete {w : ClaimWorld} {id : ObjectId} (hthread : deleting id ∈ w.threads) :
      ClaimStep w .internal (((w.finish (deleting id)).start (deleted id)).remove id)
  /-- Nothing is removed, or not the node's last copy: no resource is free, the
  copy is too young, or another backend has one. -/
  | deleteKept {w : ClaimWorld} {id : ObjectId} (hthread : deleting id ∈ w.threads) :
      ClaimStep w .internal ((w.finish (deleting id)).start (deleted id))
  | endDeleting {w : ClaimWorld} {id : ObjectId} (hthread : deleted id ∈ w.threads) :
      ClaimStep w .internal
        { w.finish (deleted id) with deleting := w.deleting.erase id }
  /-- The check of `repair_step` before it waits for a resource. -/
  | repair {w : ClaimWorld} {id : ObjectId} (hunclaimed : w.ledger.retained id = false) :
      ClaimStep w .internal (w.start (dropping id))
  | drop {w : ClaimWorld} {id : ObjectId} (hthread : dropping id ∈ w.threads) :
      ClaimStep w (.dropped id) ((w.finish (dropping id)).remove id)
  | dropKept {w : ClaimWorld} {id : ObjectId} (hthread : dropping id ∈ w.threads) :
      ClaimStep w .internal (w.finish (dropping id))
  | release {w : ClaimWorld} {ids : List ObjectId} {observed : VersionClock} :
      ClaimStep w .internal { w with ledger := w.ledger.release ids observed }
  | prune {w : ClaimWorld} {ids : List ObjectId} :
      ClaimStep w .internal { w with ledger := w.ledger.prune ids }

/-! ## What the marks and stripes secure -/

/-- The part of the protocol no removal can break: the marks are those of the
deletes under way, a claimed object has no mark, and neither has one that a
claim path found here and guards. -/
structure ClaimInvariant (w : ClaimWorld) : Prop where
  marks : w.deleting.Perm (w.threads.filterMap ClaimThread.mark)
  unmarked : ∀ id, w.ledger.retained id = true → id ∉ w.deleting
  foundUnmarked : ∀ t ∈ w.threads, ∀ id ∈ t.found, id ∉ w.deleting
  foundGuarded : ∀ t ∈ w.threads, ∀ id ∈ t.found, id ∈ t.guarded
  todoGuarded : ∀ strict ids dot held todo,
    ClaimThread.claiming strict ids dot held todo ∈ w.threads → todo ⊆ ids

namespace ClaimWorld

variable {w : ClaimWorld} {id : ObjectId}

theorem mem_finish {t u : ClaimThread} (h : u ∈ (w.finish t).threads) : u ∈ w.threads :=
  mem_of_mem_erase h

theorem mem_deleting_of_mark (inv : ClaimInvariant w) {t : ClaimThread} (ht : t ∈ w.threads)
    (hmark : t.mark = some id) : id ∈ w.deleting :=
  inv.marks.mem_iff.2 (mem_filterMap.2 ⟨t, ht, hmark⟩)

theorem not_deleting_of_present (h : w.present id = true) : id ∉ w.deleting := by
  unfold present at h
  simp only [Bool.and_eq_true, Bool.not_eq_true', contains_eq_mem, decide_eq_false_iff_not] at h
  exact h.1

theorem holds_of_present (h : w.present id = true) : w.holds id = true := by
  exact (Bool.and_eq_true_iff.1 h).2

theorem put_holds (id i : ObjectId) : (w.put id).holds i = if i = id then true else w.holds i := by
  unfold put
  by_cases h : i = id <;> simp [h]

theorem remove_holds (id i : ObjectId) :
    (w.remove id).holds i = if i = id then false else w.holds i := by
  unfold remove
  by_cases h : i = id <;> simp [h]

theorem filterMap_mark_finish {t : ClaimThread} (ht : t ∈ w.threads) :
    (w.threads.filterMap ClaimThread.mark).Perm
      (t.mark.toList ++ (w.finish t).threads.filterMap ClaimThread.mark) := by
  have hperm := (perm_cons_erase ht).filterMap ClaimThread.mark
  refine hperm.trans ?_
  rw [filterMap_cons]
  cases t.mark <;> exact List.Perm.refl _

end ClaimWorld

namespace ClaimInvariant

variable {w : ClaimWorld}

open ClaimWorld ClaimThread

section

variable (inv : ClaimInvariant w)

include inv

theorem finish {t : ClaimThread} (ht : t ∈ w.threads) (hmark : t.mark = none) :
    ClaimInvariant (w.finish t) where
  marks := by
    have hperm := filterMap_mark_finish ht
    rw [hmark] at hperm
    exact inv.marks.trans hperm
  unmarked := inv.unmarked
  foundUnmarked u hu := inv.foundUnmarked u (mem_finish hu)
  foundGuarded u hu := inv.foundGuarded u (mem_finish hu)
  todoGuarded strict ids dot held todo hu :=
    inv.todoGuarded strict ids dot held todo (mem_finish hu)

theorem start {t : ClaimThread} (hmark : t.mark = none) (hfound : ∀ id ∈ t.found, id ∉ w.deleting)
    (hguarded : ∀ id ∈ t.found, id ∈ t.guarded)
    (htodo : ∀ strict ids dot held todo, t = claiming strict ids dot held todo → todo ⊆ ids) :
    ClaimInvariant (w.start t) where
  marks := by
    show w.deleting.Perm (filterMap ClaimThread.mark (t :: w.threads))
    rw [filterMap_cons, hmark]
    exact inv.marks
  unmarked := inv.unmarked
  foundUnmarked u hu := by
    rcases mem_cons.1 hu with rfl | hu
    · exact hfound
    · exact inv.foundUnmarked u hu
  foundGuarded u hu := by
    rcases mem_cons.1 hu with rfl | hu
    · exact hguarded
    · exact inv.foundGuarded u hu
  todoGuarded strict ids dot held todo hu := by
    rcases mem_cons.1 hu with heq | hu
    · exact htodo strict ids dot held todo heq.symm
    · exact inv.todoGuarded strict ids dot held todo hu

theorem withHolds (holds : ObjectId → Bool) : ClaimInvariant { w with holds := holds } where
  __ := inv

theorem withLedger {ledger : RetentionLedger}
    (h : ∀ id, ledger.retained id = true → w.ledger.retained id = true ∨ id ∉ w.deleting) :
    ClaimInvariant { w with ledger := ledger } where
  __ := inv
  unmarked id hid := by
    rcases h id hid with hbefore | hunmarked
    · exact inv.unmarked id hbefore
    · exact hunmarked

end

variable {id : ObjectId}

theorem delete (inv : ClaimInvariant w) (ht : deleting id ∈ w.threads) :
    ClaimInvariant ((w.finish (deleting id)).start (deleted id)) where
  marks := by
    exact inv.marks.trans (filterMap_mark_finish ht)
  unmarked := inv.unmarked
  foundUnmarked u hu := by
    rcases mem_cons.1 hu with rfl | hu
    · nofun
    · exact inv.foundUnmarked u (mem_finish hu)
  foundGuarded u hu := by
    rcases mem_cons.1 hu with rfl | hu
    · nofun
    · exact inv.foundGuarded u (mem_finish hu)
  todoGuarded strict ids dot held todo hu := by
    rcases mem_cons.1 hu with heq | hu
    · cases heq
    · exact inv.todoGuarded strict ids dot held todo (mem_finish hu)

/-- Marking needs the stripe: no claim path has found the object here. -/
theorem deletion (inv : ClaimInvariant w) (hfree : w.StripeFree id)
    (hunclaimed : w.ledger.retained id = false) :
    ClaimInvariant { w.start (deleting id) with deleting := id :: w.deleting } where
  marks := inv.marks.cons id
  unmarked i hi hmem := by
    rcases mem_cons.1 hmem with rfl | hmem
    · have hclaimed : w.ledger.retained i = true := hi
      rw [hunclaimed] at hclaimed
      cases hclaimed
    · exact inv.unmarked i hi hmem
  foundUnmarked u hu i hi hmem := by
    rcases mem_cons.1 hu with rfl | hu
    · cases hi
    · rcases mem_cons.1 hmem with heq | hmem
      · rw [heq] at hi
        exact hfree u hu id (inv.foundGuarded u hu id hi) rfl
      · exact inv.foundUnmarked u hu i hi hmem
  foundGuarded u hu := by
    rcases mem_cons.1 hu with rfl | hu
    · nofun
    · exact inv.foundGuarded u hu
  todoGuarded strict ids dot held todo hu := by
    rcases mem_cons.1 hu with heq | hu
    · cases heq
    · exact inv.todoGuarded strict ids dot held todo hu

theorem endDeleting (inv : ClaimInvariant w) (ht : deleted id ∈ w.threads) :
    ClaimInvariant { w.finish (deleted id) with deleting := w.deleting.erase id } where
  marks := by
    have hperm := (inv.marks.trans (filterMap_mark_finish ht)).erase id
    have hhead : ((deleted id).mark.toList ++
        filterMap ClaimThread.mark (w.finish (deleted id)).threads).erase id =
          filterMap ClaimThread.mark (w.finish (deleted id)).threads :=
      erase_cons_head _ _
    rwa [hhead] at hperm
  unmarked i hi hmem := inv.unmarked i hi (mem_of_mem_erase hmem)
  foundUnmarked u hu i hi hmem :=
    inv.foundUnmarked u (mem_finish hu) i hi (mem_of_mem_erase hmem)
  foundGuarded u hu := inv.foundGuarded u (mem_finish hu)
  todoGuarded strict ids dot held todo hu :=
    inv.todoGuarded strict ids dot held todo (mem_finish hu)

end ClaimInvariant

namespace RetentionLedger

variable {ledger after : RetentionLedger} {ids : List ObjectId} {dot : RetentionDot}

/-- The object's state was not released past the dot, so the claim takes. -/
def takes (ledger : RetentionLedger) (id : ObjectId) (dot : RetentionDot) : Bool :=
  (ledger.state id).takes dot

theorem takes_applyAdd (s : ObjectState) (dot other : RetentionDot) :
    (s.applyAdd dot).takes other = s.takes other := by
  unfold ObjectState.applyAdd
  split
  · rfl
  · split <;> rfl

theorem takes_update_applyAdd (id i : ObjectId) (other : RetentionDot) :
    (ledger.update id (·.applyAdd dot)).takes i other = ledger.takes i other := by
  unfold takes
  rw [state_update]
  split
  · exact takes_applyAdd _ _ _
  · rfl

theorem retained_update_applyAdd (id i : ObjectId) :
    (ledger.update id (·.applyAdd dot)).retained i = true ↔
      ledger.retained i = true ∨ id = i ∧ ledger.takes i dot = true := by
  unfold retained takes
  rw [state_update]
  by_cases hid : id = i
  · cases htakes : (ledger.state i).takes dot with
    | true => simp [hid, ObjectState.claimed_applyAdd htakes]
    | false => simp [ObjectState.applyAdd_of_not_takes htakes]
  · simp [hid]

theorem retained_retainBatch (h : ledger.retainBatch ids dot = some after) (i : ObjectId) :
    after.retained i = true ↔ ledger.retained i = true ∨ i ∈ ids ∧ ledger.takes i dot = true := by
  unfold retainBatch at h
  split at h
  · cases h
  · cases h
    induction ids generalizing ledger with
    | nil => simp
    | cons id ids ih =>
      rw [foldl_cons, ih, retained_update_applyAdd, takes_update_applyAdd,
        mem_cons, or_assoc, ← or_and_right, @eq_comm _ id i]

end RetentionLedger

open ClaimThread in
theorem ClaimStep.claimInvariant {w w' : ClaimWorld} {event : ClaimEvent}
    (h : ClaimStep w event w') (inv : ClaimInvariant w) : ClaimInvariant w' := by
  cases h with
  | put => exact inv.withHolds _
  | guard hfree =>
    refine inv.start rfl (by nofun) (by nofun) ?_
    intro strict ids dot held todo heq
    cases heq
    exact List.Subset.refl _
  | @find strict ids dot held todo id hthread hpresent =>
    have htodo := inv.todoGuarded _ _ _ _ _ hthread
    refine (inv.finish hthread rfl).start rfl ?_ ?_ ?_
    · intro i hi
      rcases mem_append.1 hi with hi | hi
      · exact inv.foundUnmarked _ hthread i hi
      · rw [mem_singleton.1 hi]
        exact ClaimWorld.not_deleting_of_present hpresent
    · intro i hi
      rcases mem_append.1 hi with hi | hi
      · exact inv.foundGuarded _ hthread i hi
      · rw [mem_singleton.1 hi]
        exact htodo mem_cons_self
    · intro strict' ids' dot' held' todo' heq
      cases heq
      exact fun i hi => htodo (mem_cons_of_mem _ hi)
  | refuse hthread habsent => exact inv.finish hthread rfl
  | @leave ids dot held todo id hthread habsent =>
    refine (inv.finish hthread rfl).start rfl
      (inv.foundUnmarked (claiming false ids dot held (id :: todo)) hthread)
      (inv.foundGuarded (claiming false ids dot held (id :: todo)) hthread) ?_
    intro strict' ids' dot' held' todo' heq
    cases heq
    exact fun i hi => inv.todoGuarded _ _ _ _ _ hthread (mem_cons_of_mem _ hi)
  | write hthread hwrite =>
    refine (inv.finish hthread rfl).withLedger fun i hi => ?_
    rcases (RetentionLedger.retained_retainBatch hwrite i).1 hi with hstood | hnew
    · exact .inl hstood
    · exact .inr (inv.foundUnmarked _ hthread i hnew.1)
  | throw hthread => exact inv.finish hthread rfl
  | deletion hfree hunclaimed => exact inv.deletion hfree hunclaimed
  | delete hthread => exact (inv.delete hthread).withHolds _
  | deleteKept hthread => exact inv.delete hthread
  | endDeleting hthread => exact inv.endDeleting hthread
  | repair hunclaimed => exact inv.start rfl (by nofun) (by nofun) (by nofun)
  | drop hthread => exact (inv.finish hthread rfl).withHolds _
  | dropKept hthread => exact inv.finish hthread rfl
  | release => exact inv.withLedger fun i hi => .inl (RetentionLedger.retained_of_release _ hi)
  | prune =>
    refine inv.withLedger fun i hi => .inl ?_
    rwa [RetentionLedger.retained_prune] at hi

/-! ## Claimed objects stay -/

def ClaimsHeld (w : ClaimWorld) : Prop :=
  ∀ id, w.ledger.retained id = true → w.holds id = true

def ClaimedCopiesStay (_past : List (Transition ClaimWorld ClaimEvent))
    (t : Transition ClaimWorld ClaimEvent) : Prop :=
  ClaimsHeld t.after

/-- Repair drops no claimed object, and a claim that is written and takes
effect is on an object that is still here. -/
def UnclaimedDrops (_past : List (Transition ClaimWorld ClaimEvent))
    (t : Transition ClaimWorld ClaimEvent) : Prop :=
  (∀ id, t.event = .dropped id → t.before.ledger.retained id = false) ∧
    ∀ ids dot, t.event = .claimed ids dot →
      ∀ id ∈ ids, t.before.ledger.takes id dot = true → t.before.holds id = true

/-- Repair drops no object that is claimed, or that a claim path has found here
and not yet claimed. -/
def DropsOutsideClaims (_past : List (Transition ClaimWorld ClaimEvent))
    (t : Transition ClaimWorld ClaimEvent) : Prop :=
  ∀ id, t.event = .dropped id →
    t.before.ledger.retained id = false ∧ ∀ u ∈ t.before.threads, id ∉ u.found

def FoundHeld (w : ClaimWorld) : Prop := ∀ t ∈ w.threads, ∀ id ∈ t.found, w.holds id = true

section

variable {w w' : ClaimWorld} {event : ClaimEvent} {id : ObjectId}

theorem ClaimsHeld.remove (h : ClaimsHeld w) (hunclaimed : w.ledger.retained id = false) :
    ClaimsHeld (w.remove id) := by
  intro i hi
  rw [ClaimWorld.remove_holds]
  split
  · next heq =>
    subst heq
    have hclaimed : w.ledger.retained i = true := hi
    rw [hunclaimed] at hclaimed
    cases hclaimed
  · exact h i hi

theorem FoundHeld.remove (h : FoundHeld w) (hunfound : ∀ t ∈ w.threads, id ∉ t.found) :
    FoundHeld (w.remove id) := by
  intro t ht i hi
  rw [ClaimWorld.remove_holds]
  split
  · next heq =>
    subst heq
    exact (hunfound t ht hi).elim
  · exact h t ht i hi

theorem FoundHeld.finish (h : FoundHeld w) (t : ClaimThread) : FoundHeld (w.finish t) :=
  fun u hu => h u (ClaimWorld.mem_finish hu)

theorem FoundHeld.start (h : FoundHeld w) {t : ClaimThread}
    (hfound : ∀ id ∈ t.found, w.holds id = true) : FoundHeld (w.start t) := by
  intro u hu
  rcases mem_cons.1 hu with rfl | hu
  · exact hfound
  · exact h u hu

theorem ClaimInvariant.unclaimed_of_mark (inv : ClaimInvariant w) {t : ClaimThread}
    (ht : t ∈ w.threads) (hmark : t.mark = some id) :
    w.ledger.retained id = false := by
  rw [← Bool.not_eq_true]
  intro hclaimed
  exact inv.unmarked id hclaimed (ClaimWorld.mem_deleting_of_mark inv ht hmark)

/-- One step keeps the claimed objects here exactly when it drops no claimed
one and claims none that is gone. -/
theorem ClaimStep.claimsHeld_iff (h : ClaimStep w event w') (inv : ClaimInvariant w)
    (held : ClaimsHeld w) (past : List (Transition ClaimWorld ClaimEvent)) :
    ClaimsHeld w' ↔ UnclaimedDrops past ⟨w, event, w'⟩ := by
  have internal : event = .internal → UnclaimedDrops past ⟨w, event, w'⟩ := by
    rintro rfl
    exact ⟨by nofun, by nofun⟩
  cases h with
  | put =>
    refine ⟨fun _ => internal rfl, fun _ i hi => ?_⟩
    rw [ClaimWorld.put_holds]
    split
    · rfl
    · exact held i hi
  | guard => exact ⟨fun _ => internal rfl, fun _ => held⟩
  | find => exact ⟨fun _ => internal rfl, fun _ => held⟩
  | refuse => exact ⟨fun _ => internal rfl, fun _ => held⟩
  | leave => exact ⟨fun _ => internal rfl, fun _ => held⟩
  | @write strict ids dot found ledger hthread hwrite =>
    have hretained := RetentionLedger.retained_retainBatch hwrite
    constructor
    · intro hafter
      refine ⟨by nofun, ?_⟩
      intro ids' dot' heq id hid htakes
      cases heq
      exact hafter id ((hretained id).2 (.inr ⟨hid, htakes⟩))
    · intro hcond i hi
      rcases (hretained i).1 hi with hstood | hnew
      · exact held i hstood
      · exact hcond.2 _ _ rfl i hnew.1 hnew.2
  | throw => exact ⟨fun _ => internal rfl, fun _ => held⟩
  | deletion => exact ⟨fun _ => internal rfl, fun _ => held⟩
  | delete hthread =>
    exact ⟨fun _ => internal rfl, fun _ =>
      ClaimsHeld.remove (w := (w.finish _).start _) held (inv.unclaimed_of_mark hthread rfl)⟩
  | deleteKept => exact ⟨fun _ => internal rfl, fun _ => held⟩
  | endDeleting => exact ⟨fun _ => internal rfl, fun _ => held⟩
  | repair => exact ⟨fun _ => internal rfl, fun _ => held⟩
  | @drop id hthread =>
    constructor
    · intro hafter
      refine ⟨?_, by nofun⟩
      intro i heq
      cases heq
      rw [← Bool.not_eq_true]
      intro hclaimed
      have hgone := hafter id hclaimed
      rw [ClaimWorld.remove_holds, if_pos rfl] at hgone
      cases hgone
    · intro hcond
      exact ClaimsHeld.remove (w := w.finish _) held (hcond.1 id rfl)
  | dropKept => exact ⟨fun _ => internal rfl, fun _ => held⟩
  | release =>
    exact ⟨fun _ => internal rfl, fun _ i hi =>
      held i (RetentionLedger.retained_of_release _ hi)⟩
  | prune =>
    refine ⟨fun _ => internal rfl, fun _ i hi => held i ?_⟩
    have hafter : (w.ledger.prune _).retained i = true := hi
    rwa [RetentionLedger.retained_prune] at hafter

variable {past : List (Transition ClaimWorld ClaimEvent)}

theorem ClaimStep.foundHeld (h : ClaimStep w event w') (inv : ClaimInvariant w)
    (found : FoundHeld w) (hdrops : DropsOutsideClaims past ⟨w, event, w'⟩) : FoundHeld w' := by
  cases h with
  | put =>
    intro t ht i hi
    rw [ClaimWorld.put_holds]
    split
    · rfl
    · exact found t ht i hi
  | guard => exact found.start (by nofun)
  | find hthread hpresent =>
    refine (found.finish _).start fun i hi => ?_
    rcases mem_append.1 hi with hi | hi
    · exact found _ hthread i hi
    · rw [mem_singleton.1 hi]
      exact ClaimWorld.holds_of_present hpresent
  | refuse => exact found.finish _
  | leave hthread =>
    exact (found.finish _).start fun i hi => found _ hthread i hi
  | write => exact found.finish _
  | throw => exact found.finish _
  | deletion => exact found.start (by nofun)
  | delete hthread =>
    refine FoundHeld.remove ((found.finish _).start (by nofun)) ?_
    intro t ht hi
    rcases mem_cons.1 ht with rfl | ht
    · cases hi
    · exact inv.foundUnmarked t (ClaimWorld.mem_finish ht) _ hi
        (ClaimWorld.mem_deleting_of_mark inv hthread rfl)
  | deleteKept => exact (found.finish _).start (by nofun)
  | endDeleting => exact found.finish _
  | repair => exact found.start (by nofun)
  | drop hthread =>
    exact FoundHeld.remove (found.finish _) fun t ht =>
      (hdrops _ rfl).2 t (ClaimWorld.mem_finish ht)
  | dropKept => exact found.finish _
  | release => exact found
  | prune => exact found

theorem ClaimStep.unclaimedDrops (h : ClaimStep w event w') (found : FoundHeld w)
    (hdrops : DropsOutsideClaims past ⟨w, event, w'⟩) : UnclaimedDrops past ⟨w, event, w'⟩ := by
  refine ⟨fun id heq => (hdrops id heq).1, ?_⟩
  intro ids dot heq id hid _
  have heq : event = .claimed ids dot := heq
  cases h with
  | write hthread hwrite =>
    cases heq
    exact found _ hthread id hid
  | _ => cases heq

end

/-- A node where nothing is under way and every claimed object is here. -/
structure ClaimsStart (w : ClaimWorld) : Prop where
  held : ClaimsHeld w
  idle : w.threads = []
  unmarked : w.deleting = []

theorem ClaimsStart.claimInvariant {w : ClaimWorld} (h : ClaimsStart w) : ClaimInvariant w where
  marks := by rw [h.idle, h.unmarked]; exact List.Perm.refl _
  unmarked := by rw [h.unmarked]; nofun
  foundUnmarked := by rw [h.idle]; nofun
  foundGuarded := by rw [h.idle]; nofun
  todoGuarded := by rw [h.idle]; nofun

section

variable {w w' : ClaimWorld} {events : List (Transition ClaimWorld ClaimEvent)}

/-- The objects stay at every state of a run exactly when each step of the run
drops no claimed object and claims none that is gone. -/
theorem always_claimedCopiesStay_iff (start : ClaimsStart w)
    (run : Run (Traced ClaimStep) w events w') :
    Always ClaimedCopiesStay events ↔ Always UnclaimedDrops events := by
  have hinv : ClaimInvariant w' ∧ (Always ClaimedCopiesStay events → ClaimsHeld w') ∧
      (Always ClaimedCopiesStay events ↔ Always UnclaimedDrops events) := by
    refine run.invariant (P := fun events w => ClaimInvariant w ∧
      (Always ClaimedCopiesStay events → ClaimsHeld w) ∧
        (Always ClaimedCopiesStay events ↔ Always UnclaimedDrops events)) ?_ ?_
    · exact ⟨start.claimInvariant, fun _ => start.held, iff_of_true (always_nil _) (always_nil _)⟩
    · rintro past u ⟨before, event, after⟩ v ⟨inv, held, hiff⟩ ⟨hstep, rfl, rfl⟩
      refine ⟨hstep.claimInvariant inv, fun hall => (always_snoc.1 hall).2, ?_⟩
      rw [always_snoc, always_snoc, ← hiff]
      refine and_congr_right fun hpast => ?_
      exact hstep.claimsHeld_iff inv (held hpast) past
  exact hinv.2.2

theorem always_unclaimedDrops (start : ClaimsStart w) (run : Run (Traced ClaimStep) w events w')
    (hdrops : Always DropsOutsideClaims events) : Always UnclaimedDrops events := by
  have hinv : ClaimInvariant w' ∧ (Always DropsOutsideClaims events →
      FoundHeld w' ∧ Always UnclaimedDrops events) := by
    refine run.invariant (P := fun events w => ClaimInvariant w ∧
      (Always DropsOutsideClaims events → FoundHeld w ∧ Always UnclaimedDrops events)) ?_ ?_
    · refine ⟨start.claimInvariant, fun _ => ⟨?_, always_nil _⟩⟩
      intro t ht
      rw [start.idle] at ht
      cases ht
    · rintro past u ⟨before, event, after⟩ v ⟨inv, hfound⟩ ⟨hstep, rfl, rfl⟩
      refine ⟨hstep.claimInvariant inv, fun hall => ?_⟩
      rw [always_snoc] at hall
      rcases hfound hall.1 with ⟨found, hpast⟩
      exact ⟨hstep.foundHeld inv found hall.2,
        always_snoc.2 ⟨hpast, hstep.unclaimedDrops found hall.2⟩⟩
  exact (hinv.2 hdrops).2

/-- Claimed objects stay in every interleaving in which repair drops neither a
claimed object nor one that a claim path is about to claim; and the exact
condition, step by step. -/
theorem claimed_copies_stay_iff (start : ClaimsStart w) (run : Run (Traced ClaimStep) w events w') :
    (Always DropsOutsideClaims events → Always ClaimedCopiesStay events) ∧
      (Always ClaimedCopiesStay events ↔ Always UnclaimedDrops events) :=
  ⟨fun hdrops => (always_claimedCopiesStay_iff start run).2
      (always_unclaimedDrops start run hdrops),
    always_claimedCopiesStay_iff start run⟩

end

/-! ## A claim between the check and the drop -/

namespace RacingDrop

def object : ObjectId := [7]

def dot : RetentionDot := { origin := 1, sequence := 1 }

def idle : ClaimWorld :=
  { holds := fun id => decide (id = object), ledger := ∅, deleting := [], threads := [] }

theorem idle_claimsStart : ClaimsStart idle where
  held := by
    intro id hid
    have hempty : idle.ledger.retained id = false := RetentionLedger.retained_empty id
    cases hid
  idle := rfl
  unmarked := rfl

def claimed : RetentionLedger := (RetentionLedger.retainBatch ∅ [object] dot).getD ∅

theorem retainBatch_object : RetentionLedger.retainBatch ∅ [object] dot = some claimed := rfl

def guarding (w : ClaimWorld) : ClaimWorld :=
  w.start (.claiming true [object] dot [] [object])

def found (w : ClaimWorld) : ClaimWorld :=
  ((guarding w).finish (.claiming true [object] dot [] [object])).start
    (.claiming true [object] dot [object] [])

def written (w : ClaimWorld) : ClaimWorld :=
  { (found w).finish (.claiming true [object] dot [object] []) with ledger := claimed }

theorem claim_runs {w : ClaimWorld} (hfree : w.StripeFree object)
    (hpresent : w.present object = true) (hledger : w.ledger = ∅) :
    ClaimStep w .internal (guarding w) ∧ ClaimStep (guarding w) .internal (found w) ∧
      ClaimStep (found w) (.claimed [object] dot) (written w) := by
  refine ⟨.guard ?_, .find mem_cons_self hpresent, .write mem_cons_self ?_⟩
  · intro id hid
    rw [mem_singleton.1 hid]
    exact hfree
  · show w.ledger.retainBatch [object] dot = some claimed
    rw [hledger, retainBatch_object]

/-- Repair checks, a claim is made and reported, and then repair drops the
object: it is claimed and not here. -/
theorem claimed_copy_dropped :
    ∃ events w', ClaimsStart idle ∧ Run (Traced ClaimStep) idle events w' ∧
      (ClaimEvent.claimed [object] dot) ∈ events.map Transition.event ∧
        ¬ Always ClaimedCopiesStay events := by
  let checked := idle.start (.dropping object)
  let dropped := ((written checked).finish (.dropping object)).remove object
  have hcheck : ClaimStep idle .internal checked :=
    .repair (RetentionLedger.retained_empty object)
  have hclaim : ClaimStep checked .internal (guarding checked) ∧
      ClaimStep (guarding checked) .internal (found checked) ∧
        ClaimStep (found checked) (.claimed [object] dot) (written checked) := by
    refine claim_runs ?_ (by decide) rfl
    intro t ht i hi
    rw [mem_singleton.1 ht] at hi
    cases hi
  have hdrop : ClaimStep (written checked) (.dropped object) dropped := .drop (by decide)
  refine ⟨_, dropped, idle_claimsStart,
    ((((Run.refl.trace_snoc hcheck).trace_snoc hclaim.1).trace_snoc hclaim.2.1).trace_snoc
      hclaim.2.2).trace_snoc hdrop, by simp, ?_⟩
  intro hall
  have hheld : ClaimsHeld dropped := (always_snoc.1 hall).2
  have hgone := hheld object (by decide +kernel)
  cases hgone

/-- Without the repair the claim leaves the object here. -/
theorem claimed_copy_stays :
    ClaimsHeld (written idle) ∧ (written idle).ledger.retained object = true := by
  have hclaim := @claim_runs idle (by nofun) (by decide) rfl
  have run := ((Run.refl.trace_snoc hclaim.1).trace_snoc hclaim.2.1).trace_snoc hclaim.2.2
  have hstay := (claimed_copies_stay_iff idle_claimsStart run).1
    (always_snoc.2 ⟨always_snoc.2 ⟨always_snoc.2 ⟨always_nil _, by nofun⟩, by nofun⟩, by nofun⟩)
  exact ⟨(always_snoc.1 hstay).2, by decide +kernel⟩

end RacingDrop

end Macha
