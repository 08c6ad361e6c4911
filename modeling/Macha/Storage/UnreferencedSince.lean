import Macha.Library.Run
import Macha.Library.OrdMap
import Macha.Metadata.Types

/-!
# The grace of the sweep

`UnreferencedSince` keeps when this node first saw each object unreferenced.
`gc_step` visits the objects of the pool: it forgets the sighting of one that is
live, protected or retained, and deletes another once its sighting is as old as the
grace. The table is saved now and then, and a restart reads the last save.
-/

namespace Macha

open List Option OrdMap

structure Sighting where
  firstUnixMs : Nat
  renewed : Bool
deriving DecidableEq

structure UnreferencedSince where
  seen : OrdMap ObjectId Sighting := ∅
  dirty : Bool := false
deriving DecidableEq

namespace UnreferencedSince

/-- What the constructor makes of the file. -/
def load (file : OrdMap ObjectId Nat) : UnreferencedSince where
  seen := file.map fun _ first => ⟨first, true⟩

def matured (u : UnreferencedSince) (id : ObjectId) (nowUnixMs grace : Nat) :
    Bool × UnreferencedSince :=
  let found := u.seen.getD id ⟨nowUnixMs, true⟩
  -- A clock set back restarts the wait.
  let first := if found.firstUnixMs > nowUnixMs then nowUnixMs else found.firstUnixMs
  (decide (grace ≤ nowUnixMs - first),
    { seen := u.seen.insert id ⟨first, true⟩
      dirty := u.dirty || !u.seen.contains id || decide (found.firstUnixMs > nowUnixMs) })

def forget (u : UnreferencedSince) (id : ObjectId) : UnreferencedSince :=
  if u.seen.contains id then { seen := u.seen.erase id, dirty := true } else u

def passComplete (u : UnreferencedSince) : UnreferencedSince where
  seen := (u.seen.filter fun _ s => s.renewed).map fun _ s => { s with renewed := false }
  dirty := u.dirty || u.seen.toList.any fun entry => !entry.2.renewed

end UnreferencedSince

/-- An object the sweep comes to, with what it is told about it: whether it is
retained, whether it is claimed at the deletion, and what the removal returns if it
does not throw. -/
structure SweepItem where
  id : ObjectId
  retained : Bool := false
  claimed : Bool := false
  removed : Option Bool := some true

/-- A call of `gc_step` that comes to these objects before it ends. -/
structure SweepCall where
  live : List ObjectId := []
  protectedIds : List ObjectId := []
  nowUnixMs : Nat
  grace : Nat
  items : List SweepItem
  complete : Bool := false

def SweepCall.references (call : SweepCall) (item : SweepItem) : Bool :=
  call.live.contains item.id || call.protectedIds.contains item.id || item.retained

/-- A visit of the past: what it found, and whether it deleted the object. -/
structure SweepVisit where
  id : ObjectId
  time : Nat
  grace : Nat
  referenced : Bool
  deleted : Bool
deriving DecidableEq

structure SweepWorld where
  sightings : UnreferencedSince := {}
  file : OrdMap ObjectId Nat := ∅
  /-- Every visit, the newest first. -/
  visits : List SweepVisit := []
  /-- The visits since the file was written. -/
  unsaved : List SweepVisit := []

inductive SweepEvent
  | gcStep (call : SweepCall)
  | save (written : Bool)
  | restart (readable : Bool)

namespace SweepWorld

def noted (w : SweepWorld) (v : SweepVisit) (sightings : UnreferencedSince) : SweepWorld :=
  { w with sightings, visits := v :: w.visits, unsaved := v :: w.unsaved }

def visit (call : SweepCall) (w : SweepWorld) (item : SweepItem) : SweepWorld :=
  let found := SweepVisit.mk item.id call.nowUnixMs call.grace
  if call.references item then
    w.noted (found true false) (w.sightings.forget item.id)
  else
    let (ripe, sightings) := w.sightings.matured item.id call.nowUnixMs call.grace
    if !ripe then w.noted (found false false) sightings
    -- The check made again at the deletion leaves the sighting as it is.
    else if item.claimed then w.noted (found true false) sightings
    else if item.removed = some true then
      w.noted (found false true) (sightings.forget item.id)
    else w.noted (found false false) sightings

def gcStep (w : SweepWorld) (call : SweepCall) : SweepWorld :=
  let swept := call.items.foldl (visit call) w
  if call.complete then { swept with sightings := swept.sightings.passComplete } else swept

def save (w : SweepWorld) (written : Bool) : SweepWorld :=
  if w.sightings.dirty && written then
    { w with
      sightings := { w.sightings with dirty := false }
      file := w.sightings.seen.map fun _ s => s.firstUnixMs
      unsaved := [] }
  else w

def step (w : SweepWorld) : SweepEvent → Option SweepWorld
  | .gcStep call => some (w.gcStep call)
  | .save written => some (w.save written)
  | .restart readable => some { w with sightings := if readable then .load w.file else {} }

end SweepWorld

abbrev SweepStep : SweepWorld → SweepEvent → SweepWorld → Prop := Computes SweepWorld.step

/-- Some visit at or before the time found the object unreferenced, and no later one
found it referenced, protected or claimed. -/
inductive StaysUnreferenced (id : ObjectId) (time : Nat) : List SweepVisit → Prop
  | sighted {v : SweepVisit} {earlier : List SweepVisit} (hid : v.id = id)
      (hfree : v.referenced = false) (htime : v.time ≤ time) :
      StaysUnreferenced id time (v :: earlier)
  | later {v : SweepVisit} {earlier : List SweepVisit} (h : StaysUnreferenced id time earlier)
      (hfree : v.id = id → v.referenced = false) : StaysUnreferenced id time (v :: earlier)

/-- Each object deleted had stayed unreferenced for the grace. -/
def WaitsGrace (visits : List SweepVisit) : Prop :=
  ∀ (v : SweepVisit) (earlier : List SweepVisit), v :: earlier <:+ visits → v.deleted = true →
    ∃ time, time + v.grace ≤ v.time ∧ StaysUnreferenced v.id time (v :: earlier)

/-- No object is found claimed at its deletion that was not found retained before, and
where the process ends no object whose sighting is in the file has been found
referenced since the file was written. -/
def WithdrawsSaved (t : Transition SweepWorld SweepEvent) : Prop :=
  match t.event with
  | .gcStep call => ∀ item ∈ call.items, item.claimed = true → call.references item = true
  | .save _ => True
  | .restart _ => ∀ v ∈ t.before.unsaved, v.referenced = true → t.before.file[v.id]? = none

namespace UnreferencedSince

variable {u : UnreferencedSince} {id other : ObjectId} {s : Sighting}

theorem of_forget (h : (u.forget id).seen[other]? = some s) :
    other ≠ id ∧ u.seen[other]? = some s := by
  unfold forget at h
  split at h
  · obtain ⟨hne, h⟩ := getElem?_erase_eq_some h
    exact ⟨Ne.symm hne, h⟩
  · next hnone =>
    refine ⟨fun heq => hnone ((OrdMap.contains_iff _ _).2 ?_), h⟩
    rw [← heq, h]
    rfl

theorem matured_spec (u : UnreferencedSince) (id : ObjectId) (nowUnixMs grace : Nat) :
    ∃ first, (u.matured id nowUnixMs grace).2.seen = u.seen.insert id ⟨first, true⟩ ∧
      ((u.matured id nowUnixMs grace).1 = true → first + grace ≤ nowUnixMs) ∧
      (first = nowUnixMs ∨ ∃ old, u.seen[id]? = some old ∧ old.firstUnixMs = first) := by
  refine ⟨_, rfl, fun hripe => ?_, ?_⟩
  · have hgrace := of_decide_eq_true hripe
    split at hgrace <;> split <;> omega
  · rw [getD_eq]
    cases hold : u.seen[id]? with
    | none => exact .inl (ite_self _)
    | some old =>
      split
      · exact .inl rfl
      · exact .inr ⟨old, rfl, rfl⟩

end UnreferencedSince

section

variable {id : ObjectId} {time : Nat} {w : SweepWorld} {v : SweepVisit} {u : UnreferencedSince}
  {visits newer : List SweepVisit}

theorem StaysUnreferenced.append (h : StaysUnreferenced id time visits)
    (hfree : ∀ v ∈ newer, v.id = id → v.referenced = false) :
    StaysUnreferenced id time (newer ++ visits) := by
  induction newer with
  | nil => exact h
  | cons v newer ih =>
    rw [forall_mem_cons] at hfree
    exact .later (ih hfree.2) hfree.1

/-- Every sighting of the table is as old as some visit since which its object was not
found referenced. -/
def UnreferencedSince.Stays (u : UnreferencedSince) (visits : List SweepVisit) : Prop :=
  ∀ id s, u.seen[id]? = some s → StaysUnreferenced id s.firstUnixMs visits

theorem UnreferencedSince.Stays.forget (h : u.Stays visits) : (u.forget v.id).Stays (v :: visits) :=
  fun id s hs => .later (h id s (of_forget hs).2) fun heq => absurd heq.symm (of_forget hs).1

theorem UnreferencedSince.Stays.matured (h : u.Stays visits) (grace : Nat)
    (hfree : v.referenced = false) : (u.matured v.id v.time grace).2.Stays (v :: visits) := by
  intro id s hs
  obtain ⟨first, hseen, -, hfirst⟩ := u.matured_spec v.id v.time grace
  rw [hseen] at hs
  rcases getElem?_insert_eq_some hs with ⟨rfl, rfl⟩ | ⟨-, hs⟩
  · rcases hfirst with rfl | ⟨old, hold, rfl⟩
    · exact .sighted rfl hfree (Nat.le_refl _)
    · exact .later (h _ old hold) fun _ => hfree
  · exact .later (h id s hs) fun _ => hfree

theorem WaitsGrace.cons (h : WaitsGrace visits) (hdeleted : v.deleted = true →
      ∃ time, time + v.grace ≤ v.time ∧ StaysUnreferenced v.id time (v :: visits)) :
    WaitsGrace (v :: visits) := by
  intro deletion earlier hsuffix
  rcases suffix_cons_iff.1 hsuffix with heq | hsuffix
  · cases heq
    exact hdeleted
  · exact h deletion earlier hsuffix

namespace SweepWorld

/-- The table holds by all the visits, and its file by those before it was written. -/
structure Sound (w : SweepWorld) : Prop where
  seen : w.sightings.Stays w.visits
  saved : ∃ saved, w.visits = w.unsaved ++ saved ∧
    ∀ id first, w.file[id]? = some first → StaysUnreferenced id first saved
  waits : WaitsGrace w.visits

theorem sound_noted (inv : w.Sound) (hseen : u.Stays (v :: w.visits)) (hdeleted : v.deleted = true →
      ∃ time, time + v.grace ≤ v.time ∧ StaysUnreferenced v.id time (v :: w.visits)) :
    (w.noted v u).Sound := by
  obtain ⟨saved, hvisits, hfile⟩ := inv.saved
  exact ⟨hseen, ⟨saved, congrArg (v :: ·) hvisits, hfile⟩, inv.waits.cons hdeleted⟩

theorem sound_visit (inv : w.Sound) {call : SweepCall} {item : SweepItem}
    (hclaimed : item.claimed = true → call.references item = true) :
    (visit call w item).Sound := by
  have hkept : ∀ deleted, (w.sightings.matured item.id call.nowUnixMs call.grace).2.Stays
      (⟨item.id, call.nowUnixMs, call.grace, false, deleted⟩ :: w.visits) :=
    fun deleted => inv.seen.matured (v := ⟨item.id, call.nowUnixMs, _, false, deleted⟩) _ rfl
  unfold visit
  dsimp only
  split
  · exact sound_noted inv (inv.seen.forget (v := ⟨item.id, _, _, _, _⟩)) nofun
  · next hfree =>
    split
    · exact sound_noted inv (hkept _) nofun
    · next hmatured =>
      split
      · next hclaim => exact absurd (hclaimed hclaim) hfree
      · split
        · obtain ⟨first, hseen, hripe, -⟩ :=
            w.sightings.matured_spec item.id call.nowUnixMs call.grace
          refine sound_noted inv (fun id s hs => hkept _ id s (UnreferencedSince.of_forget hs).2)
            fun _ => ⟨first, hripe (by simpa using hmatured), hkept _ item.id ⟨first, true⟩ ?_⟩
          rw [hseen, getElem?_insert_self]
        · exact sound_noted inv (hkept _) nofun

theorem sound_sweep {call : SweepCall} {items : List SweepItem} (inv : w.Sound)
    (hclaimed : ∀ item ∈ items, item.claimed = true → call.references item = true) :
    (items.foldl (visit call) w).Sound := by
  induction items generalizing w with
  | nil => exact inv
  | cons item items ih =>
    rw [forall_mem_cons] at hclaimed
    exact ih (sound_visit inv hclaimed.1) hclaimed.2

theorem sound_passComplete (inv : w.Sound) :
    ({ w with sightings := w.sightings.passComplete } : SweepWorld).Sound := by
  refine ⟨fun id s hs => ?_, inv.saved, inv.waits⟩
  unfold UnreferencedSince.passComplete at hs
  rw [OrdMap.getElem?_map, OrdMap.getElem?_filter] at hs
  obtain ⟨old, hold, rfl⟩ := map_eq_some_iff.1 hs
  exact inv.seen id old (filter_eq_some_iff.1 hold).1

theorem sound_restart (inv : w.Sound) {readable : Bool}
    (hsaved : ∀ v ∈ w.unsaved, v.referenced = true → w.file[v.id]? = none) :
    ({ w with sightings := if readable then .load w.file else {} } : SweepWorld).Sound := by
  refine ⟨fun id s hs => ?_, inv.saved, inv.waits⟩
  obtain ⟨saved, hvisits, hfile⟩ := inv.saved
  cases readable with
  | false => exact elim_empty hs
  | true =>
    have hs : (UnreferencedSince.load w.file).seen[id]? = some s := hs
    unfold UnreferencedSince.load at hs
    rw [OrdMap.getElem?_map] at hs
    obtain ⟨first, hfirst, rfl⟩ := map_eq_some_iff.1 hs
    rw [hvisits]
    refine (hfile id first hfirst).append fun v hv hid => Bool.eq_false_iff.2 fun hreferenced => ?_
    rw [← hid, hsaved v hv hreferenced] at hfirst
    cases hfirst

theorem sound_step {event : SweepEvent} {next : SweepWorld} (h : SweepStep w event next)
    (inv : w.Sound) (hsafe : WithdrawsSaved ⟨w, event, next⟩) : next.Sound := by
  cases event with
  | gcStep call =>
    cases some_inj.1 h
    unfold gcStep
    split
    · exact sound_passComplete (sound_sweep inv hsafe)
    · exact sound_sweep inv hsafe
  | save written =>
    cases some_inj.1 h
    unfold save
    split
    · refine ⟨inv.seen, ⟨w.visits, rfl, fun id first hfirst => ?_⟩, inv.waits⟩
      rw [OrdMap.getElem?_map] at hfirst
      obtain ⟨s, hs, rfl⟩ := map_eq_some_iff.1 hfirst
      exact inv.seen id s hs
    · exact inv
  | restart readable =>
    cases some_inj.1 h
    exact sound_restart inv hsafe

theorem sound_start : Sound {} :=
  ⟨fun _ _ h => elim_empty h, ⟨[], rfl, fun _ _ h => elim_empty h⟩,
    fun _ _ h => absurd (suffix_nil.1 h) (cons_ne_nil _ _)⟩

end SweepWorld

end

/-- Over any sweeps, saves and restarts an object is deleted only after it stayed
unreferenced for the grace, as long as no withdrawn sighting is left in the table or
comes back with the file. -/
theorem sweep_waits_grace {trace : List (Transition SweepWorld SweepEvent)} {last : SweepWorld}
    (run : Run (Traced SweepStep) {} trace last)
    (hsafe : Always (fun _ t => WithdrawsSaved t) trace) : WaitsGrace last.visits :=
  (run.invariant_of_always hsafe SweepWorld.sound_start fun _ _ _ hstep inv hlast =>
    SweepWorld.sound_step hstep inv hlast).waits

namespace SweepWorld.LostWithdrawal

def object : ObjectId := [1]

def sweep (nowUnixMs : Nat) (live : List ObjectId) : SweepEvent :=
  .gcStep ⟨live, [], nowUnixMs, 100, [{ id := object }], false⟩

/-- The object is seen unreferenced, and live after the table is saved; then the process
ends. -/
def events : List SweepEvent :=
  [sweep 50 [], .save true, sweep 140 [object], .restart true, sweep 150 []]

def last : SweepWorld := (events.foldlM step {}).getD {}

/-- It is deleted ten milliseconds after it was live. -/
theorem deleted_early : ∃ trace, Run (Traced SweepStep) {} trace last ∧
    trace.map (·.event) = events ∧ ¬ WaitsGrace last.visits := by
  obtain ⟨trace, run, hevents⟩ := exists_run_last (by decide +kernel) (rfl : _ = last)
  refine ⟨trace, run, hevents, fun hwaits => ?_⟩
  obtain ⟨time, htime, hstays⟩ := hwaits _ _ suffix_rfl rfl
  rcases hstays with ⟨-, -, hlate⟩ | ⟨hstays, -⟩
  · dsimp only at htime hlate
    omega
  · rcases hstays with ⟨-, hfree, -⟩ | ⟨-, hfree⟩
    · cases hfree
    · cases hfree rfl

/-- With the withdrawal saved the object is seen anew, and waits. -/
def saved : List SweepEvent :=
  [sweep 50 [], .save true, sweep 140 [object], .save true, .restart true, sweep 150 [],
    sweep 250 []]

instance : DecidablePred WithdrawsSaved := fun t => by
  unfold WithdrawsSaved
  split <;> infer_instance

theorem deleted_in_time : ∃ trace final, Run (Traced SweepStep) {} trace final ∧
    trace.map (·.event) = saved ∧ WaitsGrace final.visits := by
  have hruns : (saved.foldlM (checkedStep step WithdrawsSaved) {}).isSome = true := by
    decide +kernel
  obtain ⟨final, hfinal⟩ := isSome_iff_exists.1 hruns
  obtain ⟨trace, run, halways, hevents⟩ := exists_checked_run hfinal
  exact ⟨trace, final, run, hevents, sweep_waits_grace run halways⟩

end SweepWorld.LostWithdrawal

end Macha
