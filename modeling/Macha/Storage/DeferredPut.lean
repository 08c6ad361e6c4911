import Macha.Library.Run
import Macha.Library.Collect
import Macha.Library.SyncFrontier
import Macha.Metadata.Types

/-!
# Deferred puts and power failures

`put_deferred` returns the generation of the object's write, and the object must
survive a power failure once that generation is durable. An object that is here is
not written again: a packed one gets a touch record with a generation of its own, a
loose one the generation `provisional_generations_` still has for it, or 0. The map
belongs to one process and is reaped as barriers complete, so after a restart nothing
in it tells a file that was synced from one that never was.
-/

namespace Macha

open List OrdMap

/-- An object on disk: the operation that wrote it, and whether it is in a pack. -/
structure ObjectCopy where
  stamp : Nat
  packed : Bool
deriving DecidableEq, Repr

/-- Where a put stands that holds its object's lock. -/
inductive PutStage
  | begun
  /-- The accounting is marked dirty. -/
  | prepared
  /-- The bytes are written: the object's, or a touch record. -/
  | written (touch : Bool)
  /-- The generation is known. -/
  | registered (generation : Nat)
deriving DecidableEq, Repr

structure PutCall where
  size : Nat
  immediate : Bool
  stage : PutStage
deriving DecidableEq, Repr

/-- What a start knows of the space used. Calls are admitted on a trusted figure or on
the estimate of a dirty checkpoint; otherwise they wait for the scan. -/
inductive Accounting
  | scanning
  | estimate
  | trusted
  | failed
deriving DecidableEq, Repr

structure DeferredStore where
  frontier : SyncFrontier := {}
  copies : OrdMap ObjectId ObjectCopy := ∅
  /-- The checkpoint on disk, and whether it is clean. -/
  checkpoint : Option Bool := none
  accounting : Accounting := .scanning
  accountingDirty : Bool := false
  /-- The generation the scan waits for. -/
  baseline : Option Nat := none
  domainFailed : Bool := false
  lastMutation : Nat := 0
  provisional : OrdMap ObjectId Nat := ∅
  provisionalOrder : List (Nat × ObjectId) := []
  calls : OrdMap ObjectId PutCall := ∅
  /-- Objects whose write this process has registered. -/
  registered : List ObjectId := []
  /-- Generations this process has returned, for objects not removed since. -/
  tokens : List (ObjectId × Nat) := []
  /-- Objects the store has vouched for, and that were not removed since. -/
  promised : List ObjectId := []

inductive DeferredEvent
  | begin (id : ObjectId) (size : Nat) (immediate : Bool)
  /-- A loose object is here already. -/
  | affirm (id : ObjectId)
  | prepare (id : ObjectId)
  | write (id : ObjectId)
  | register (id : ObjectId)
  | finish (id : ObjectId)
  /-- The call throws, or finds no space. -/
  | fails (id : ObjectId)
  | remove (id : ObjectId)
  | barrierStart
  | barrierDone
  | barrierFails
  /-- Another store of the domain registers a mutation. -/
  | otherMutation
  | scanBaseline
  | scanDone
  | scanFails
  /-- The process ends, after a clean shutdown or without one, and starts again. -/
  | restart (clean : Bool)

/-- `reap_durable_generations_locked`. -/
def reapDurable (durable : Nat) :
    List (Nat × ObjectId) → OrdMap ObjectId Nat → List (Nat × ObjectId) × OrdMap ObjectId Nat
  | [], provisional => ([], provisional)
  | (generation, id) :: rest, provisional =>
    if generation ≤ durable then
      reapDurable durable rest
        (if provisional[id]? = some generation then provisional.erase id else provisional)
    else ((generation, id) :: rest, provisional)

namespace DeferredStore

/-- What a power failure leaves. -/
def survivors (s : DeferredStore) : OrdMap ObjectId ObjectCopy :=
  s.copies.filter fun _ copy => copy.stamp < s.frontier.synced

def admits (s : DeferredStore) : Bool :=
  match s.accounting with
  | .trusted | .estimate => true
  | .scanning | .failed => false

def reap (s : DeferredStore) : DeferredStore :=
  let (provisionalOrder, provisional) :=
    reapDurable s.frontier.durable s.provisionalOrder s.provisional
  { s with provisionalOrder, provisional }

def setStage (s : DeferredStore) (id : ObjectId) (call : PutCall) (stage : PutStage) :
    DeferredStore :=
  { s with calls := s.calls.insert id { call with stage } }

/-- `ensure_accounting_dirty`. -/
def markDirty (s : DeferredStore) : DeferredStore :=
  { s with checkpoint := some false, accountingDirty := true }

def begin (s : DeferredStore) (id : ObjectId) (size : Nat) (immediate : Bool) :
    Option DeferredStore := do
  guard (s.admits = true ∧ s.calls[id]? = none)
  some { s with calls := s.calls.insert id ⟨size, immediate, .begun⟩ }

def affirm (s : DeferredStore) (id : ObjectId) : Option DeferredStore :=
  match s.calls[id]?, s.copies[id]? with
  | some ⟨size, immediate, .begun⟩, some ⟨_, false⟩ =>
    let s := s.reap
    some (s.setStage id ⟨size, immediate, .begun⟩ (.registered (s.provisional[id]?.getD 0)))
  | _, _ => none

def prepare (s : DeferredStore) (id : ObjectId) : Option DeferredStore :=
  match s.calls[id]?, s.copies[id]? with
  | some ⟨_, _, .begun⟩, some ⟨_, false⟩ => none
  | some ⟨size, immediate, .begun⟩, _ =>
    some (s.markDirty.setStage id ⟨size, immediate, .begun⟩ .prepared)
  | _, _ => none

/-- `put_packed_locked`, `put_loose_locked` or the touch record, as far as the disk. -/
def write (packThreshold : Nat) (s : DeferredStore) (id : ObjectId) : Option DeferredStore :=
  match s.calls[id]?, s.copies[id]? with
  | some ⟨size, immediate, .prepared⟩, none =>
    let copy := ⟨s.frontier.clock, packThreshold ≠ 0 ∧ size ≤ packThreshold⟩
    some { s with
      frontier := s.frontier.advance
      copies := s.copies.insert id copy
      calls := s.calls.insert id ⟨size, immediate, .written false⟩ }
  | some ⟨size, immediate, .prepared⟩, some ⟨_, true⟩ =>
    some { s with
      frontier := s.frontier.advance
      calls := s.calls.insert id ⟨size, immediate, .written true⟩ }
  | _, _ => none

/-- `complete_mutation`, and the generation is remembered. -/
def registerWrite (s : DeferredStore) (id : ObjectId) (call : PutCall) : DeferredStore :=
  let generation := s.frontier.mutation + 1
  { s with
    frontier := s.frontier.register
    lastMutation := max s.lastMutation generation
    provisional := s.provisional.insert id generation
    provisionalOrder := s.provisionalOrder ++ [(generation, id)]
    calls := s.calls.insert id { call with stage := .registered generation }
    registered := id :: s.registered }

def register (s : DeferredStore) (id : ObjectId) : Option DeferredStore :=
  match s.calls[id]? with
  | some ⟨size, immediate, .written touch⟩ => do
    guard (s.domainFailed = false)
    let s := s.registerWrite id ⟨size, immediate, .written touch⟩
    some (if touch then s else s.reap)
  | _ => none

/-- The call returns; an immediate one has waited for its generation. -/
def finish (s : DeferredStore) (id : ObjectId) : Option DeferredStore :=
  match s.calls[id]? with
  | some ⟨_, true, .registered generation⟩ => do
    guard (generation ≤ s.frontier.durable)
    some { s with calls := s.calls.erase id, promised := id :: s.promised }
  | some ⟨_, false, .registered generation⟩ =>
    some { s with calls := s.calls.erase id, tokens := (id, generation) :: s.tokens }
  | _ => none

/-- `remove_locked`. With a failed domain it throws once the object is gone, a loose
one before its generation is forgotten. -/
def remove (s : DeferredStore) (id : ObjectId) : Option DeferredStore := do
  guard (s.admits = true ∧ s.calls[id]? = none)
  let copy ← s.copies[id]?
  let gone := { s.markDirty with
    frontier := s.frontier.advance
    copies := s.copies.erase id
    registered := s.registered.filter (· ≠ id)
    tokens := s.tokens.filter (·.1 ≠ id)
    promised := s.promised.filter (· ≠ id) }
  if s.domainFailed then
    some { gone with
      provisional := if copy.packed then s.provisional.erase id else s.provisional }
  else
    some { gone with
      frontier := gone.frontier.register
      lastMutation := max s.lastMutation (s.frontier.mutation + 1)
      provisional := s.provisional.erase id }

/-- The next process. What was vouched for stays so. -/
def restart (s : DeferredStore) (clean : Bool) : Option DeferredStore := do
  guard (clean = true → s.calls = ∅ ∧ s.accounting = .trusted ∧ s.lastMutation ≤ s.frontier.durable)
  let checkpoint := if clean && s.accountingDirty then some true else s.checkpoint
  some
    { frontier := s.frontier.restart
      copies := s.copies
      checkpoint
      accounting :=
        match checkpoint with
        | none => .scanning
        | some true => .trusted
        | some false => .estimate
      promised := s.promised ++ (s.tokens.filter fun t => t.2 ≤ s.frontier.durable).map (·.1) }

def step (packThreshold : Nat) (s : DeferredStore) : DeferredEvent → Option DeferredStore
  | .begin id size immediate => s.begin id size immediate
  | .affirm id => s.affirm id
  | .prepare id => s.prepare id
  | .write id => s.write packThreshold id
  | .register id => s.register id
  | .finish id => s.finish id
  | .fails id => do
    guard ((s.calls[id]?).isSome = true)
    some { s with calls := s.calls.erase id }
  | .remove id => s.remove id
  | .barrierStart => do
    guard (s.domainFailed = false ∧ s.frontier.barrier = none ∧
      s.frontier.durable < s.frontier.mutation)
    some { s with frontier := s.frontier.start }
  | .barrierDone => do
    guard (s.frontier.barrier ≠ none)
    some { s with frontier := s.frontier.complete }
  | .barrierFails => do
    guard (s.frontier.barrier ≠ none)
    some { s with frontier := s.frontier.abandon, domainFailed := true }
  | .otherMutation => do
    guard (s.domainFailed = false)
    some { s with frontier := s.frontier.register }
  | .scanBaseline => do
    guard ((s.accounting = .scanning ∨ s.accounting = .estimate) ∧ s.baseline = none ∧
      s.domainFailed = false)
    some { s with
      frontier := s.frontier.register
      baseline := some (s.frontier.mutation + 1) }
  | .scanDone => do
    let generation ← s.baseline
    guard (generation ≤ s.frontier.durable)
    some { s with
      baseline := none
      lastMutation := max s.lastMutation generation
      accounting := .trusted
      accountingDirty := false
      checkpoint := some true }
  | .scanFails => do
    guard (s.accounting = .scanning ∨ s.accounting = .estimate)
    some { s with accounting := .failed }
  | .restart clean => s.restart clean

end DeferredStore

abbrev DeferredStep (packThreshold : Nat) := Computes (DeferredStore.step packThreshold)

/-- A power failure leaves every object the store has vouched for, and every object
whose generation is durable. -/
def SurvivesPowerFailure (s : DeferredStore) : Prop :=
  ∀ id : ObjectId, (id ∈ s.promised ∨ ∃ generation, (id, generation) ∈ s.tokens ∧
        generation ≤ s.frontier.durable) →
      (s.survivors[id]?).isSome = true

/-- A loose object is re-affirmed by the process that registered its write, or once
its file is durable. -/
def AffirmsKnown (t : Transition DeferredStore DeferredEvent) : Prop :=
  ∀ (id : ObjectId) copy, t.event = .affirm id → t.before.copies[id]? = some copy →
    id ∈ t.before.registered ∨ copy.stamp < t.before.frontier.synced

namespace DeferredStore

/-- The object is here, and durable once the generation is. -/
def Held (s : DeferredStore) (id : ObjectId) (generation : Nat) : Prop :=
  ∃ copy, s.copies[id]? = some copy ∧ s.frontier.Covers generation copy.stamp

def CallHeld (s : DeferredStore) (id : ObjectId) : PutStage → Prop
  | .written _ => ∃ copy, s.copies[id]? = some copy
  | .registered generation => s.Held id generation
  | _ => True

/-- The object is durable, or its generation is remembered. -/
def Remembered (s : DeferredStore) (provisional : OrdMap ObjectId Nat) (id : ObjectId) : Prop :=
  s.Held id 0 ∨ ∃ generation, provisional[id]? = some generation ∧ s.Held id generation

structure Kept (s : DeferredStore) : Prop where
  sound : s.frontier.Sound
  stamps : ∀ (id : ObjectId) copy, s.copies[id]? = some copy → copy.stamp < s.frontier.clock
  registered : ∀ id ∈ s.registered, s.Remembered s.provisional id
  calls : ∀ (id : ObjectId) call, s.calls[id]? = some call → s.CallHeld id call.stage
  tokens : ∀ item ∈ s.tokens, s.Held item.1 item.2
  promised : ∀ id ∈ s.promised, s.Held id 0

variable {s next : DeferredStore} {id : ObjectId} {generation packThreshold : Nat}
  {provisional : OrdMap ObjectId Nat}

theorem Held.synced (h : s.Held id generation) (hdurable : generation ≤ s.frontier.durable) :
    ∃ copy, s.copies[id]? = some copy ∧ copy.stamp < s.frontier.synced := by
  obtain ⟨copy, hcopy, hcovers⟩ := h
  exact ⟨copy, hcopy, hcovers.durable hdurable⟩

theorem held_of_synced {copy : ObjectCopy} (hcopy : s.copies[id]? = some copy)
    (h : copy.stamp < s.frontier.synced) (generation : Nat) : s.Held id generation :=
  ⟨copy, hcopy, .inl h⟩

theorem Held.of_durable (h : s.Held id generation) (hdurable : generation ≤ s.frontier.durable)
    (other : Nat) : s.Held id other := by
  obtain ⟨copy, hcopy, hsynced⟩ := h.synced hdurable
  exact held_of_synced hcopy hsynced other

theorem Held.later (h : s.Held id generation) (hlater : s.frontier.Later next.frontier)
    (hcopies : next.copies[id]? = s.copies[id]?) :
    next.Held id generation := by
  obtain ⟨copy, hcopy, hcovers⟩ := h
  exact ⟨copy, hcopies.trans hcopy, hlater.covers _ _ hcovers⟩

theorem CallHeld.later {stage : PutStage} (h : s.CallHeld id stage)
    (hlater : s.frontier.Later next.frontier) (hcopies : next.copies[id]? = s.copies[id]?) :
    next.CallHeld id stage := by
  cases stage with
  | written touch =>
    obtain ⟨copy, hcopy⟩ := h
    exact ⟨copy, hcopies.trans hcopy⟩
  | registered generation => exact Held.later h hlater hcopies
  | begun | prepared => trivial

theorem Remembered.later (h : s.Remembered provisional id) (hlater : s.frontier.Later next.frontier)
    (hcopies : next.copies[id]? = s.copies[id]?) {provisional' : OrdMap ObjectId Nat}
    (hprovisional : provisional'[id]? = provisional[id]?) :
    next.Remembered provisional' id := by
  rcases h with h | ⟨generation, hfound, h⟩
  · exact .inl (h.later hlater hcopies)
  · exact .inr ⟨generation, hprovisional.trans hfound, h.later hlater hcopies⟩

section

variable (inv : s.Kept)

include inv

theorem Kept.survives : SurvivesPowerFailure s := by
  intro id h
  have hsynced : ∃ copy, s.copies[id]? = some copy ∧ copy.stamp < s.frontier.synced := by
    rcases h with h | ⟨generation, h, hdurable⟩
    · exact (inv.promised id h).synced (Nat.zero_le _)
    · exact (inv.tokens _ h).synced hdurable
  obtain ⟨copy, hcopy, hstamp⟩ := hsynced
  unfold survivors
  rw [OrdMap.getElem?_filter, hcopy, Option.filter_some, if_pos (decide_eq_true hstamp)]
  rfl

theorem Kept.moved (hlater : s.frontier.Later next.frontier) (hsound : next.frontier.Sound)
    (hcopies : next.copies = s.copies)
    (hregistered : ∀ id ∈ next.registered, s.Remembered next.provisional id)
    (hcalls : ∀ id call, next.calls[id]? = some call → s.CallHeld id call.stage)
    (htokens : ∀ item ∈ next.tokens, s.Held item.1 item.2)
    (hpromised : ∀ id ∈ next.promised, s.Held id 0) : next.Kept := by
  have hsame : ∀ id : ObjectId, next.copies[id]? = s.copies[id]? := fun id => by rw [hcopies]
  refine ⟨hsound, fun id copy hcopy => ?_, fun id hid => ?_, fun id call hcall => ?_,
    fun item hitem => ?_, fun id hid => ?_⟩
  · exact Nat.lt_of_lt_of_le (inv.stamps id copy ((hsame id).symm.trans hcopy)) hlater.clock
  · exact (hregistered id hid).later hlater (hsame id) rfl
  · exact (hcalls id call hcall).later hlater (hsame id)
  · exact (htokens item hitem).later hlater (hsame item.1)
  · exact (hpromised id hid).later hlater (hsame id)

theorem Kept.ofFrontier (hlater : s.frontier.Later next.frontier) (hsound : next.frontier.Sound)
    (hcopies : next.copies = s.copies) (hregistered : next.registered = s.registered)
    (hprovisional : next.provisional = s.provisional) (hcalls : next.calls = s.calls)
    (htokens : next.tokens = s.tokens) (hpromised : next.promised = s.promised) : next.Kept := by
  refine inv.moved hlater hsound hcopies ?_ ?_ ?_ ?_
  · rw [hregistered, hprovisional]
    exact inv.registered
  · rw [hcalls]
    exact inv.calls
  · rw [htokens]
    exact inv.tokens
  · rw [hpromised]
    exact inv.promised

theorem Kept.insert_call {call : PutCall} (h : s.CallHeld id call.stage) :
    ∀ other found, (s.calls.insert id call)[other]? = some found →
      s.CallHeld other found.stage := by
  intro other found hfound
  rcases getElem?_insert_eq_some hfound with ⟨rfl, rfl⟩ | ⟨-, hold⟩
  · exact h
  · exact inv.calls other found hold

theorem Kept.erase_call : ∀ other found, (s.calls.erase id)[other]? = some found →
      s.CallHeld other found.stage :=
  fun other found hfound => inv.calls other found (getElem?_erase_eq_some hfound).2

omit inv in
theorem reapDurable_getElem? (durable : Nat) (order : List (Nat × ObjectId))
    (provisional : OrdMap ObjectId Nat) (id : ObjectId) :
    (reapDurable durable order provisional).2[id]? = provisional[id]? ∨
      (reapDurable durable order provisional).2[id]? = none ∧
        ∃ generation, provisional[id]? = some generation ∧ generation ≤ durable := by
  induction order generalizing provisional with
  | nil => exact .inl rfl
  | cons first order ih =>
    obtain ⟨generation, key⟩ := first
    unfold reapDurable
    split
    · next hdurable =>
      split
      · next hfound =>
        by_cases hkey : key = id
        · subst hkey
          have hgone : (provisional.erase key)[key]? = none :=
            (getElem?_erase _ _ _).trans (if_pos rfl)
          refine .inr ⟨?_, generation, hfound, hdurable⟩
          rcases ih (provisional.erase key) with h | ⟨h, -⟩
          · exact h.trans hgone
          · exact h
        · have hsame := getElem?_erase_of_ne provisional hkey
          have hrest := ih (provisional.erase key)
          rw [hsame] at hrest
          exact hrest
      · exact ih provisional
    · exact .inl rfl

omit inv in
theorem Remembered.reap (h : s.Remembered provisional id) (order : List (Nat × ObjectId)) :
    s.Remembered (reapDurable s.frontier.durable order provisional).2 id := by
  rcases h with h | ⟨generation, hfound, h⟩
  · exact .inl h
  · rcases reapDurable_getElem? s.frontier.durable order provisional id with
      hkept | ⟨-, other, hother, hdurable⟩
    · exact .inr ⟨generation, hkept.trans hfound, h⟩
    · cases hfound.symm.trans hother
      exact .inl (h.of_durable hdurable 0)

theorem Kept.reap : s.reap.Kept :=
  inv.moved (.refl _) inv.sound rfl (fun id hid => (inv.registered id hid).reap _) inv.calls
    inv.tokens inv.promised

omit inv in
theorem Remembered.held (h : s.Remembered provisional id) :
    s.Held id (provisional[id]?.getD 0) := by
  rcases h with h | ⟨generation, hfound, h⟩
  · exact h.of_durable (Nat.zero_le _) _
  · rw [hfound]
    exact h

theorem kept_begin {size : Nat} {immediate : Bool} (h : s.begin id size immediate = some next) :
    next.Kept := by
  obtain ⟨-, h⟩ := guard_bind_eq_some h
  cases h
  exact inv.moved (.refl _) inv.sound rfl inv.registered (inv.insert_call trivial) inv.tokens
    inv.promised

theorem kept_affirm (hknown : ∀ copy, s.copies[id]? = some copy →
      id ∈ s.registered ∨ copy.stamp < s.frontier.synced)
    (h : s.affirm id = some next) : next.Kept := by
  unfold affirm at h
  split at h
  · next size immediate stamp hcall hcopy =>
    cases h
    have hremembered : s.reap.Remembered s.reap.provisional id := by
      rcases hknown _ hcopy with hid | hsynced
      · exact inv.reap.registered id hid
      · exact .inl (held_of_synced (s := s.reap) hcopy hsynced 0)
    exact inv.reap.moved (.refl _) inv.reap.sound rfl inv.reap.registered
      (inv.reap.insert_call hremembered.held) inv.reap.tokens inv.reap.promised
  · cases h

theorem kept_prepare (h : s.prepare id = some next) : next.Kept := by
  unfold prepare at h
  split at h
  · cases h
  · cases h
    exact inv.moved (.refl _) inv.sound rfl inv.registered (inv.insert_call trivial) inv.tokens
      inv.promised
  · cases h

theorem kept_write (h : s.write packThreshold id = some next) : next.Kept := by
  have hadvance := s.frontier.later_advance
  unfold write at h
  split at h
  · next size immediate hcall hnone =>
    cases h
    -- no promise speaks of the object yet, since it was not here
    have hother : ∀ {other : ObjectId} {copy : ObjectCopy}, s.copies[other]? = some copy →
        id ≠ other := by
      rintro other copy hcopy rfl
      rw [hnone] at hcopy
      cases hcopy
    have hheld : ∀ {other : ObjectId} {generation : Nat}, s.Held other generation →
        id ≠ other := fun h => hother h.choose_spec.1
    refine ⟨inv.sound.advance, fun other copy hcopy => ?_, fun other hid => ?_,
      fun other call hcall' => ?_, fun item hitem => ?_, fun other hid => ?_⟩
    · rcases getElem?_insert_eq_some hcopy with ⟨-, rfl⟩ | ⟨-, hold⟩
      · exact Nat.lt_succ_self _
      · exact Nat.lt_succ_of_lt (inv.stamps other copy hold)
    · have hremembered := inv.registered other hid
      have hne : id ≠ other := by
        rcases hremembered with h | ⟨_, -, h⟩
        · exact hheld h
        · exact hheld h
      exact hremembered.later hadvance (getElem?_insert_of_ne _ _ hne) rfl
    · rcases getElem?_insert_eq_some hcall' with ⟨rfl, rfl⟩ | ⟨hne, hold⟩
      · exact ⟨_, getElem?_insert_self _ _ _⟩
      · exact (inv.calls other call hold).later hadvance (getElem?_insert_of_ne _ _ hne)
    · have h := inv.tokens item hitem
      exact h.later hadvance (getElem?_insert_of_ne _ _ (hheld h))
    · have h := inv.promised other hid
      exact h.later hadvance (getElem?_insert_of_ne _ _ (hheld h))
  · next size immediate stamp hcall hcopy =>
    cases h
    exact inv.moved hadvance inv.sound.advance rfl inv.registered
      (inv.insert_call ⟨_, hcopy⟩) inv.tokens inv.promised
  · cases h

theorem kept_registerWrite {copy : ObjectCopy} (hcopy : s.copies[id]? = some copy) (call : PutCall) :
    (s.registerWrite id call).Kept := by
  have hlater : s.frontier.Later (s.registerWrite id call).frontier := s.frontier.later_register
  have hnew : (s.registerWrite id call).Held id (s.frontier.mutation + 1) :=
    ⟨copy, hcopy, inv.sound.covers_register (inv.stamps id copy hcopy)⟩
  refine ⟨inv.sound.register, inv.stamps, fun other hid => ?_, fun other found hother => ?_,
    fun item hitem => (inv.tokens item hitem).later hlater rfl,
    fun other hid => (inv.promised other hid).later hlater rfl⟩
  · by_cases hsame : id = other
    · subst hsame
      exact .inr ⟨_, getElem?_insert_self _ _ _, hnew⟩
    · have hold : other ∈ s.registered := by
        rcases mem_cons.1 hid with rfl | hold
        · exact absurd rfl hsame
        · exact hold
      exact (inv.registered other hold).later hlater rfl (getElem?_insert_of_ne _ _ hsame)
  · rcases getElem?_insert_eq_some hother with ⟨rfl, rfl⟩ | ⟨-, hold⟩
    · exact hnew
    · exact (inv.calls other found hold).later hlater rfl

theorem kept_register (h : s.register id = some next) : next.Kept := by
  unfold register at h
  split at h
  · next size immediate touch hcall =>
    obtain ⟨-, h⟩ := guard_bind_eq_some h
    obtain ⟨copy, hcopy⟩ := inv.calls id _ hcall
    have hkept := kept_registerWrite inv hcopy ⟨size, immediate, .written touch⟩
    cases touch with
    | true =>
      cases h
      exact hkept
    | false =>
      cases h
      exact hkept.reap
  · cases h

theorem kept_finish (h : s.finish id = some next) : next.Kept := by
  unfold finish at h
  split at h
  · next size generation hcall =>
    obtain ⟨hdurable, h⟩ := guard_bind_eq_some h
    cases h
    have hheld : s.Held id generation := inv.calls id _ hcall
    refine inv.moved (.refl _) inv.sound rfl inv.registered inv.erase_call inv.tokens
      fun other hid => ?_
    rcases mem_cons.1 hid with rfl | hid
    · exact hheld.of_durable hdurable 0
    · exact inv.promised other hid
  · next size generation hcall =>
    cases h
    have hheld : s.Held id generation := inv.calls id _ hcall
    refine inv.moved (.refl _) inv.sound rfl inv.registered inv.erase_call
      (fun item hitem => ?_) inv.promised
    rcases mem_cons.1 hitem with rfl | hitem
    · exact hheld
    · exact inv.tokens item hitem
  · cases h

theorem Kept.without (hcall : s.calls[id]? = none) (hlater : s.frontier.Later next.frontier)
    (hsound : next.frontier.Sound) (hcopies : next.copies = s.copies.erase id)
    (hprovisional : ∀ other, id ≠ other → next.provisional[other]? = s.provisional[other]?)
    (hregistered : next.registered = s.registered.filter (· ≠ id)) (hcalls : next.calls = s.calls)
    (htokens : next.tokens = s.tokens.filter (·.1 ≠ id))
    (hpromised : next.promised = s.promised.filter (· ≠ id)) : next.Kept := by
  have hsame : ∀ other : ObjectId, id ≠ other → next.copies[other]? = s.copies[other]? := by
    intro other hne
    rw [hcopies]
    exact getElem?_erase_of_ne _ hne
  refine ⟨hsound, fun other copy hcopy => ?_, fun other hid => ?_, fun other call hother => ?_,
    fun item hitem => ?_, fun other hid => ?_⟩
  · rw [hcopies] at hcopy
    have hold := (getElem?_erase_eq_some hcopy).2
    exact Nat.lt_of_lt_of_le (inv.stamps other copy hold) hlater.clock
  · rw [hregistered] at hid
    obtain ⟨hid, hne⟩ := mem_filter.1 hid
    have hne : id ≠ other := fun heq => of_decide_eq_true hne heq.symm
    exact (inv.registered other hid).later hlater (hsame other hne) (hprovisional other hne)
  · rw [hcalls] at hother
    have hne : id ≠ other := by
      rintro rfl
      rw [hcall] at hother
      cases hother
    exact (inv.calls other call hother).later hlater (hsame other hne)
  · rw [htokens] at hitem
    obtain ⟨hitem, hne⟩ := mem_filter.1 hitem
    exact (inv.tokens item hitem).later hlater
      (hsame item.1 fun heq => of_decide_eq_true hne heq.symm)
  · rw [hpromised] at hid
    obtain ⟨hid, hne⟩ := mem_filter.1 hid
    exact (inv.promised other hid).later hlater
      (hsame other fun heq => of_decide_eq_true hne heq.symm)

theorem kept_remove (h : s.remove id = some next) : next.Kept := by
  obtain ⟨⟨-, hcall⟩, h⟩ := guard_bind_eq_some h
  obtain ⟨copy, -, h⟩ := Option.bind_eq_some_iff.1 h
  split at h
  · cases h
    refine inv.without hcall s.frontier.later_advance inv.sound.advance rfl
      (fun other hne => ?_) rfl rfl rfl rfl
    split
    · exact getElem?_erase_of_ne _ hne
    · rfl
  · cases h
    exact inv.without hcall (s.frontier.later_advance.trans (SyncFrontier.later_register _))
      inv.sound.advance.register rfl (fun other hne => getElem?_erase_of_ne _ hne)
      rfl rfl rfl rfl

theorem kept_restart {clean : Bool} (h : s.restart clean = some next) : next.Kept := by
  obtain ⟨-, h⟩ := guard_bind_eq_some h
  cases h
  have hpromise : ∀ {id : ObjectId} {generation : Nat}, s.Held id generation →
      generation ≤ s.frontier.durable →
        ∃ copy, s.copies[id]? = some copy ∧ s.frontier.restart.Covers 0 copy.stamp := by
    intro id generation hheld hdurable
    obtain ⟨copy, hcopy, hsynced⟩ := hheld.synced hdurable
    exact ⟨copy, hcopy, .inl hsynced⟩
  refine ⟨s.frontier.sound_restart, inv.stamps, nofun, fun id call hcall => ?_, nofun,
    fun id hid => ?_⟩
  · exact elim_empty hcall
  · rcases mem_append.1 hid with hid | hid
    · exact hpromise (inv.promised id hid) (Nat.zero_le _)
    · obtain ⟨item, hitem, rfl⟩ := List.mem_map.1 hid
      obtain ⟨hitem, hdurable⟩ := mem_filter.1 hitem
      exact hpromise (inv.tokens item hitem) (of_decide_eq_true hdurable)

theorem kept_of_step {event : DeferredEvent} (h : DeferredStep packThreshold s event next)
    (hknown : AffirmsKnown ⟨s, event, next⟩) : next.Kept := by
  cases event with
  | begin id size immediate => exact kept_begin inv h
  | affirm id => exact kept_affirm inv (fun copy => hknown id copy rfl) h
  | prepare id => exact kept_prepare inv h
  | write id => exact kept_write inv h
  | register id => exact kept_register inv h
  | finish id => exact kept_finish inv h
  | fails id =>
    obtain ⟨-, h⟩ := guard_bind_eq_some h
    cases h
    exact inv.moved (.refl _) inv.sound rfl inv.registered inv.erase_call inv.tokens inv.promised
  | remove id => exact kept_remove inv h
  | barrierStart =>
    obtain ⟨-, h⟩ := guard_bind_eq_some h
    cases h
    exact inv.ofFrontier s.frontier.later_start inv.sound.start rfl rfl rfl rfl rfl rfl
  | barrierDone =>
    obtain ⟨-, h⟩ := guard_bind_eq_some h
    cases h
    exact inv.ofFrontier s.frontier.later_complete inv.sound.complete rfl rfl rfl rfl rfl rfl
  | barrierFails =>
    obtain ⟨-, h⟩ := guard_bind_eq_some h
    cases h
    exact inv.ofFrontier s.frontier.later_abandon inv.sound.abandon rfl rfl rfl rfl rfl rfl
  | otherMutation =>
    obtain ⟨-, h⟩ := guard_bind_eq_some h
    cases h
    exact inv.ofFrontier s.frontier.later_register inv.sound.register rfl rfl rfl rfl rfl rfl
  | scanBaseline =>
    obtain ⟨-, h⟩ := guard_bind_eq_some h
    cases h
    exact inv.ofFrontier s.frontier.later_register inv.sound.register rfl rfl rfl rfl rfl rfl
  | scanDone =>
    obtain ⟨generation, -, h⟩ := Option.bind_eq_some_iff.1 h
    obtain ⟨-, h⟩ := guard_bind_eq_some h
    cases h
    exact inv.ofFrontier (.refl _) inv.sound rfl rfl rfl rfl rfl rfl
  | scanFails =>
    obtain ⟨-, h⟩ := guard_bind_eq_some h
    cases h
    exact inv.ofFrontier (.refl _) inv.sound rfl rfl rfl rfl rfl rfl
  | restart clean => exact kept_restart inv h

end

theorem kept_start : Kept {} where
  sound := ⟨Nat.le_refl _, nofun⟩
  stamps _ _ h := elim_empty h
  registered := nofun
  calls _ _ h := elim_empty h
  tokens := nofun
  promised := nofun

theorem kept_of_run {events : List (Transition DeferredStore DeferredEvent)} {last : DeferredStore}
    (run : Run (Traced (DeferredStep packThreshold)) {} events last)
    (hknown : Always (fun _ t => AffirmsKnown t) events) : last.Kept :=
  run.invariant_of_always hknown kept_start fun _ _ _ hstep inv hlast =>
    kept_of_step inv hstep hlast

end DeferredStore

/-- Over every interleaving of puts, deferred puts, removals, barriers and restarts
an object the store has vouched for survives a power failure, as long as a loose
object is re-affirmed only by the process that registered its write or once its file
is durable. -/
theorem deferred_puts_survive {packThreshold : Nat}
    {events : List (Transition DeferredStore DeferredEvent)} {last : DeferredStore}
    (run : Run (Traced (DeferredStep packThreshold)) {} events last)
    (hknown : Always (fun _ t => AffirmsKnown t) events) : SurvivesPowerFailure last :=
  (DeferredStore.kept_of_run run hknown).survives

namespace AffirmedAfterRestart

def object : ObjectId := [1]

/-- The first start: the scan's barrier, then calls are admitted. -/
def scanned : List DeferredEvent :=
  [.scanBaseline, .barrierStart, .barrierDone, .scanDone]

/-- A deferred put of a loose object, and a crash of the process before any barrier.
The checkpoint is dirty, so the next process admits calls before its scan. -/
def events : List DeferredEvent :=
  scanned ++ [.begin object 100 false, .prepare object, .write object, .register object,
    .finish object, .restart false, .begin object 100 true, .affirm object, .finish object]

def last : DeferredStore := (events.foldlM (DeferredStore.step 10) {}).getD {}

theorem possible : (events.foldlM (DeferredStore.step 10) {}).isSome = true := by decide +kernel

theorem vouched : last.promised = [object] := by decide +kernel

theorem unsynced : last.survivors[object]? = none := by decide +kernel

/-- The put has returned true, and no barrier has run since the object was written. -/
theorem put_returns_unsynced :
    ∃ trace, Run (Traced (DeferredStep 10)) {} trace last ∧ trace.map (·.event) = events ∧
      last.promised = [object] ∧ ¬ SurvivesPowerFailure last := by
  obtain ⟨trace, run, htrace⟩ := exists_run_last possible (rfl : _ = last)
  refine ⟨trace, run, htrace, vouched, fun hsurvives => ?_⟩
  have hmem : object ∈ last.promised := by
    exact mem_cons_self
  have hsome := hsurvives object (.inl hmem)
  rw [unsynced] at hsome
  cases hsome

end AffirmedAfterRestart

namespace AffirmedBeforeRestart

open AffirmedAfterRestart (object scanned)

/-- The process that wrote the object is asked for it again. -/
def calls : List DeferredEvent :=
  scanned ++ [.begin object 100 false, .prepare object, .write object, .register object,
    .finish object, .begin object 100 true]

def called : DeferredStore := (calls.foldlM (DeferredStore.step 10) {}).getD {}

def affirmed : DeferredStore := (called.step 10 (.affirm object)).getD {}

def started : DeferredStore := (affirmed.step 10 .barrierStart).getD {}

def synced : DeferredStore := (started.step 10 .barrierDone).getD {}

def finished : DeferredStore := (synced.step 10 (.finish object)).getD {}

def last : DeferredStore := (finished.step 10 (.restart false)).getD {}

theorem possible : (calls.foldlM (DeferredStore.step 10) {}).isSome = true := by decide +kernel

theorem registered : object ∈ called.registered := by decide +kernel

/-- It waits for the generation of the write, and the object is durable after that. -/
theorem affirmed_put_survives : SurvivesPowerFailure last ∧ object ∈ last.promised := by
  obtain ⟨trace, run, htrace⟩ := exists_run_last possible (rfl : _ = called)
  have hquiet : Always (fun _ t => AffirmsKnown t) trace := by
    refine always_of_events htrace fun t ht id copy hevent => ?_
    rw [hevent] at ht
    simp [calls, scanned] at ht
  have hknown : AffirmsKnown ⟨called, .affirm object, affirmed⟩ := by
    intro id copy hevent _
    cases hevent
    exact .inl registered
  have hrun := ((((run.trace_snoc (u := affirmed) (computes_getD (by decide +kernel))).trace_snoc
    (u := started) (computes_getD (by decide +kernel))).trace_snoc
    (u := synced) (computes_getD (by decide +kernel))).trace_snoc
    (u := finished) (computes_getD (by decide +kernel))).trace_snoc
    (u := last) (computes_getD (by decide +kernel))
  refine ⟨deferred_puts_survive hrun ?_, by decide +kernel⟩
  exact always_snoc.2 ⟨always_snoc.2 ⟨always_snoc.2 ⟨always_snoc.2 ⟨always_snoc.2
    ⟨hquiet, hknown⟩, nofun⟩, nofun⟩, nofun⟩, nofun⟩

end AffirmedBeforeRestart

end Macha
