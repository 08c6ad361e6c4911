import Macha.Auth.UserReplicas

/-!
# Convergence of user tables

Tables that have exchanged all their records are equal as long as no two records
share id, version, deletion and author. A node that crashes with a change sent
but not written makes the same version again.
-/

namespace Macha

open List

open UserTable

instance (table : UserTable) (user : UserRecord) : Decidable (table.Covers user) :=
  decidable_of_iff ((table[user.id]?.any fun kept => decide (user.rank ≤ kept.rank)) = true) (by
    unfold Covers
    simp [Option.any_eq_true])

namespace UserWorld

/-- What a crashing node has sent or received, its file has too, or something greater. -/
def KeepsOnCrash (t : Transition UserWorld UserEvent) : Prop :=
  match t.event with
  | .crash node => ∀ item ∈ t.before.sent ++ t.before.received, item.1 = node →
      (t.before.nodes node).disk.Covers item.2
  | _ => True

instance : DecidablePred KeepsOnCrash := fun t => by
  unfold KeepsOnCrash
  split <;> infer_instance

/-- No delivery fills the table of its node. -/
def BelowCapacity (maxUsers : NodeId → Nat) (t : Transition UserWorld UserEvent) : Prop :=
  match t.event with
  | .deliver node _ => (t.after.nodes node).memory.size < maxUsers node
  | _ => True

instance (maxUsers : NodeId → Nat) : DecidablePred (BelowCapacity maxUsers) := fun t => by
  unfold BelowCapacity
  split <;> infer_instance

/-- What makes exchanged tables agree. -/
structure Converging (w : UserWorld) : Prop where
  consistent : w.Consistent
  unique : ∀ user other, w.Stored user → w.Stored other → user.id = other.id →
    user.rank = other.rank → user = other
  authored : ∀ user, w.Stored user → (w.nodes user.updatedBy).memory.Covers user
  /-- A record has left its author through the network. -/
  shared : ∀ node user, w.At node user → user.updatedBy ≠ node → (user.updatedBy, user) ∈ w.sent
  covered : ∀ node user, (node, user) ∈ w.sent ++ w.received → (w.nodes node).memory.Covers user

theorem converging_start : Converging {} where
  consistent := consistent_start
  unique := by
    rintro user other ⟨_, ⟨_, h⟩ | ⟨_, h⟩ | h⟩
    · simp at h
    · simp at h
    · cases h
  authored := by
    rintro user ⟨_, ⟨_, h⟩ | ⟨_, h⟩ | h⟩
    · simp at h
    · simp at h
    · cases h
  shared := by
    rintro node user (⟨_, h⟩ | ⟨_, h⟩ | h)
    · simp at h
    · simp at h
    · cases h
  covered := by
    intro node user h
    cases h

theorem Effect.sent {maxUsers : NodeId → Nat} {w w' : UserWorld} {event : UserEvent}
    (heffect : Effect maxUsers w event w') : w.sent ⊆ w'.sent := by
  cases heffect with
  | send => exact subset_append_right _ _
  | _ => exact List.Subset.refl _

theorem Effect.crash_or {maxUsers : NodeId → Nat} {w w' : UserWorld} {event : UserEvent}
    (heffect : Effect maxUsers w event w') :
    (∃ node, event = .crash node ∧ w' = w.setNode node
      { w.nodes node with memory := (w.nodes node).disk, persisting := false }) ∨
      ∀ node, event ≠ .crash node := by
  cases heffect with
  | @crash node => exact .inl ⟨node, rfl, rfl⟩
  | _ => exact .inr fun node h => nomatch h

theorem Consistent.covers_disk {w : UserWorld} (h : w.Consistent) {node : NodeId} {id : ByteString}
    {user : UserRecord} (hget : (w.nodes node).disk[id]? = some user) :
    (w.nodes node).disk.Covers user :=
  ⟨user, by rw [(h.keyed node).2 id user hget, hget], le_rfl⟩

/-- The file of a crashed node covers what is left of the records it made. -/
theorem Converging.covers_of_crash {w : UserWorld} (h : w.Converging) {crashed : NodeId}
    (hkeeps : ∀ item ∈ w.sent ++ w.received, item.1 = crashed →
      (w.nodes crashed).disk.Covers item.2) {node : NodeId} {user : UserRecord}
    (huser : (w.setNode crashed
      { w.nodes crashed with memory := (w.nodes crashed).disk, persisting := false }).At node user)
    (hauthor : user.updatedBy = crashed) : (w.nodes crashed).disk.Covers user := by
  by_cases hnode : node = crashed
  · subst hnode
    unfold At setNode at huser
    dsimp only at huser
    rw [Function.update_self] at huser
    rcases huser with ⟨id, hget⟩ | ⟨id, hget⟩ | hsent
    · exact h.consistent.covers_disk hget
    · exact h.consistent.covers_disk hget
    · exact hkeeps _ (mem_append_left _ hsent) rfl
  · have hold := (at_setNode huser).resolve_right fun hnew => hnode hnew.1
    have hsent := h.shared node user hold fun heq => hnode (heq.symm.trans hauthor)
    rw [hauthor] at hsent
    exact hkeeps _ (mem_append_left _ hsent) rfl

section

variable {maxUsers : NodeId → Nat} {w w' : UserWorld} {event : UserEvent} {user : UserRecord}

section

variable (h : w.Converging)

include h

section

variable (heffect : Effect maxUsers w event w')

include heffect

theorem Converging.authored_step (hkeeps : KeepsOnCrash ⟨w, event, w'⟩) (huser : w'.Stored user) :
    (w'.nodes user.updatedBy).memory.Covers user := by
  rcases heffect.stored huser with hold | hmade
  · have hcovers := h.authored user hold
    rcases heffect.crash_or with ⟨crashed, rfl, rfl⟩ | hcrash
    · obtain ⟨node, huser⟩ := huser
      exact memory_setNode (P := (Covers · user))
        (fun hauthor => h.covers_of_crash hkeeps huser hauthor.symm) hcovers
    · exact heffect.covers h.consistent hcrash hcovers
  · obtain ⟨hafter, _⟩ := hmade.cases fun node => (h.consistent.keyed node).1
    exact ⟨user, hafter, le_rfl⟩

theorem Converging.unique_step {user other : UserRecord} (huser : w'.Stored user)
    (hother : w'.Stored other) (hid : user.id = other.id) (hrank : user.rank = other.rank) :
    user = other := by
  have hkeyed := fun node => (h.consistent.keyed node).1
  -- a record made now is not as great as one its author had, and of no one else
  have hnew : ∀ made old : UserRecord, Made w w' event made → w.Stored old → made.id = old.id →
      made.rank ≠ old.rank := by
    intro made old hmade hold hid hrank
    obtain ⟨_, ⟨hnew, _⟩ | ⟨previous, hget, hversion, _⟩⟩ := hmade.cases hkeyed
    · exact hnew (hid ▸ h.consistent.drawn old hold)
    · obtain ⟨hsame, _, hauthor⟩ := UserRecord.rank_eq_iff.1 hrank
      obtain ⟨kept, hkept, hle⟩ := h.authored old hold
      rw [← hid, ← hauthor, hget] at hkept
      cases hkept
      have := UserRecord.version_le_of_rank_le hle
      omega
  rcases heffect.stored huser with hold | hmade
  · rcases heffect.stored hother with hold' | hmade'
    · exact h.unique user other hold hold' hid hrank
    · exact absurd hrank.symm (hnew other user hmade' hold hid.symm)
  · rcases heffect.stored hother with hold' | hmade'
    · exact absurd hrank (hnew user other hmade hold' hid)
    · exact hmade.unique hmade'

theorem Converging.shared_step {node : NodeId} (huser : w'.At node user)
    (hne : user.updatedBy ≠ node) : (user.updatedBy, user) ∈ w'.sent := by
  rcases heffect.at huser with hold | ⟨sender, hsent⟩ | ⟨hauthor, _⟩
  · exact heffect.sent (h.shared node user hold hne)
  · by_cases hsender : user.updatedBy = sender
    · rw [hsender]
      exact heffect.sent hsent
    · exact heffect.sent (h.shared sender user (.inr (.inr hsent)) hsender)
  · exact absurd hauthor hne

omit h in
theorem Effect.exchanged (h : w.Consistent) (hroom : BelowCapacity maxUsers ⟨w, event, w'⟩)
    {node : NodeId} (hitem : (node, user) ∈ w'.sent ++ w'.received) :
    (node, user) ∈ w.sent ++ w.received ∨ (w'.nodes node).memory.Covers user := by
  cases heffect with
  | @send sender =>
    rcases mem_append.1 hitem with hsent | hreceived
    · rcases mem_append.1 hsent with hnew | hsent
      · obtain ⟨⟨id, record⟩, hget, heq⟩ := List.mem_map.1 hnew
        cases heq
        rw [OrdMap.mem_toList] at hget
        exact .inr ⟨user, by rw [(h.keyed node).1 id user hget, hget], le_rfl⟩
      · exact .inl (mem_append_left _ hsent)
    · exact .inl (mem_append_right _ hreceived)
  | @deliver receiver values changed hvalues =>
    rcases mem_append.1 hitem with hsent | hreceived
    · exact .inl (mem_append_left _ hsent)
    · rcases mem_append.1 hreceived with hnew | hreceived
      · obtain ⟨value, hvalue, heq⟩ := List.mem_map.1 hnew
        cases heq
        have hsize : ((setNode _ node _).nodes node).memory.size < maxUsers node := hroom
        rw [nodes_setNode_self] at hsize ⊢
        exact .inr ((covers_or_full_of_mem hvalue).resolve_right fun hfull => absurd hsize
          (not_lt.2 hfull.2))
      · exact .inl (mem_append_right _ hreceived)
  | _ => exact .inl hitem

theorem Converging.step (hroom : BelowCapacity maxUsers ⟨w, event, w'⟩)
    (hkeeps : KeepsOnCrash ⟨w, event, w'⟩) : w'.Converging where
  consistent := h.consistent.step heffect
  unique := fun _ _ huser hother => h.unique_step heffect huser hother
  authored := fun _ huser => h.authored_step heffect hkeeps huser
  shared := fun _ _ huser => h.shared_step heffect huser
  covered := by
    intro node user hitem
    rcases heffect.exchanged h.consistent hroom hitem with hold | hcovers
    · have hcovers := h.covered node user hold
      rcases heffect.crash_or with ⟨crashed, rfl, rfl⟩ | hcrash
      · exact memory_setNode (P := (Covers · user))
          (fun heq => hkeeps (node, user) hold heq.symm) hcovers
      · exact heffect.covers h.consistent hcrash hcovers
    · exact hcovers

end

theorem Converging.getElem?_eq_some {one other : NodeId}
    (hone : ∀ (id : ByteString) user, (w.nodes one).memory[id]? = some user →
      (w.nodes other).memory.Covers user)
    (hother : ∀ (id : ByteString) user, (w.nodes other).memory[id]? = some user →
      (w.nodes one).memory.Covers user) {id : ByteString}
    (hget : (w.nodes one).memory[id]? = some user) :
    (w.nodes other).memory[id]? = some user := by
  have hid := (h.consistent.keyed one).1 id user hget
  obtain ⟨kept, hkept, hle⟩ := hone id user hget
  have hid' := (h.consistent.keyed other).1 _ kept hkept
  obtain ⟨back, hback, hge⟩ := hother _ kept hkept
  rw [hid', hid, hget] at hback
  cases hback
  have heq := h.unique user kept ⟨one, .inl ⟨_, hget⟩⟩ ⟨other, .inl ⟨_, hkept⟩⟩ hid'.symm
    (le_antisymm hle hge)
  rw [hid] at hkept
  rw [hkept, heq]

end

end

/-- Two nodes that have sent every record they hold, and have each received every
record the other ever sent, hold equal tables: in any run from empty tables that stay
below their capacity, with accounts created, changed and removed anywhere, messages
in any order and repeated, and crashes of nodes whose file has, for each record they
sent or received, that record or a greater one. -/
theorem user_tables_converge {maxUsers : NodeId → Nat} {w : UserWorld}
    {trace : List (Transition UserWorld UserEvent)}
    (hrun : Run (Traced (Computes (step maxUsers))) {} trace w)
    (hroom : Always (fun _ t => BelowCapacity maxUsers t) trace)
    (hkeeps : Always (fun _ t => KeepsOnCrash t) trace) {a b : NodeId}
    (ha : ∀ (id : ByteString) (user : UserRecord), (w.nodes a).memory[id]? = some user →
      (a, user) ∈ w.sent)
    (hb : ∀ (id : ByteString) (user : UserRecord), (w.nodes b).memory[id]? = some user →
      (b, user) ∈ w.sent)
    (hab : ∀ user, (a, user) ∈ w.sent → (b, user) ∈ w.received)
    (hba : ∀ user, (b, user) ∈ w.sent → (a, user) ∈ w.received) :
    (w.nodes a).memory = (w.nodes b).memory := by
  have hconverging : w.Converging :=
    hrun.invariant_of_always
      (fun past t hpast => And.intro (hroom past t hpast) (hkeeps past t hpast)) converging_start
      fun _ _ _ hstep h hcond => h.step (effect_of_step hstep) hcond.1 hcond.2
  have hone : ∀ (id : ByteString) (user : UserRecord), (w.nodes a).memory[id]? = some user →
      (w.nodes b).memory.Covers user := fun id user hget =>
    hconverging.covered b user (mem_append_right _ (hab user (ha id user hget)))
  have hother : ∀ (id : ByteString) (user : UserRecord), (w.nodes b).memory[id]? = some user →
      (w.nodes a).memory.Covers user := fun id user hget =>
    hconverging.covered a user (mem_append_right _ (hba user (hb id user hget)))
  refine OrdMap.ext fun id => Option.ext fun user => ?_
  exact ⟨hconverging.getElem?_eq_some hone hother, hconverging.getElem?_eq_some hother hone⟩

end UserWorld

namespace TwoUserNodes

def maxUsers (_ : NodeId) : Nat := 4

def id : ByteString := [7]

/-- The first version of the account, and a change of its roles. -/
def created : UserRecord :=
  { id := id, username := bytes "ann", kdf := 0, credentialGeneration := 1, createdUnixMs := 5
    updatedUnixMs := 5, version := 1, updatedBy := 1 }

def withRole (role : ByteString) (now : Nat) (author : NodeId) : UserRecord :=
  { created with
    roles := expandRoles [role], credentialGeneration := 2, updatedUnixMs := now, version := 2
    updatedBy := author }

def grant (node : NodeId) (role : ByteString) (now : Nat) : UserEvent :=
  .change node (.update id none (some [role])) now

/-- Both nodes change the account, and exchange their tables. -/
def exchanged : List UserEvent :=
  [.create 1 id (bytes "ann") none [] 5, .written 1 true, .send 1, .deliver 2 [created],
    .written 2 true, grant 1 roleImporter 6, .written 1 true, .crash 1, grant 2 roleManager 7,
    .written 2 true, .send 1, .send 2,
    .deliver 2 [withRole roleImporter 6 1],
    .deliver 1 [withRole roleManager 7 2, withRole roleImporter 6 1], .send 1,
    .deliver 2 [withRole roleManager 7 2]]

/-- A change is sent and received, and made again differently after a crash. -/
def repeated : List UserEvent :=
  [.create 1 id (bytes "ann") none [] 5, .written 1 true, grant 1 roleImporter 6, .send 1,
    .deliver 2 [withRole roleImporter 6 1], .written 2 true, .crash 1, grant 1 roleManager 7,
    .written 1 true, .send 1, .send 2, .deliver 2 [withRole roleManager 7 1],
    .deliver 1 [withRole roleImporter 6 1]]

/-- Each of the two has sent its table and received whatever the other has sent. -/
def AllExchanged (w : UserWorld) : Prop :=
  (∀ item ∈ (w.nodes 1).memory.toList, (1, item.2) ∈ w.sent) ∧
    (∀ item ∈ (w.nodes 2).memory.toList, (2, item.2) ∈ w.sent) ∧
      (∀ item ∈ w.sent, item.1 = 1 → (2, item.2) ∈ w.received) ∧
        ∀ item ∈ w.sent, item.1 = 2 → (1, item.2) ∈ w.received

instance (w : UserWorld) : Decidable (AllExchanged w) :=
  inferInstanceAs (Decidable (_ ∧ _ ∧ _ ∧ _))

theorem exchanged_tables_equal : ∃ trace w,
    Run (Traced (Computes (UserWorld.step maxUsers))) {} trace w ∧
      trace.map (·.event) = exchanged ∧ (w.nodes 1).memory = (w.nodes 2).memory := by
  have hruns : ((exchanged.foldlM (checkedStep (UserWorld.step maxUsers) fun t =>
      UserWorld.BelowCapacity maxUsers t ∧ UserWorld.KeepsOnCrash t) {}).any fun w =>
      decide (AllExchanged w)) = true := by decide +kernel
  obtain ⟨w, hw, h⟩ := (Option.any_eq_true _ _).1 hruns
  obtain ⟨ha, hb, hab, hba⟩ := of_decide_eq_true h
  obtain ⟨trace, run, halways, hevents⟩ := exists_checked_run hw
  refine ⟨trace, w, run, hevents, ?_⟩
  exact UserWorld.user_tables_converge run (fun past t hpast => (halways past t hpast).1)
    (fun past t hpast => (halways past t hpast).2)
    (fun id user hget => ha (id, user) ((OrdMap.mem_toList _ _ _).2 hget))
    (fun id user hget => hb (id, user) ((OrdMap.mem_toList _ _ _).2 hget))
    (fun user hsent => hab (1, user) hsent rfl) (fun user hsent => hba (2, user) hsent rfl)

theorem tables_stay_different : ∃ w,
    Run (Computes (UserWorld.step maxUsers)) {} repeated w ∧ AllExchanged w ∧
      (w.nodes 1).memory[id]? = some (withRole roleManager 7 1) ∧
      (w.nodes 2).memory[id]? = some (withRole roleImporter 6 1) := by
  have hfinal : ((repeated.foldlM (UserWorld.step maxUsers) {}).any fun w =>
      decide (AllExchanged w ∧ (w.nodes 1).memory[id]? = some (withRole roleManager 7 1) ∧
        (w.nodes 2).memory[id]? = some (withRole roleImporter 6 1))) = true := by decide +kernel
  obtain ⟨w, hrun, h⟩ := (Option.any_eq_true _ _).1 hfinal
  exact ⟨w, run_of_foldlM hrun, of_decide_eq_true h⟩

end TwoUserNodes

end Macha
