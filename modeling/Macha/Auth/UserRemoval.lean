import Macha.Auth.UserReplicas

/-!
# Deleted accounts

A tombstone wins over records of its own version and below. Edits made where the
deletion is not known count versions too: two of them pass a tombstone that was
made of the record they started from.
-/

namespace Macha

open List

open UserTable

namespace UserWorld

/-- An update of the account that takes effect starts from that version or an older one. -/
def UpdatesAtMost (id : ByteString) (version : Nat) (t : Transition UserWorld UserEvent) : Prop :=
  match t.event with
  | .change node (.update userId credential roles) _ =>
    userId = id → ∀ user ∈ (t.before.nodes node).memory.find userId,
      (updateChange credential roles user).isSome = true → user.version ≤ version
  | _ => True

instance (id : ByteString) (version : Nat) : DecidablePred (UpdatesAtMost id version) := fun t => by
  obtain ⟨_, event, _⟩ := t
  rcases event with _ | ⟨_, _ | _, _⟩ | _ | _ | _ | _ <;>
    dsimp only [UpdatesAtMost] <;> infer_instance

/-- Every record of the account is deleted or is at most the version after `version`. -/
def LiveAtMost (w : UserWorld) (id : ByteString) (version : Nat) : Prop :=
  ∀ user, w.Stored user → user.id = id → user.tombstone = true ∨ user.version ≤ version + 1

theorem liveAtMost_start (id : ByteString) (version : Nat) : LiveAtMost {} id version := by
  rintro user ⟨_, ⟨_, h⟩ | ⟨_, h⟩ | h⟩
  · simp at h
  · simp at h
  · cases h

section

variable {maxUsers : NodeId → Nat} {w w' : UserWorld} {event : UserEvent} {id : ByteString}

theorem LiveAtMost.step {version : Nat} (h : w.LiveAtMost id version) (hconsistent : w.Consistent)
    (heffect : Effect maxUsers w event w') (hupdates : UpdatesAtMost id version ⟨w, event, w'⟩) :
    w'.LiveAtMost id version := by
  intro user huser hid
  rcases heffect.stored huser with hold | hmade
  · exact h user hold hid
  · cases hmade with
    | created hnew hid' hversion => exact .inr (by omega)
    | @changed node call now old next hget hlive hchange hafter =>
      cases call with
      | remove userId =>
        cases hchange
        exact .inl rfl
      | update userId credential roles =>
        obtain ⟨hnext, hversion, _⟩ := change_eq_some hchange
        have hkey : userId = id :=
          ((hconsistent.keyed node).1 _ _ hget).symm.trans (hnext.symm.trans hid)
        have hle : old.version ≤ version :=
          hupdates hkey old (find_eq_some.2 ⟨hget, hlive⟩) (by
            rw [show updateChange credential roles old = some next from hchange]; rfl)
        refine .inr ?_
        show next.version + 1 ≤ version + 1
        omega

theorem memory_of_remove {remover : NodeId} {now : Nat} {user : UserRecord}
    (hstep : w.step maxUsers (.change remover (.remove id) now) = some w')
    (hfind : (w.nodes remover).memory.find id = some user) :
    (w'.nodes remover).memory =
      (w.nodes remover).memory.insert id (user.removed.revised now remover) := by
  have hmutate : (w.nodes remover).memory.mutate id removeChange now remover =
      some ((w.nodes remover).memory.insert id (user.removed.revised now remover)) := by
    unfold mutate
    rw [hfind]
    rfl
  simp only [step, UserCall.userId, UserCall.change] at hstep
  split at hstep
  · cases hstep
  · rw [hmutate] at hstep
    cases hstep
    exact memory_setMemory _ _ _

/-- The node has the tombstone or a greater record, or has no place for the account. -/
def Deleted (maxUsers : NodeId → Nat) (w : UserWorld) (node : NodeId) (removed : UserRecord) :
    Prop :=
  (w.nodes node).memory.Covers removed ∨ (w.nodes node).memory.Full (maxUsers node) removed.id

variable {removed : UserRecord} {node : NodeId}

theorem Deleted.find_eq_none {version : Nat} (h : Deleted maxUsers w node removed)
    (hconsistent : w.Consistent) (hlive : w.LiveAtMost removed.id version)
    (hversion : removed.version = version + 1) (htombstone : removed.tombstone = true) :
    (w.nodes node).memory.find removed.id = none := by
  unfold find
  rcases h with ⟨kept, hget, hrank⟩ | ⟨hnone, _⟩
  · have hkept : kept.tombstone = true := by
      rcases hlive kept ⟨node, .inl ⟨_, hget⟩⟩ ((hconsistent.keyed node).1 _ _ hget) with h | h
      · exact h
      · exact UserRecord.tombstone_of_rank_le hrank (hversion ▸ h) htombstone
    rw [hget, Option.filter_some, hkept]
    rfl
  · rw [hnone]
    rfl

theorem Deleted.step (h : Deleted maxUsers w node removed) (hconsistent : w.Consistent)
    (heffect : Effect maxUsers w event w') (hcrash : ∀ node, event ≠ .crash node) :
    Deleted maxUsers w' node removed :=
  h.imp (heffect.covers hconsistent hcrash) (heffect.absent hcrash)

theorem deleted_of_received (heffect : Effect maxUsers w event w')
    (h : (node, removed) ∈ w'.received) :
    (node, removed) ∈ w.received ∨ Deleted maxUsers w' node removed := by
  cases heffect with
  | deliver hsent =>
    rcases mem_append.1 h with hnew | hold
    · obtain ⟨value, hvalue, heq⟩ := List.mem_map.1 hnew
      cases heq
      unfold Deleted
      rw [nodes_setNode_self]
      exact .inr (covers_or_full_of_mem hvalue)
    · exact .inl hold
  | _ => exact .inl h

end

/-- A deletion stays in force on every node that has received it, in any run without
crashes in which every update of the account, wherever it is made, starts from a
record no newer than the one that was deleted. -/
theorem removed_user_stays_removed {maxUsers : NodeId → Nat} {w : UserWorld}
    {trace : List (Transition UserWorld UserEvent)}
    (hrun : Run (Traced (Computes (step maxUsers))) {} trace w)
    (hcrash : ∀ t ∈ trace, ∀ node, t.event ≠ .crash node)
    {removal : Transition UserWorld UserEvent} (hremoval : removal ∈ trace) {remover : NodeId}
    {id : ByteString} {now : Nat} {user : UserRecord}
    (hevent : removal.event = .change remover (.remove id) now)
    (hfind : (removal.before.nodes remover).memory.find id = some user)
    (hupdates : ∀ t ∈ trace, UpdatesAtMost id user.version t) {node : NodeId}
    (hnode : node = remover ∨ (node, user.removed.revised now remover) ∈ w.received) :
    (w.nodes node).memory.find id = none := by
  have hinvariant : w.Consistent ∧ w.LiveAtMost id user.version ∧ (removal ∈ trace → user.id = id) ∧
      ∀ node, (node = remover ∧ removal ∈ trace ∨
        (node, user.removed.revised now remover) ∈ w.received) →
        Deleted maxUsers w node (user.removed.revised now remover) := by
    clear hremoval hnode
    induction hrun with
    | refl =>
      refine ⟨consistent_start, liveAtMost_start _ _, nofun, ?_⟩
      rintro node (⟨_, h⟩ | h)
      · cases h
      · cases h
    | @snoc trace before after t run hstep ih =>
      obtain ⟨hcrash, hlast⟩ := forall_mem_append.1 hcrash
      obtain ⟨hupdates, hupdate⟩ := forall_mem_append.1 hupdates
      rw [forall_mem_singleton] at hlast hupdate
      obtain ⟨hconsistent, hlive, hid, hdeleted⟩ := ih hcrash hupdates
      obtain ⟨_, event, _⟩ := t
      obtain ⟨hstep, hbefore, hafter⟩ := hstep
      subst hbefore hafter
      have heffect := effect_of_step hstep
      refine ⟨hconsistent.step heffect, hlive.step hconsistent heffect hupdate, ?_, ?_⟩
      · intro hremoval
        rcases mem_append.1 hremoval with hremoval | hremoval
        · exact hid hremoval
        · cases mem_singleton.1 hremoval
          exact (hconsistent.keyed remover).1 _ _ (find_eq_some.1 hfind).1
      · rintro node (⟨rfl, hremoval⟩ | hreceived)
        · rcases mem_append.1 hremoval with hremoval | hremoval
          · exact (hdeleted node (.inl ⟨rfl, hremoval⟩)).step hconsistent heffect hlast
          · cases mem_singleton.1 hremoval
            subst hevent
            refine .inl ?_
            rw [memory_of_remove hstep hfind,
              ← (hconsistent.keyed node).1 _ _ (find_eq_some.1 hfind).1]
            exact covers_insert_self _ (user.removed.revised now node)
        · rcases deleted_of_received heffect hreceived with hold | hnew
          · exact (hdeleted node (.inr hold)).step hconsistent heffect hlast
          · exact hnew
  obtain ⟨hconsistent, hlive, hid, hdeleted⟩ := hinvariant
  obtain rfl := hid hremoval
  exact (hdeleted node (hnode.imp_left fun h => ⟨h, hremoval⟩)).find_eq_none hconsistent hlive rfl
    rfl

end UserWorld

namespace DeletedAccount

def maxUsers (_ : NodeId) : Nat := 4

def id : ByteString := [7]

def created : UserRecord :=
  { id := id, username := bytes "ann", kdf := 0, credentialGeneration := 1, createdUnixMs := 5
    updatedUnixMs := 5, version := 1, updatedBy := 1 }

def tombstone : UserRecord := created.removed.revised 6 1

def granted (now generation : Nat) : UserRecord :=
  { created with
    roles := expandRoles [roleImporter], credentialGeneration := generation, updatedUnixMs := now
    version := generation, updatedBy := 2 }

/-- Two nodes know the account, one deletes it. -/
def deletion : List UserEvent :=
  [.create 1 id (bytes "ann") none [] 5, .written 1 true, .send 1, .deliver 2 [created],
    .written 2 true, .change 1 (.remove id) 6, .written 1 true, .send 1]

def grant (now : Nat) : UserEvent := .change 2 (.update id none (some [roleImporter])) now

/-- The other node edits it once before it hears of the deletion. -/
def oneEdit : List UserEvent :=
  deletion ++ [grant 7, .written 2 true, .send 2, .deliver 1 [granted 7 2], .deliver 2 [tombstone]]

theorem removed_user_stays_removed_one_edit : ∃ trace w,
    Run (Traced (Computes (UserWorld.step maxUsers))) {} trace w ∧
      trace.map (·.event) = oneEdit ∧ (w.nodes 2).memory.find id = none := by
  have hruns : ((oneEdit.foldlM (checkedStep (UserWorld.step maxUsers) fun t =>
      UserWorld.UpdatesAtMost id created.version t ∧ (t.event = .change 1 (.remove id) 6 →
          (t.before.nodes 1).memory.find id = some created)) {}).any fun w =>
      decide ((2, tombstone) ∈ w.received)) = true := by decide +kernel
  obtain ⟨w, hw, hreceived⟩ := (Option.any_eq_true _ _).1 hruns
  obtain ⟨trace, run, halways, hevents⟩ := exists_checked_run hw
  refine ⟨trace, w, run, hevents, ?_⟩
  have hcrash : ∀ t ∈ trace, ∀ node, t.event ≠ .crash node := by
    intro t ht node hevent
    have hmem := List.mem_map_of_mem (f := (·.event)) ht
    rw [hevents, hevent] at hmem
    simp [oneEdit, deletion, grant] at hmem
  have hremoval : UserEvent.change 1 (.remove id) 6 ∈ trace.map (·.event) := by
    rw [hevents]
    simp [oneEdit, deletion]
  obtain ⟨removal, hmem, hevent⟩ := List.mem_map.1 hremoval
  exact UserWorld.removed_user_stays_removed run hcrash hmem hevent
    ((halways.forall_mem removal hmem).2 hevent) (fun t ht => (halways.forall_mem t ht).1)
    (.inr (of_decide_eq_true hreceived))

def twoEdits : List UserEvent :=
  deletion ++ [grant 7, .written 2 true, grant 8, .written 2 true, .send 2,
    .deliver 1 [granted 8 3]]

/-- The node that deleted the account has it back, and the one that edited it never
received the deletion. -/
theorem deleted_account_comes_back : ∃ w, Run (Computes (UserWorld.step maxUsers)) {} twoEdits w ∧
      (2, tombstone) ∉ w.received ∧ (1, tombstone) ∈ w.sent ∧
      (w.nodes 1).memory.find id = some (granted 8 3) := by
  have hfinal : ((twoEdits.foldlM (UserWorld.step maxUsers) {}).any fun w =>
      decide ((2, tombstone) ∉ w.received ∧ (1, tombstone) ∈ w.sent ∧
        (w.nodes 1).memory.find id = some (granted 8 3))) = true := by decide +kernel
  obtain ⟨w, hrun, h⟩ := (Option.any_eq_true _ _).1 hfinal
  exact ⟨w, run_of_foldlM hrun, of_decide_eq_true h⟩

end DeletedAccount

end Macha
