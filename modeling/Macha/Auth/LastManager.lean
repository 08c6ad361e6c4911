import Macha.Auth.Users
import Macha.Library.Run

/-!
# The last account manager

`update` and `remove` refuse to take the role from the only account that manages
accounts. They look under one hold of the lock and change the table under
another; between the two other calls may do the same.
-/

namespace Macha

open Option

open UserTable

namespace UserTable

def managed (table : UserTable) : Bool :=
  table.toList.any fun (_, user) => managesUsers user

variable {table : UserTable}

theorem managed_iff : table.managed = true ↔ ∃ (id : ByteString) (user : UserRecord),
        table[id]? = some user ∧ managesUsers user = true := by
  unfold managed
  simp only [List.any_eq_true, Prod.exists, OrdMap.mem_toList]

theorem managed_insert_of_ne {id manager : ByteString} {user record : UserRecord}
    (hne : id ≠ manager) (hget : table[manager]? = some user)
    (hmanages : managesUsers user = true) : managed (table.insert id record) = true := by
  refine managed_iff.2 ⟨manager, user, ?_, hmanages⟩
  rw [OrdMap.getElem?_insert_of_ne _ _ hne]
  exact hget

theorem managed_insertUser {maxUsers : Nat} {id username : ByteString}
    {credential : Option Credential} {roles : List ByteString} {now : Nat} {author : NodeId}
    (hnew : table.contains id = false) (hm : table.managed = true) :
    managed ((table.insertUser maxUsers id username credential roles now author).getD table) =
      true := by
  cases hinsert : table.insertUser maxUsers id username credential roles now author with
  | none => exact hm
  | some after =>
    obtain ⟨manager, user, hget, hmanages⟩ := managed_iff.1 hm
    obtain ⟨record, rfl, _⟩ := insertUser_eq_some hinsert
    refine managed_insert_of_ne ?_ hget hmanages
    rintro rfl
    have hin := (OrdMap.contains_iff table id).2 (by rw [hget]; rfl)
    rw [hnew] at hin
    cases hin

theorem managesUsers_change {call : UserCall} {user next after : UserRecord}
    (h : call.change user = some next) (htombstone : after.tombstone = next.tombstone)
    (hroles : after.roles = next.roles) :
    (call.demotes = true → managesUsers after = false) ∧
      (call.demotes = false → managesUsers user = true → managesUsers after = true) := by
  unfold managesUsers
  rw [htombstone, hroles]
  cases call with
  | remove userId =>
    cases h
    exact ⟨fun _ => rfl, fun h => nomatch h⟩
  | update userId credential roles =>
    obtain ⟨_, _, hlive, _, hnext⟩ := updateChange_eq_some h
    rw [hlive, hnext]
    cases roles with
    | none => exact ⟨fun h => (nomatch h), fun _ => id⟩
    | some roles =>
      have hexpand := manageUsers_mem_expandRoles roles
      simp only [UserCall.demotes, map_some, getD_some, decide_eq_true_eq,
        decide_eq_false_iff_not, not_not, hexpand]
      constructor
      · intro hnot
        simp [hnot]
      · intro hin
        simp only [hin, decide_true, Bool.and_true]
        exact fun h => (Bool.and_eq_true_iff.1 h).1

theorem exists_other_manager {userId : ByteString} (hm : table.managed = true)
    (hsole : table.soleUserManager userId = false) :
    ∃ (id : ByteString) (user : UserRecord),
      userId ≠ id ∧ table[id]? = some user ∧ managesUsers user = true := by
  by_contra hnone
  push Not at hnone
  have honly : ∀ id user, table[id]? = some user →
      managesUsers user = true → id = userId := by
    intro id user hget hmanages
    by_contra hne
    exact hnone id user (Ne.symm hne) hget hmanages
  obtain ⟨manager, user, hget, hmanages⟩ := managed_iff.1 hm
  have hself := honly manager user hget hmanages
  subst hself
  have htrue := soleUserManager_eq_true.2 ⟨⟨user, hget, hmanages⟩, honly⟩
  rw [hsole] at htrue
  cases htrue

/-- A change that takes effect leaves a manager exactly if it demotes none or finds
another. -/
theorem managed_mutate_iff {table after : UserTable} {call : UserCall} {now : Nat}
    {author : NodeId} (h : table.mutate call.userId call.change now author = some after)
    (hm : table.managed = true) :
    after.managed = true ↔ (call.demotes = true → table.soleUserManager call.userId = false) := by
  obtain ⟨old, next, hold, _, hchange, rfl⟩ := mutate_eq_some.1 h
  have hrole := @managesUsers_change call old next (next.revised now author) hchange rfl rfl
  constructor
  · intro hafter hdemotes
    obtain ⟨id, user, hget, hmanages⟩ := managed_iff.1 hafter
    rw [OrdMap.getElem?_insert] at hget
    split at hget
    · cases hget
      rw [hrole.1 hdemotes] at hmanages
      cases hmanages
    · next hne =>
      refine Bool.eq_false_iff.2 fun hsole => ?_
      exact hne ((soleUserManager_eq_true.1 hsole).2 id user hget hmanages).symm
  · intro hkeeps
    cases hdemotes : call.demotes with
    | true =>
      obtain ⟨id, user, hne, hget, hmanages⟩ := exists_other_manager hm (hkeeps hdemotes)
      exact managed_insert_of_ne hne hget hmanages
    | false =>
      obtain ⟨manager, user, hget, hmanages⟩ := managed_iff.1 hm
      by_cases hsame : call.userId = manager
      · subst hsame
        rw [hold] at hget
        cases hget
        exact managed_iff.2 ⟨_, _, OrdMap.getElem?_insert_self _ _ _, hrole.2 hdemotes hmanages⟩
      · exact managed_insert_of_ne hsame hget hmanages

end UserTable

/-- The table and the calls that have passed their check. -/
structure ManagerWorld where
  table : UserTable := ∅
  waiting : List UserCall := []

inductive ManagerEvent where
  | create (id username : ByteString) (credential : Option Credential) (roles : List ByteString)
      (now : Nat) (author : NodeId)
  | check (call : UserCall)
  | change (call : UserCall) (now : Nat) (author : NodeId)
deriving DecidableEq, Repr

namespace ManagerWorld

/-- One hold of the lock. The id `create` draws is not in the table. -/
def step (maxUsers : Nat) (world : ManagerWorld) : ManagerEvent → Option ManagerWorld
  | .create id username credential roles now author =>
    if world.table.contains id then none
    else some { world with
      table := (world.table.insertUser maxUsers id username credential roles now author).getD
        world.table }
  | .check call =>
    if call.demotes && world.table.soleUserManager call.userId then some world
    else some { world with waiting := call :: world.waiting }
  | .change call now author =>
    if call ∈ world.waiting then
      some { table := (world.table.mutate call.userId call.change now author).getD world.table
             waiting := world.waiting.erase call }
    else none

def hasManager (world : ManagerWorld) : Bool :=
  world.table.managed

/-- A demotion or removal that takes effect finds another manager. -/
def KeepsManager (t : Transition ManagerWorld ManagerEvent) : Prop :=
  match t.event with
  | .change call now author =>
    call.demotes = true → (t.before.table.mutate call.userId call.change now author).isSome = true →
        t.before.table.soleUserManager call.userId = false
  | _ => True

instance : DecidablePred KeepsManager := fun t => by
  unfold KeepsManager
  split <;> infer_instance

/-- A step keeps a manager exactly if it does not take the role from the last one. -/
theorem hasManager_step_iff {maxUsers : Nat} {w w' : ManagerWorld} {event : ManagerEvent}
    (h : w.step maxUsers event = some w') (hm : w.hasManager = true) :
    w'.hasManager = true ↔ KeepsManager ⟨w, event, w'⟩ := by
  cases event with
  | create id username credential roles now author =>
    refine iff_of_true ?_ trivial
    simp only [step] at h
    split at h
    · cases h
    · next hnew =>
      cases h
      exact managed_insertUser (Bool.eq_false_iff.2 hnew) hm
  | check call =>
    refine iff_of_true ?_ trivial
    simp only [step] at h
    split at h
    · cases h
      exact hm
    · cases h
      exact hm
  | change call now author =>
    simp only [step] at h
    split at h
    · cases h
      unfold hasManager KeepsManager
      dsimp only
      cases hmutate : w.table.mutate call.userId call.change now author with
      | none => exact iff_of_true hm fun _ h => nomatch h
      | some after =>
        rw [getD_some, managed_mutate_iff hmutate hm]
        exact ⟨fun h hd _ => h hd, fun h hd => h hd rfl⟩
    · cases h

/-- In any interleaving of the lock-delimited sections some account keeps managing
accounts exactly if every demotion and every removal, when it takes effect, still
finds another one that does. -/
theorem manager_never_lost_iff {maxUsers : Nat} {start w : ManagerWorld}
    {trace : List (Transition ManagerWorld ManagerEvent)}
    (hrun : Run (Traced (Computes (step maxUsers))) start trace w)
    (hm : start.hasManager = true) :
    (∀ t ∈ trace, t.after.hasManager = true) ↔ ∀ t ∈ trace, KeepsManager t :=
  hrun.forall_after_iff hm fun _ _ _ hstep => hasManager_step_iff hstep

end ManagerWorld

namespace TwoManagers

def manager (id : ByteString) : UserRecord :=
  { id := id, username := id, roles := [roleManageUsers], credentialGeneration := 1, version := 1 }

def start : ManagerWorld :=
  { table := ((∅ : UserTable).insert [1] (manager [1])).insert [2] (manager [2]) }

/-- One thread removes an account after the other has. -/
def inTurn : List ManagerEvent :=
  [.check (.remove [1]), .change (.remove [1]) 5 7, .check (.remove [2])]

theorem manager_never_lost_in_turn : ∃ trace final,
    Run (Traced (Computes (ManagerWorld.step 4))) start trace final ∧
      trace.map (·.event) = inTurn ∧ ∀ t ∈ trace, t.after.hasManager = true := by
  have hruns : (inTurn.foldlM (checkedStep (ManagerWorld.step 4) ManagerWorld.KeepsManager)
      start).isSome = true := by decide +kernel
  obtain ⟨final, hfinal⟩ := isSome_iff_exists.1 hruns
  obtain ⟨trace, run, halways, hevents⟩ := exists_checked_run hfinal
  refine ⟨trace, final, run, hevents, ?_⟩
  exact (ManagerWorld.manager_never_lost_iff run (by decide +kernel)).2 halways.forall_mem

/-- Both threads look before either changes the table. -/
def together : List ManagerEvent :=
  [.check (.remove [1]), .check (.remove [2]), .change (.remove [1]) 5 7, .change (.remove [2]) 5 7]

/-- Each removal was allowed because of the account the other one removed. -/
theorem both_managers_removed : ∃ final,
    start.hasManager = true ∧ Run (Computes (ManagerWorld.step 4)) start together final ∧
      final.hasManager = false := by
  have hfinal : ((together.foldlM (ManagerWorld.step 4) start).map fun w => w.hasManager) =
      some false := by decide +kernel
  obtain ⟨final, hrun, hlost⟩ := map_eq_some_iff.1 hfinal
  exact ⟨final, by decide +kernel, run_of_foldlM hrun, hlost⟩

end TwoManagers

end Macha
