import Macha.Library.Run
import Macha.Library.Collect
import Macha.Library.OrdMap
import Macha.Library.SyncFrontier

/-!
# Waiting for a barrier

Mutations of a durability domain register under increasing generations. A thread that
awaits a generation asks for it and waits until it is durable or a barrier has failed;
the loop of the domain cuts at the generation registered last and runs the barrier
outside the lock. Urgency and batch deadlines only say how long the loop waits before
it cuts, which may be any time here.
-/

namespace Macha

structure DurabilityDomain where
  frontier : SyncFrontier := {}
  requested : Nat := 0
  failed : Bool := false
  /-- The generation a thread in `flush` has read. -/
  flushing : OrdMap Nat Nat := ∅
  /-- The generation a thread in `await_durable` waits for. -/
  waiting : OrdMap Nat Nat := ∅
  /-- The clock at which each generation registered. -/
  registered : OrdMap Nat Nat := ∅
  /-- The generations of the calls of `await_durable` that returned normally. -/
  returned : List Nat := []
deriving DecidableEq

inductive DomainEvent
  | completeMutation
  | awaitDurable (thread generation : Nat)
  | wake (thread : Nat)
  | flush (thread : Nat)
  | flushAwait (thread : Nat)
  | cut
  | barrier (succeeded : Bool)

namespace DurabilityDomain

variable (d : DurabilityDomain)

def completeMutation : DurabilityDomain :=
  { d with
    frontier := d.frontier.advance.register
    registered := d.registered.insert (d.frontier.mutation + 1) d.frontier.clock }

/-- `await_durable` up to its wait; where it throws nothing changes. -/
def awaitDurable (thread generation : Nat) : DurabilityDomain :=
  if generation = 0 then { d with returned := generation :: d.returned }
  else if d.frontier.mutation < generation ∨ d.failed = true then d
  else if generation ≤ d.frontier.durable then { d with returned := generation :: d.returned }
  else
    { d with
      requested := max d.requested generation
      waiting := d.waiting.insert thread generation }

/-- The end of the wait; a failure is thrown even if the generation is durable. -/
def wake (thread : Nat) : Option DurabilityDomain := do
  let generation ← d.waiting[thread]?
  guard (generation ≤ d.frontier.durable ∨ d.failed = true)
  let woken := { d with waiting := d.waiting.erase thread }
  some (if d.failed then woken else { woken with returned := generation :: d.returned })

/-- The section of the loop that begins a barrier, unless nothing is left to sync. -/
def cut : DurabilityDomain :=
  if d.frontier.mutation ≤ d.frontier.durable then
    { d with requested := max d.requested d.frontier.durable }
  else { d with frontier := d.frontier.start }

def barrier (succeeded : Bool) : DurabilityDomain :=
  if succeeded then
    { d with
      frontier := d.frontier.complete
      requested := max d.requested d.frontier.complete.durable }
  else { d with frontier := d.frontier.abandon, failed := true }

def step : DomainEvent → Option DurabilityDomain
  | .completeMutation => do
    guard (d.failed = false)
    some d.completeMutation
  | .awaitDurable thread generation => do
    guard (d.waiting[thread]? = none ∧ d.flushing[thread]? = none)
    some (d.awaitDurable thread generation)
  | .wake thread => d.wake thread
  | .flush thread => do
    guard (d.waiting[thread]? = none)
    some { d with flushing := d.flushing.insert thread d.frontier.mutation }
  | .flushAwait thread => do
    let generation ← d.flushing[thread]?
    some ({ d with flushing := d.flushing.erase thread }.awaitDurable thread generation)
  | .cut => do
    guard (d.failed = false ∧ d.frontier.barrier = none ∧ d.frontier.durable < d.requested)
    some d.cut
  | .barrier succeeded => do
    guard (d.frontier.barrier ≠ none)
    some (d.barrier succeeded)

end DurabilityDomain

abbrev DomainStep : DurabilityDomain → DomainEvent → DurabilityDomain → Prop :=
  Computes DurabilityDomain.step

/-- The mutation of the generation registered, and a successful barrier began after that. -/
def DurabilityDomain.Synced (d : DurabilityDomain) (generation : Nat) : Prop :=
  ∃ stamp, d.registered[generation]? = some stamp ∧ stamp < d.frontier.synced

/-- What holds of every step. A call that returns adds its generation to `returned`. -/
structure AwaitsSynced (d next : DurabilityDomain) : Prop where
  durable : d.frontier.durable ≤ next.frontier.durable
  failed : d.failed = true → next.failed = true
  returns : next.returned = d.returned ∨ ∃ generation, next.returned = generation :: d.returned ∧
    (generation ≠ 0 → d.failed = false ∧ d.Synced generation)

namespace DurabilityDomain

variable {d next : DurabilityDomain}

/-- Every generation registered is covered by the frontier. -/
structure Sound (d : DurabilityDomain) : Prop where
  frontier : d.frontier.Sound
  registered : ∀ generation, 0 < generation → generation ≤ d.frontier.mutation →
    ∃ stamp, d.registered[generation]? = some stamp ∧ d.frontier.Covers generation stamp

theorem Sound.synced (inv : d.Sound) {generation : Nat} (hne : generation ≠ 0)
    (hdurable : generation ≤ d.frontier.durable) : d.Synced generation := by
  obtain ⟨stamp, hstamp, hcovers⟩ := inv.registered generation (Nat.pos_of_ne_zero hne)
    (Nat.le_trans hdurable inv.frontier.durable)
  exact ⟨stamp, hstamp, hcovers.durable hdurable⟩

theorem Sound.later (inv : d.Sound) (hfrontier : next.frontier.Sound)
    (hmutation : next.frontier.mutation = d.frontier.mutation)
    (hregistered : next.registered = d.registered) (hlater : d.frontier.Later next.frontier) :
    next.Sound := by
  refine ⟨hfrontier, fun generation hpos hle => ?_⟩
  rw [hmutation] at hle
  obtain ⟨stamp, hstamp, hcovers⟩ := inv.registered generation hpos hle
  exact ⟨stamp, hregistered ▸ hstamp, hlater.covers generation stamp hcovers⟩

theorem Sound.completeMutation (inv : d.Sound) : d.completeMutation.Sound := by
  refine ⟨inv.frontier.advance.register, fun generation hpos hle => ?_⟩
  show ∃ stamp, (d.registered.insert _ _)[generation]? = some stamp ∧ _
  by_cases hlast : d.frontier.mutation + 1 = generation
  · subst hlast
    exact ⟨_, OrdMap.getElem?_insert_self _ _ _,
      inv.frontier.advance.covers_register (Nat.lt_succ_self _)⟩
  · have hle : generation ≤ d.frontier.mutation + 1 := hle
    obtain ⟨stamp, hstamp, hcovers⟩ := inv.registered generation hpos (by omega)
    rw [OrdMap.getElem?_insert_of_ne _ _ hlast]
    exact ⟨stamp, hstamp, ((d.frontier.later_advance).trans
      (d.frontier.advance.later_register)).covers generation stamp hcovers⟩

theorem Sound.awaitDurable (inv : d.Sound) (thread generation : Nat) :
    (d.awaitDurable thread generation).Sound ∧
      AwaitsSynced d (d.awaitDurable thread generation) := by
  unfold DurabilityDomain.awaitDurable
  split
  · next hzero => exact ⟨⟨inv.frontier, inv.registered⟩,
      ⟨Nat.le_refl _, id, .inr ⟨generation, rfl, fun hne => absurd hzero hne⟩⟩⟩
  · next hne =>
    split
    · exact ⟨inv, Nat.le_refl _, id, .inl rfl⟩
    · next hlive =>
      split
      · next hdurable => exact ⟨⟨inv.frontier, inv.registered⟩, Nat.le_refl _, id,
          .inr ⟨generation, rfl, fun _ => ⟨by simp_all, inv.synced hne hdurable⟩⟩⟩
      · exact ⟨⟨inv.frontier, inv.registered⟩, Nat.le_refl _, id, .inl rfl⟩

theorem le_durable_complete (f : SyncFrontier) : f.durable ≤ f.complete.durable := by
  unfold SyncFrontier.complete
  split
  · exact Nat.le_max_left _ _
  · exact Nat.le_refl _

theorem mutation_complete (f : SyncFrontier) : f.complete.mutation = f.mutation := by
  unfold SyncFrontier.complete
  split <;> rfl

theorem Sound.step (inv : d.Sound) {event : DomainEvent} (h : DomainStep d event next) :
    next.Sound ∧ AwaitsSynced d next := by
  have hsame : ∀ {flushing : OrdMap Nat Nat},
      ({ d with flushing } : DurabilityDomain).Sound := ⟨inv.frontier, inv.registered⟩
  cases event with
  | completeMutation =>
    obtain ⟨-, h⟩ := guard_bind_eq_some h
    cases h
    exact ⟨inv.completeMutation, Nat.le_refl _, id, .inl rfl⟩
  | awaitDurable thread generation =>
    obtain ⟨-, h⟩ := guard_bind_eq_some h
    cases h
    exact inv.awaitDurable thread generation
  | wake thread =>
    obtain ⟨generation, -, h⟩ := Option.bind_eq_some_iff.1 h
    obtain ⟨hwoken, h⟩ := guard_bind_eq_some h
    cases h
    split
    · exact ⟨⟨inv.frontier, inv.registered⟩, Nat.le_refl _, id, .inl rfl⟩
    · next hlive =>
      refine ⟨⟨inv.frontier, inv.registered⟩, Nat.le_refl _, id, .inr ⟨generation, rfl, ?_⟩⟩
      exact fun hne => ⟨Bool.not_eq_true _ ▸ hlive, inv.synced hne (hwoken.resolve_right hlive)⟩
  | flush thread =>
    obtain ⟨-, h⟩ := guard_bind_eq_some h
    cases h
    exact ⟨hsame, Nat.le_refl _, id, .inl rfl⟩
  | flushAwait thread =>
    obtain ⟨generation, -, h⟩ := Option.bind_eq_some_iff.1 h
    cases h
    obtain ⟨hsound, hawaits⟩ := hsame.awaitDurable thread generation
    exact ⟨hsound, hawaits.durable, hawaits.failed, hawaits.returns⟩
  | cut =>
    obtain ⟨-, h⟩ := guard_bind_eq_some h
    cases h
    unfold cut
    split
    · exact ⟨⟨inv.frontier, inv.registered⟩, Nat.le_refl _, id, .inl rfl⟩
    · exact ⟨inv.later inv.frontier.start rfl rfl d.frontier.later_start, Nat.le_refl _, id,
        .inl rfl⟩
  | barrier succeeded =>
    obtain ⟨-, h⟩ := guard_bind_eq_some h
    cases h
    cases succeeded with
    | true => exact ⟨inv.later inv.frontier.complete (mutation_complete _) rfl
        d.frontier.later_complete, le_durable_complete _, id, .inl rfl⟩
    | false => exact ⟨inv.later inv.frontier.abandon rfl rfl d.frontier.later_abandon,
        Nat.le_refl _, fun _ => rfl, .inl rfl⟩

theorem sound_start : Sound {} := ⟨⟨Nat.le_refl _, nofun⟩, fun _ hpos hle => by simp at hle; omega⟩

end DurabilityDomain

/-- Along every run `await_durable` returns normally only after a successful barrier that
began when the mutation had registered, and never once a barrier has failed. -/
theorem awaited_means_synced {trace : List (Transition DurabilityDomain DomainEvent)}
    {last : DurabilityDomain} (run : Run (Traced DomainStep) {} trace last) :
    ∀ t ∈ trace, AwaitsSynced t.before t.after := by
  intro t ht
  have inv : t.before.Sound := run.forall_before (K := fun _ => True) (fun _ _ _ => trivial)
    DurabilityDomain.sound_start (fun _ _ _ hstep inv _ => (inv.step hstep).1) t ht
  exact (inv.step (run.forall_step t ht)).2

namespace DurabilityDomain

/-- Two threads await the mutation; one barrier serves both, and the next one fails. -/
def shared : List DomainEvent :=
  [.completeMutation, .awaitDurable 1 1, .flush 2, .cut, .completeMutation, .flushAwait 2,
    .barrier true, .wake 1, .wake 2, .awaitDurable 1 2, .cut, .barrier false, .wake 1,
    .awaitDurable 2 1]

theorem shared_awaited : ∃ trace last, Run (Traced DomainStep) {} trace last ∧
    trace.map (·.event) = shared ∧ last.returned = [1, 1] ∧ last.failed = true ∧
      ∀ t ∈ trace, AwaitsSynced t.before t.after := by
  have hruns : ((shared.foldlM step {}).any fun last =>
      decide (last.returned = [1, 1] ∧ last.failed = true)) = true := by decide +kernel
  obtain ⟨last, hlast, hdecide⟩ := (Option.any_eq_true _ _).1 hruns
  obtain ⟨trace, run, hevents⟩ := exists_run hlast
  obtain ⟨hreturned, hfailed⟩ := of_decide_eq_true hdecide
  exact ⟨trace, last, run, hevents, hreturned, hfailed, awaited_means_synced run⟩

end DurabilityDomain

end Macha
