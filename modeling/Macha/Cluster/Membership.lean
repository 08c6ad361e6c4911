import Macha.Library.Collect
import Macha.Library.Run
import Macha.Metadata.Snapshot

/-!
# Membership and identity resets

A node keeps a roster of the nodes it has heard of, by gossip or directly, and the resets of
endpoints whose identity was retired. Resets are kept one for each endpoint; a later epoch
replaces the stored one. The roster and the resets are written to a file, from which a
restarted node loads them.

Sizes are within the limits of the file, and its bytes are left out: a file is the records
it holds.
-/

namespace Macha

open OrdMap

structure RosterRecord where
  info : NodeInfo
  lastSeenUnixMs : Nat
  persistedSeenUnixMs : Nat
deriving DecidableEq

/-- `identity_reset_key`; equal keys have equal hosts and ports. -/
def identityResetKey (host : ByteString) (port : Nat) : ByteString :=
  bytes "[" ++ host ++ bytes "]:" ++ if port = 0 then bytes "*" else bytes (toString port)

namespace IdentityAssociationReset

def key (reset : IdentityAssociationReset) : ByteString :=
  identityResetKey reset.host reset.port

def matchesEndpoint (reset : IdentityAssociationReset) (host : ByteString) (port : Nat) : Bool :=
  decide (reset.host = host) && (decide (reset.port = 0) || decide (reset.port = port))

def matchesNode (reset : IdentityAssociationReset) (node : NodeId) : Bool :=
  decide (reset.staleNodeId = 0) || decide (reset.staleNodeId = node)

/-- The node is one the reset matches, last seen at or before the reset. -/
def retires (reset : IdentityAssociationReset) (node : NodeInfo) : Bool :=
  reset.matchesEndpoint node.host node.port && reset.matchesNode node.id &&
    decide (node.seenUnixMs ≤ reset.resetUnixMs)

end IdentityAssociationReset

structure MembershipState where
  nodes : OrdMap NodeId RosterRecord := ∅
  identityResets : OrdMap ByteString IdentityAssociationReset := ∅

/-- What the file holds: the nodes with the times they were last heard of, and the resets. -/
structure Roster where
  nodes : List (NodeInfo × Nat)
  identityResets : List IdentityAssociationReset
deriving DecidableEq

def seenPersistStepMs : Nat := 60 * 60 * 1000

namespace MembershipState

def retired (resets : OrdMap ByteString IdentityAssociationReset) (node : NodeInfo) : Bool :=
  resets.toList.any fun item => item.2.retires node

section

variable (self : NodeId) (forgetAfter : Nat)

/-- `observe`, with the wall clock; the flag is `durable_roster_changed`. -/
def observe (m : MembershipState) (n : NodeInfo) (direct : Bool) (wall : Nat) : MembershipState × Bool :=
  if n.host = [] ∨ n.port = 0 ∨ n.id = self then (m, false)
  else if direct = false ∧ retired m.identityResets n = true then (m, false)
  else match m.nodes[n.id]? with
    | none =>
      if direct = false ∧ n.seenUnixMs ≤ wall ∧ forgetAfter ≤ wall - n.seenUnixMs then (m, false)
      else ({ m with nodes := m.nodes.insert n.id ⟨n, wall, 0⟩ }, true)
    | some record =>
      let newer := decide (record.info.seenUnixMs < n.seenUnixMs)
      let associationChanged := decide (record.info.host ≠ n.host ∨ record.info.port ≠ n.port ∨
        record.info.failureDomain ≠ n.failureDomain ∨ record.info.flags ≠ n.flags)
      if newer || direct then
        let info := if newer then n else record.info
        ({ m with nodes := m.nodes.insert n.id ⟨info, wall, record.persistedSeenUnixMs⟩ },
          newer && associationChanged ||
            decide (seenPersistStepMs ≤ (wall + 2 ^ 64 - record.persistedSeenUnixMs) % 2 ^ 64))
      else (m, false)

/-- `apply_identity_reset`, unless it returns false. -/
def applyIdentityReset (m : MembershipState) (reset : IdentityAssociationReset) :
    Option MembershipState := do
  guard (reset.host ≠ [] ∧ reset.epoch ≠ 0)
  guard (m.identityResets[reset.key]?.all fun found => decide (found.epoch < reset.epoch))
  some
    { nodes := m.nodes.filter fun _ record =>
        !(reset.matchesEndpoint record.info.host record.info.port &&
          reset.matchesNode record.info.id)
      identityResets := m.identityResets.insert reset.key reset }

/-- `forget_unseen`; `silent` are the nodes not heard from while they are given up for dead. -/
def forgetUnseen (m : MembershipState) (silent : List NodeId) (wall : Nat) : MembershipState :=
  { m with nodes := m.nodes.filter fun id record =>
      !decide (id ∈ silent ∧ record.lastSeenUnixMs ≤ wall ∧
        forgetAfter ≤ wall - record.lastSeenUnixMs) }

/-- The state after `encode_known_locked`. -/
def encoded (m : MembershipState) : MembershipState :=
  { m with nodes := m.nodes.map fun _ r => { r with persistedSeenUnixMs := r.lastSeenUnixMs } }

/-- A node as the file has it, without its capacity and use. -/
def written (node : NodeInfo) : NodeInfo := { node with capacity := 0, used := 0 }

/-- What `encode_known_locked` writes, in the order of ids and of keys. -/
def encodeKnown (m : MembershipState) : Roster where
  nodes := m.nodes.toList.map fun item => (written item.2.info, item.2.lastSeenUnixMs)
  identityResets := m.identityResets.toList.map Prod.snd

/-- An entry the loader takes; a text is read up to 4096 bytes. -/
def loadsNode (node : NodeInfo) : Bool :=
  decide (node.host.length ≤ 4096 ∧ node.failureDomain.length ≤ 4096 ∧ node.id ≠ 0 ∧
    node.id ≠ self ∧ node.host ≠ [] ∧ node.port ≠ 0)

def loadsReset (reset : IdentityAssociationReset) : Bool :=
  decide (reset.host.length ≤ 4096 ∧ reset.reason.length ≤ 4096 ∧ reset.host ≠ [] ∧ reset.epoch ≠ 0)

/-- `load_known`, unless it throws, at an entry it does not take or at one whose id or key has
come before. -/
def loadKnown (roster : Roster) : Option MembershipState := do
  guard ((roster.nodes.all fun entry => loadsNode self entry.1) = true ∧ (roster.nodes.map (·.1.id)).Nodup)
  guard (roster.identityResets.all loadsReset = true ∧ (roster.identityResets.map (·.key)).Nodup)
  let nodes : OrdMap NodeId RosterRecord :=
    roster.nodes.foldl (fun all entry => all.insert entry.1.id ⟨entry.1, entry.2, entry.2⟩) ∅
  let resets : OrdMap ByteString IdentityAssociationReset :=
    roster.identityResets.foldl (fun all reset => all.insert reset.key reset) ∅
  some
    { nodes := nodes.filter fun _ record => !retired resets record.info
      identityResets := resets }

end

end MembershipState

/-! ## A node with its file -/

/-- A call encodes the roster under one lock, with the next sequence number, and writes it
under another. -/
structure MembershipWorld where
  memory : MembershipState := {}
  rosterSequence : Nat := 0
  writtenSequence : Nat := 0
  /-- Encoded and not yet written, by calls that have not returned. -/
  pending : OrdMap Nat Roster := ∅
  file : Option Roster := none
  /-- What was encoded last. -/
  recorded : Option MembershipState := none
  /-- The resets that were applied, in every life of the node. -/
  applied : List IdentityAssociationReset := []

inductive MembershipEvent where
  | observe (node : NodeInfo) (direct : Bool) (wall : Nat)
  | applyIdentityReset (reset : IdentityAssociationReset)
  | forgetUnseen (silent : List NodeId) (wall : Nat)
  /-- `write_known` of a call. -/
  | writeKnown (sequence : Nat)
  /-- A new process loads the file, all calls having returned. -/
  | restart

namespace MembershipWorld

open MembershipState

section

variable (self : NodeId) (forgetAfter : Nat)

/-- The locked part of a call, with the roster if it has to be written. -/
def settle (w : MembershipWorld) (memory : MembershipState) (write : Bool) : MembershipWorld :=
  if write then
    { w with
      memory := memory.encoded
      rosterSequence := w.rosterSequence + 1
      pending := w.pending.insert (w.rosterSequence + 1) memory.encodeKnown
      recorded := some memory }
  else { w with memory := memory }

def step (w : MembershipWorld) : MembershipEvent → Option MembershipWorld
  | .observe node direct wall =>
    let observed := w.memory.observe self forgetAfter node direct wall
    some (w.settle observed.1 observed.2)
  | .applyIdentityReset reset => do
    let memory ← w.memory.applyIdentityReset reset
    some (settle { w with applied := reset :: w.applied } memory true)
  | .forgetUnseen silent wall =>
    let memory := w.memory.forgetUnseen forgetAfter silent wall
    some (w.settle memory (decide (memory.nodes.size ≠ w.memory.nodes.size)))
  | .writeKnown sequence => do
    let roster ← w.pending[sequence]?
    let w := { w with pending := w.pending.erase sequence }
    some (if sequence ≤ w.writtenSequence then w
      else { w with file := some roster, writtenSequence := sequence })
  | .restart => do
    guard (w.pending = ∅)
    let memory ← w.file.elim (some {}) (loadKnown self)
    some { w with memory := memory, rosterSequence := 0, writtenSequence := 0 }

end

/-- The write with the last sequence number is pending, or its roster is in the file; the
resets in memory are those encoded last. -/
structure Filed (w : MembershipWorld) : Prop where
  bounded : ∀ (sequence : Nat) (roster : Roster), w.pending[sequence]? = some roster →
    sequence ≤ w.rosterSequence
  last : match w.pending[w.rosterSequence]? with
    | some roster => w.writtenSequence < w.rosterSequence ∧
        w.recorded.map encodeKnown = some roster
    | none => w.writtenSequence = w.rosterSequence ∧ w.file = w.recorded.map encodeKnown
  resets : w.recorded.elim ∅ (·.identityResets) = w.memory.identityResets
  keyed : ∀ (k : ByteString) (stored : IdentityAssociationReset),
    w.memory.identityResets[k]? = some stored → stored.key = k

section

variable {self : NodeId} {forgetAfter : Nat} {w v : MembershipWorld} {m : MembershipState}

theorem Filed.file_eq (h : w.Filed) (hidle : w.pending = ∅) :
    w.file = w.recorded.map encodeKnown := by
  have hlast := h.last
  rw [hidle, Std.ExtTreeMap.getElem?_empty] at hlast
  exact hlast.2

theorem filed_settle {write : Bool} (h : w.Filed)
    (hresets : write = false → m.identityResets = w.memory.identityResets)
    (hkeyed : ∀ k (stored : IdentityAssociationReset),
      m.identityResets[k]? = some stored → stored.key = k) : (w.settle m write).Filed := by
  unfold settle
  split
  · refine ⟨fun sequence roster hpending => ?_, ?_, rfl, hkeyed⟩
    · dsimp only at hpending ⊢
      rw [OrdMap.getElem?_insert] at hpending
      split at hpending
      · omega
      · exact Nat.le_succ_of_le (h.bounded sequence roster hpending)
    · dsimp only
      rw [getElem?_insert_self]
      refine ⟨?_, rfl⟩
      have hlast := h.last
      split at hlast <;> omega
  · next hwrite =>
    rw [Bool.not_eq_true] at hwrite
    exact ⟨h.bounded, h.last, h.resets.trans (hresets hwrite).symm, hkeyed⟩

theorem observe_resets (n : NodeInfo) (direct : Bool) (wall : Nat) :
    (m.observe self forgetAfter n direct wall).1.identityResets = m.identityResets := by
  unfold observe
  split
  · rfl
  split
  · rfl
  split
  · split <;> rfl
  · dsimp only
    split <;> rfl

theorem resets_of_loadKnown {resets : OrdMap ByteString IdentityAssociationReset}
    {roster : Roster} (hkeyed : ∀ k (stored : IdentityAssociationReset),
      resets[k]? = some stored → stored.key = k)
    (hroster : roster.identityResets = resets.toList.map Prod.snd)
    (h : loadKnown self roster = some m) : m.identityResets = resets := by
  obtain ⟨-, h⟩ := guard_bind_eq_some h
  obtain ⟨-, h⟩ := guard_bind_eq_some h
  cases h
  rw [hroster]
  exact foldl_insert_items (g := id)
    (fun x hx => hkeyed x.1 x.2 ((OrdMap.mem_toList _ _ _).1 hx)) (fun _ => rfl) (by simp)

theorem restart_eq (h : w.Filed) (hstep : step self forgetAfter w .restart = some v) :
    w.pending = ∅ ∧ v.memory.identityResets = w.memory.identityResets ∧
      v = { w with memory := v.memory, rosterSequence := 0, writtenSequence := 0 } ∧
      (w.recorded = none ∧ v.memory = {} ∨
        ∃ m, w.recorded = some m ∧ loadKnown self m.encodeKnown = some v.memory) := by
  obtain ⟨hidle, hstep⟩ := guard_bind_eq_some hstep
  obtain ⟨memory, hmemory, hstep⟩ := Option.bind_eq_some_iff.1 hstep
  cases hstep
  have hfile := h.file_eq hidle
  have hresets := h.resets
  cases hrecorded : w.recorded with
  | none =>
    rw [hrecorded] at hfile hresets
    rw [hfile] at hmemory
    cases hmemory
    exact ⟨hidle, hresets, rfl, .inl ⟨rfl, rfl⟩⟩
  | some m =>
    rw [hrecorded] at hfile hresets
    rw [hfile] at hmemory
    have hkeyed := h.keyed
    rw [← hresets] at hkeyed ⊢
    exact ⟨hidle, resets_of_loadKnown hkeyed rfl hmemory, rfl, .inr ⟨m, rfl, hmemory⟩⟩

theorem filed_step {event : MembershipEvent} (h : w.Filed)
    (hstep : Computes (step self forgetAfter) w event v) : v.Filed := by
  cases event with
  | observe node direct wall =>
    cases hstep
    have hresets := @observe_resets self forgetAfter w.memory node direct wall
    exact filed_settle h (fun _ => hresets) (hresets ▸ h.keyed)
  | applyIdentityReset reset =>
    obtain ⟨m, hm, hstep⟩ := Option.bind_eq_some_iff.1 hstep
    obtain ⟨-, hm⟩ := guard_bind_eq_some hm
    obtain ⟨-, hm⟩ := guard_bind_eq_some hm
    cases hm
    cases hstep
    have hw : MembershipWorld.Filed { w with applied := reset :: w.applied } :=
      ⟨h.bounded, h.last, h.resets, h.keyed⟩
    refine filed_settle hw nofun fun k stored hstored => ?_
    rcases getElem?_insert_eq_some hstored with ⟨hkey, hsame⟩ | ⟨-, hstored⟩
    · rw [← hsame, hkey]
    · exact h.keyed k stored hstored
  | forgetUnseen silent wall =>
    cases hstep
    exact filed_settle h (fun _ => rfl) h.keyed
  | writeKnown sequence =>
    obtain ⟨roster, hroster, hstep⟩ := Option.bind_eq_some_iff.1 hstep
    have hbound := h.bounded sequence roster hroster
    have hlast := h.last
    have hpending k (r : Roster) (hk : (w.pending.erase sequence)[k]? = some r) :
        k ≤ w.rosterSequence := h.bounded k r (getElem?_erase_eq_some hk).2
    cases hstep
    by_cases hq : sequence = w.rosterSequence
    · subst hq
      rw [hroster] at hlast
      rw [if_neg (Nat.not_le_of_lt hlast.1)]
      refine ⟨hpending, ?_, h.resets, h.keyed⟩
      rw [getElem?_erase, if_pos rfl]
      exact ⟨rfl, hlast.2.symm⟩
    · have hother := getElem?_erase_of_ne w.pending hq
      split
      · refine ⟨hpending, ?_, h.resets, h.keyed⟩
        rw [hother]
        exact hlast
      · next hnew =>
        refine ⟨hpending, ?_, h.resets, h.keyed⟩
        dsimp only at hnew ⊢
        rw [hother]
        cases htop : w.pending[w.rosterSequence]? with
        | none =>
          rw [htop] at hlast
          omega
        | some top =>
          rw [htop] at hlast
          exact ⟨Nat.lt_of_le_of_ne hbound hq, hlast.2⟩
  | restart =>
    obtain ⟨hidle, hresets, hv, -⟩ := restart_eq h hstep
    rw [hv]
    refine ⟨by simp [hidle], ?_, h.resets.trans hresets.symm, hresets ▸ h.keyed⟩
    rw [hidle, Std.ExtTreeMap.getElem?_empty]
    exact ⟨rfl, h.file_eq hidle⟩

theorem filed_start : Filed {} := ⟨by simp, by simp, rfl, by simp⟩

end

/-! ## Resets that stand -/

/-- Gossip about a node that an applied reset retires changes nothing in the roster. -/
def RefusesRetired (t : Transition MembershipWorld MembershipEvent) : Prop :=
  ∀ node wall, t.event = .observe node false wall →
    (∃ reset ∈ t.before.applied, reset.retires node = true) →
      t.after.memory.nodes = t.before.memory.nodes

def covers (old new : IdentityAssociationReset) : Bool :=
  decide (new.host = old.host ∧ new.port = old.port ∧ old.resetUnixMs ≤ new.resetUnixMs ∧
    (new.staleNodeId = 0 ∨ new.staleNodeId = old.staleNodeId))

def ReplacesCovered (t : Transition MembershipWorld MembershipEvent) : Prop :=
  match t.event with
  | .applyIdentityReset reset =>
    (t.before.memory.identityResets[reset.key]?.all fun old => covers old reset) = true
  | _ => True

instance : DecidablePred ReplacesCovered := fun t => by
  unfold ReplacesCovered
  split <;> infer_instance

/-- Every applied reset is covered by the one stored for its endpoint. -/
def Standing (w : MembershipWorld) : Prop :=
  ∀ reset ∈ w.applied, ∃ stored,
    w.memory.identityResets[reset.key]? = some stored ∧ covers reset stored = true

section

variable {self : NodeId} {forgetAfter : Nat} {w v : MembershipWorld}

theorem covers_refl (reset : IdentityAssociationReset) : covers reset reset = true := by
  simp [covers]

theorem covers_trans {a b c : IdentityAssociationReset} (hab : covers a b = true)
    (hbc : covers b c = true) : covers a c = true := by
  simp only [covers, decide_eq_true_eq] at hab hbc ⊢
  obtain ⟨hhost, hport, htime, hnode⟩ := hab
  obtain ⟨hhost', hport', htime', hnode'⟩ := hbc
  refine ⟨hhost'.trans hhost, hport'.trans hport, htime.trans htime', ?_⟩
  rcases hnode' with hzero | hsame
  · exact .inl hzero
  · rwa [hsame]

theorem retires_of_covers {a b : IdentityAssociationReset} {node : NodeInfo}
    (h : covers a b = true) (hretires : a.retires node = true) : b.retires node = true := by
  simp only [covers, decide_eq_true_eq] at h
  simp only [IdentityAssociationReset.retires, IdentityAssociationReset.matchesEndpoint,
    IdentityAssociationReset.matchesNode, Bool.and_eq_true, Bool.or_eq_true,
    decide_eq_true_eq] at hretires ⊢
  obtain ⟨hhost, hport, htime, hnode⟩ := h
  obtain ⟨⟨⟨hendpoint, hat⟩, hstale⟩, hseen⟩ := hretires
  refine ⟨⟨⟨hhost.trans hendpoint, hport ▸ hat⟩, ?_⟩, hseen.trans htime⟩
  rcases hnode with hzero | hsame
  · exact .inl hzero
  · rwa [hsame]

theorem settle_kept {m : MembershipState} {write : Bool} : (w.settle m write).applied = w.applied ∧
      (w.settle m write).memory.identityResets = m.identityResets := by
  unfold settle
  split <;> exact ⟨rfl, rfl⟩

theorem standing_step {event : MembershipEvent} (hfiled : w.Filed) (h : w.Standing)
    (hstep : Computes (step self forgetAfter) w event v)
    (hcovered : ReplacesCovered ⟨w, event, v⟩) : v.Standing := by
  cases event with
  | observe node direct wall =>
    cases hstep
    unfold Standing
    rw [settle_kept.1, settle_kept.2, observe_resets]
    exact h
  | applyIdentityReset reset =>
    obtain ⟨m, hm, hstep⟩ := Option.bind_eq_some_iff.1 hstep
    obtain ⟨-, hm⟩ := guard_bind_eq_some hm
    obtain ⟨-, hm⟩ := guard_bind_eq_some hm
    cases hm
    cases hstep
    unfold Standing
    rw [settle_kept.1, settle_kept.2]
    intro old hold
    rcases List.mem_cons.1 hold with rfl | hold
    · exact ⟨old, getElem?_insert_self _ _ _, covers_refl old⟩
    · obtain ⟨stored, hstored, hcovers⟩ := h old hold
      by_cases hkey : reset.key = old.key
      · have hnext : covers stored reset = true := by
          simpa [ReplacesCovered, hkey, hstored] using hcovered
        exact ⟨reset, by rw [hkey, getElem?_insert_self], covers_trans hcovers hnext⟩
      · exact ⟨stored, by rw [getElem?_insert_of_ne _ _ hkey, hstored], hcovers⟩
  | forgetUnseen silent wall =>
    cases hstep
    unfold Standing
    rw [settle_kept.1, settle_kept.2]
    exact h
  | writeKnown sequence =>
    obtain ⟨roster, -, hstep⟩ := Option.bind_eq_some_iff.1 hstep
    cases hstep
    split <;> exact h
  | restart =>
    obtain ⟨-, hresets, hv, -⟩ := restart_eq hfiled hstep
    unfold Standing
    rw [hresets, hv]
    exact h

/-- An identity reset stands, along every run of a node from its start in which a reset that
replaces a stored one covers it. -/
theorem reset_stands {trace : List (Transition MembershipWorld MembershipEvent)}
    {last : MembershipWorld} (run : Run (Traced (Computes (step self forgetAfter))) {} trace last)
    (hcovered : Always (fun _ t => ReplacesCovered t) trace) : ∀ t ∈ trace, RefusesRetired t := by
  have hstanding := run.forall_before (P := fun w => w.Filed ∧ w.Standing) hcovered
    ⟨filed_start, by simp [Standing]⟩ fun _ _ _ hstep h hcovered =>
      ⟨filed_step h.1 hstep, standing_step h.1 h.2 hstep hcovered⟩
  intro t ht node wall hevent ⟨reset, hreset, hretires⟩
  obtain ⟨stored, hstored, hcovers⟩ := (hstanding t ht).2 reset hreset
  have hretired : retired t.before.memory.identityResets node = true :=
    List.any_eq_true.2 ⟨(reset.key, stored), (OrdMap.mem_toList _ _ _).2 hstored,
      retires_of_covers hcovers hretires⟩
  have hobserve : observe self forgetAfter t.before.memory node false wall =
      (t.before.memory, false) := by
    unfold observe
    rw [if_pos (⟨rfl, hretired⟩ : false = false ∧ _), ite_self]
  have hstep := run.forall_step t ht
  rw [hevent] at hstep
  simp only [Computes, step, hobserve, settle] at hstep
  rw [← Option.some_inj.1 hstep]
  rfl

end

/-! ## A reset replaced by one of another node -/

namespace TwoResets

def endpoint : IdentityAssociationReset :=
  { host := bytes "nas", port := 1, staleNodeId := 7, epoch := 1, resetUnixMs := 100 }

def gossip : NodeInfo :=
  { id := 7, host := bytes "nas", port := 1, seenUnixMs := 50 }

def events : List MembershipEvent :=
  [.applyIdentityReset endpoint, .writeKnown 1,
    .applyIdentityReset { endpoint with staleNodeId := 8, epoch := 2, resetUnixMs := 200 },
    .writeKnown 2, .observe gossip false 300]

/-- Gossip from before the first reset about the node it retired adds the node. -/
theorem retired_node_returns : ∃ trace last, Run (Traced (Computes (step 1 1000))) {} trace last ∧
      trace.map (·.event) = events ∧ endpoint ∈ last.applied ∧ endpoint.retires gossip = true ∧
      (last.memory.nodes[(7 : NodeId)]?).isSome = true := by
  have hruns : ((events.foldlM (step 1 1000) {}).any fun last =>
      decide (endpoint ∈ last.applied ∧ (last.memory.nodes[(7 : NodeId)]?).isSome = true)) =
        true := by decide +kernel
  obtain ⟨last, hlast, hdecide⟩ := (Option.any_eq_true _ _).1 hruns
  obtain ⟨trace, run, hevents⟩ := exists_run hlast
  obtain ⟨happlied, hnode⟩ := of_decide_eq_true hdecide
  exact ⟨trace, last, run, hevents, happlied, by decide, hnode⟩

/-- The whole endpoint reset by the later epoch, a restart, and the same gossip. -/
def widened : List MembershipEvent :=
  [.applyIdentityReset endpoint,
    .applyIdentityReset { endpoint with staleNodeId := 0, epoch := 2, resetUnixMs := 200 },
    .writeKnown 2, .writeKnown 1, .restart, .observe gossip false 300]

theorem retired_node_kept_out : ∃ trace last, Run (Traced (Computes (step 1 1000))) {} trace last ∧
      trace.map (·.event) = widened ∧ ∀ t ∈ trace, RefusesRetired t := by
  have hruns : (widened.foldlM (checkedStep (step 1 1000) ReplacesCovered) {}).isSome = true := by
    decide +kernel
  obtain ⟨last, hlast⟩ := Option.isSome_iff_exists.1 hruns
  obtain ⟨trace, run, halways, hevents⟩ := exists_checked_run hlast
  exact ⟨trace, last, run, hevents, reset_stands run halways⟩

end TwoResets

end MembershipWorld

end Macha
