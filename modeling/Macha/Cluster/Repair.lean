import Macha.Library.Replicas
import Macha.Library.Run
import Macha.Metadata.Types

/-!
# The push phase of repair

`repair_step` walks the objects a node holds and pushes each towards the nodes
ranked first for it. A copy is dropped once as many nodes as replication wants
are known to keep the object and this node is not among them. What a node knows
of the others was true when it was asked; they may have dropped their copies
since, for the same reason.
-/

namespace Macha

open List

/-! ## Planning one object -/

/-- Whether an extent fits the node's advertised free space. -/
def hasRoom (extentSize : Nat) (self : NodeId) (peer : NodeInfo) : Bool :=
  peer.id == self || peer.capacity == 0 || decide (peer.used + extentSize ≤ peer.capacity)

/-- What planning an object reads besides the ranking: what is known of the
peers, the local store, and what the budgets and the resources admit. -/
structure PushReads where
  self : NodeId
  extentSize : Nat := 0
  presence : NodeId → Option Bool
  hasLocal : Bool
  readable : Bool
  sourceAdmitted : Bool := true
  localAdmitted : Bool := true
  localPut : Bool := true
  admitted : NodeId → Bool := fun _ => true

/-- Presence here is looked up, elsewhere as last answered. -/
def PushReads.presentAt (reads : PushReads) (peer : NodeId) : Option Bool :=
  if peer = reads.self then some reads.hasLocal else reads.presence peer

/-- What has been gathered for an object: nodes that keep it, peers it is to be
sent to, whether a peer could not say, and whether the copy here was read. -/
structure Visit where
  keepers : Finset NodeId := ∅
  sends : List NodeId := []
  undecided : Bool := false
  source : Bool := false

inductive VisitResult where
  /-- A budget or a resource is used up. -/
  | stopped
  /-- The copy here could not be read. -/
  | unreadable (visit : Visit)
  | visited (visit : Visit)

/-- The loop over the ranked nodes of one object. -/
def visitPeers (reads : PushReads) (target : Nat) : List NodeInfo → Visit → VisitResult
  | [], v => .visited v
  | peer :: rest, v =>
    if target ≤ v.keepers.card + v.sends.length then .visited v
    else if !hasRoom reads.extentSize reads.self peer then visitPeers reads target rest v
    else
      match reads.presentAt peer.id with
      | none => visitPeers reads target rest { v with undecided := true }
      | some true =>
        visitPeers reads target rest { v with keepers := insert peer.id v.keepers }
      | some false =>
        if !v.source && !reads.sourceAdmitted then .stopped
        else if !v.source && !reads.readable then .unreadable v
        else if peer.id = reads.self then
          if !reads.localAdmitted then .stopped
          else if reads.localPut then
            visitPeers reads target rest
              { v with source := true, keepers := insert peer.id v.keepers }
          else visitPeers reads target rest { v with source := true }
        else if !reads.admitted peer.id then .stopped
        else
          visitPeers reads target rest
            { v with source := true, sends := v.sends ++ [peer.id] }

/-- `sent` are the peers of the object's sends. -/
structure Plan where
  id : ObjectId
  live : Bool := true
  target : Nat := 0
  keepers : Finset NodeId := ∅
  undecided : Bool := false
  sent : List NodeId := []
deriving DecidableEq

inductive PlanResult where
  | stopped
  | planned (plan : Plan) (unreadable : Bool)
deriving DecidableEq

def planObject (reads : PushReads) (replication : Nat) (id : ObjectId) (live : Bool)
    (nodes : List NodeInfo) : PlanResult :=
  if !live then .planned { id := id, live := false } false
  else
    let target := min replication nodes.length
    match visitPeers reads target nodes {} with
    | .stopped => .stopped
    | .unreadable v =>
      .planned { id := id, target := target, keepers := v.keepers, undecided := v.undecided } true
    | .visited v =>
      .planned
        { id := id, target := target, keepers := v.keepers, undecided := v.undecided
          sent := v.sends } false

/-- The local copy goes when the object is kept by enough nodes and this node is
not one of them; `retained` is a claim held here. -/
def dropsLocal (self : NodeId) (retained : Bool) (plan : Plan) : Bool :=
  plan.live && decide (0 < plan.target) && decide (plan.target ≤ plan.keepers.card) &&
    decide (self ∉ plan.keepers) && !retained

/-! ## The cluster -/

structure Ranking where
  nodes : ObjectId → List NodeId
  distinct : ∀ id, (nodes id).Nodup

/-- The push phase of one node: the window, what peers answered, and the batch
in progress with its unanswered sends and failed objects. -/
structure PushState where
  window : List ObjectId := []
  presence : NodeId → ObjectId → Option Bool := fun _ _ => none
  plans : List Plan := []
  sends : List (ObjectId × NodeId) := []
  failed : List ObjectId := []

/-- `everHeld` remembers who held a copy at some moment. -/
structure RepairWorld where
  holds : ObjectId → NodeId → Bool
  everHeld : ObjectId → NodeId → Bool
  push : NodeId → PushState := fun _ => {}

namespace RepairWorld

def initial (holds : ObjectId → NodeId → Bool) : RepairWorld := { holds := holds, everHeld := holds }

def setPush (w : RepairWorld) (n : NodeId) (st : PushState) : RepairWorld :=
  { w with push := Function.update w.push n st }

def store (w : RepairWorld) (id : ObjectId) (n : NodeId) : RepairWorld :=
  { w with
    holds := Function.update w.holds id (Function.update (w.holds id) n true)
    everHeld := Function.update w.everHeld id (Function.update (w.everHeld id) n true) }

def drop (w : RepairWorld) (id : ObjectId) (n : NodeId) : RepairWorld :=
  { w with holds := Function.update w.holds id (Function.update (w.holds id) n false) }

variable (w : RepairWorld) (id : ObjectId) (n : NodeId)

theorem store_holds (i : ObjectId) (k : NodeId) :
    (w.store id n).holds i k = if i = id ∧ k = n then true else w.holds i k := by
  unfold store
  by_cases hi : i = id
  · subst hi
    by_cases hk : k = n <;> simp [hk]
  · simp [hi]

theorem store_everHeld (i : ObjectId) (k : NodeId) :
    (w.store id n).everHeld i k = if i = id ∧ k = n then true else w.everHeld i k := by
  unfold store
  by_cases hi : i = id
  · subst hi
    by_cases hk : k = n <;> simp [hk]
  · simp [hi]

variable {id n} in

theorem holds_store (i : ObjectId) (k : NodeId) (h : w.holds i k = true) :
    (w.store id n).holds i k = true := by
  rw [store_holds]
  split
  · rfl
  · exact h

variable {id n} in

theorem everHeld_store (i : ObjectId) (k : NodeId) (h : w.everHeld i k = true) :
    (w.store id n).everHeld i k = true := by
  rw [store_everHeld]
  split
  · rfl
  · exact h

theorem drop_holds_self : (w.drop id n).holds id = Function.update (w.holds id) n false :=
  Function.update_self _ _ _

variable {id} in

theorem drop_holds_of_ne {i : ObjectId} (h : i ≠ id) : (w.drop id n).holds i = w.holds i :=
  Function.update_of_ne h _ _

variable {n} in

theorem drop_holds_other (i : ObjectId) {k : NodeId} (h : k ≠ n) :
    (w.drop id n).holds i k = w.holds i k := by
  by_cases hi : i = id
  · subst hi
    rw [drop_holds_self, Function.update_of_ne h]
  · rw [drop_holds_of_ne w n hi]

theorem holds_of_drop {i : ObjectId} {k : NodeId} (h : (w.drop id n).holds i k = true) :
    w.holds i k = true := by
  by_cases hi : i = id
  · subst hi
    rw [drop_holds_self] at h
    by_cases hk : k = n
    · simp [hk] at h
    · rwa [Function.update_of_ne hk] at h
  · rwa [drop_holds_of_ne w n hi] at h

end RepairWorld

namespace PushState

def learn (st : PushState) (peer : NodeId) (id : ObjectId) (present : Bool) : PushState :=
  { st with
    presence := Function.update st.presence peer
      (Function.update (st.presence peer) id (some present)) }

def addPlan (st : PushState) (plan : Plan) : PushState :=
  { st with
    plans := st.plans ++ [plan]
    sends := st.sends ++ plan.sent.map (plan.id, ·) }

/-- A send answered: every plan of the object counts the peer. -/
def delivered (st : PushState) (id : ObjectId) (peer : NodeId) : PushState :=
  { st.learn peer id true with
    sends := st.sends.erase (id, peer)
    plans := st.plans.map fun plan =>
      if plan.id = id then { plan with keepers := insert peer plan.keepers } else plan }

def sendFailed (st : PushState) (id : ObjectId) (peer : NodeId) : PushState :=
  { st with sends := st.sends.erase (id, peer), failed := id :: st.failed }

/-- The object leaves the window and what was known of it is forgotten. -/
def settle (st : PushState) (plan : Plan) : PushState :=
  { st with
    window := st.window.erase plan.id
    plans := st.plans.erase plan
    presence := fun peer id => if id = plan.id then none else st.presence peer id }

end PushState

/-- A step is of a node; of a plan it tells the object that could not be read. -/
structure RepairEvent where
  node : NodeId
  unreadable : Option ObjectId := none

section

variable (ranking : Ranking) (replication : Nat)

/-- One step of the push phase of a node. An object enters the window when its
retry is due or a backend's cursor meets it, and so perhaps several times, but
never while a batch is in progress. A plan is made for each place in the window.
A node reads a copy only where it holds one; the read may fail and the copy stay. -/
inductive RepairStep : RepairWorld → RepairEvent → RepairWorld → Prop
  | enqueue {w : RepairWorld} {n : NodeId} {id : ObjectId} (hheld : w.holds id n = true)
      (hidle : (w.push n).plans = []) :
      RepairStep w { node := n } (w.setPush n { w.push n with window := id :: (w.push n).window })
  /-- A peer says whether it holds a copy; a yes was true at some moment. -/
  | learn {w : RepairWorld} {n peer : NodeId} {id : ObjectId} {present : Bool}
      (htrue : present = true → w.everHeld id peer = true) :
      RepairStep w { node := n } (w.setPush n ((w.push n).learn peer id present))
  | plan {w : RepairWorld} {n : NodeId} {id : ObjectId} {reads : PushReads} {live : Bool}
      {nodes : List NodeInfo} {plan : Plan} {unreadable : Bool}
      (hplace : ((w.push n).plans.map (·.id)).count id < (w.push n).window.count id)
      (hnodes : nodes.map (·.id) = ranking.nodes id) (hself : reads.self = n)
      (hpresence : ∀ peer, reads.presence peer = (w.push n).presence peer id)
      (hlocal : reads.hasLocal = w.holds id n)
      (hreadable : reads.readable = true → w.holds id n = true)
      (hplan : planObject reads replication id live nodes = .planned plan unreadable) :
      RepairStep w ⟨n, if unreadable then some id else none⟩
        (w.setPush n ((w.push n).addPlan plan))
  /-- A copy sent reaches its peer. -/
  | arrive {w : RepairWorld} {n peer : NodeId} {id : ObjectId}
      (hsend : (id, peer) ∈ (w.push n).sends) : RepairStep w { node := n } (w.store id peer)
  /-- The answer of a peer that took the copy. -/
  | answer {w : RepairWorld} {n peer : NodeId} {id : ObjectId}
      (hsend : (id, peer) ∈ (w.push n).sends) (htook : w.everHeld id peer = true) :
      RepairStep w { node := n } (w.setPush n ((w.push n).delivered id peer))
  /-- A send that fails, or whose answer is lost. -/
  | fail {w : RepairWorld} {n peer : NodeId} {id : ObjectId}
      (hsend : (id, peer) ∈ (w.push n).sends) :
      RepairStep w { node := n } (w.setPush n ((w.push n).sendFailed id peer))
  | settleDrop {w : RepairWorld} {n : NodeId} {plan : Plan} {retained : Bool}
      (hplan : plan ∈ (w.push n).plans) (hanswered : (w.push n).sends = [])
      (hsent : plan.id ∉ (w.push n).failed) (hdrops : dropsLocal n retained plan = true) :
      RepairStep w { node := n } ((w.drop plan.id n).setPush n ((w.push n).settle plan))
  /-- The copy stays: the plan does not drop it, or no resource is free. -/
  | settleKeep {w : RepairWorld} {n : NodeId} {plan : Plan}
      (hplan : plan ∈ (w.push n).plans) (hanswered : (w.push n).sends = [])
      (hsent : plan.id ∉ (w.push n).failed) :
      RepairStep w { node := n } (w.setPush n ((w.push n).settle plan))
  /-- An object with a failed send stays in the window. -/
  | abandon {w : RepairWorld} {n : NodeId} {plan : Plan}
      (hplan : plan ∈ (w.push n).plans) (hanswered : (w.push n).sends = [])
      (hfailed : plan.id ∈ (w.push n).failed) :
      RepairStep w { node := n }
        (w.setPush n { w.push n with plans := (w.push n).plans.erase plan })
  | endBatch {w : RepairWorld} {n : NodeId} (hdone : (w.push n).plans = []) :
      RepairStep w { node := n } (w.setPush n { w.push n with failed := [] })

end

/-! ## What a plan knows -/

section

variable {reads : PushReads} {target : Nat} {order : List NodeId}

/-- The nodes gathered are known to keep the object, or are to be sent it; all
of them are among the nodes visited, each once. -/
structure Gathered (reads : PushReads) (visited : List NodeId) (v : Visit) : Prop where
  keepers : ∀ k ∈ v.keepers, k ∈ visited ∧ reads.presentAt k = some true
  sends : ∀ p ∈ v.sends, p ∈ visited
  distinct : v.sends.Nodup
  disjoint : ∀ p ∈ v.sends, p ∉ v.keepers
  source : v.source = true → reads.readable = true

def Visit.nodes (v : Visit) : Finset NodeId := v.keepers ∪ v.sends.toFinset

variable {visited : List NodeId} {v : Visit}

section

variable (h : Gathered reads visited v)

include h

theorem Gathered.card : v.nodes.card = v.keepers.card + v.sends.length := by
  have hdisjoint : Disjoint v.keepers v.sends.toFinset := by
    rw [Finset.disjoint_right]
    intro p hp
    exact h.disjoint p (List.mem_toFinset.1 hp)
  unfold Visit.nodes
  rw [Finset.card_union_of_disjoint hdisjoint, toFinset_card_of_nodup h.distinct]

theorem Gathered.subset : ∀ k ∈ v.nodes, k ∈ visited := by
  intro k hk
  rcases Finset.mem_union.1 hk with hk | hk
  · exact (h.keepers k hk).1
  · exact h.sends k (List.mem_toFinset.1 hk)

omit h in
theorem Gathered.mono {visited visited' : List NodeId} (h : Gathered reads visited v)
    (hsub : ∀ k ∈ visited, k ∈ visited') :
    Gathered reads visited' v where
  keepers := fun k hk => ⟨hsub k (h.keepers k hk).1, (h.keepers k hk).2⟩
  sends := fun p hp => hsub p (h.sends p hp)
  __ := h

/-- What a finished visit says of this node: it keeps the object, or enough nodes
ranked before it do or are sent it. -/
def Enough (reads : PushReads) (target : Nat) (order : List NodeId) (v : Visit) : Prop :=
  reads.self ∈ v.keepers ∨ (target ≤ v.nodes.card ∧ ∀ k ∈ v.nodes, k ∈ before order reads.self)

/-- The outcome of the visit of an object that is here, or cannot be read. -/
def VisitResult.Spec (reads : PushReads) (target : Nat) (order : List NodeId) : VisitResult → Prop
  | .stopped => True
  | .unreadable v => Gathered reads order v ∧ v.keepers.card < target
  | .visited v => Gathered reads order v ∧ (reads.self ∈ order → Enough reads target order v)

omit h in
theorem prefix_before {visited rest : List NodeId} {x : NodeId} (h : x ∉ visited) :
    visited <+: before (visited ++ rest) x := by
  unfold before
  rw [takeWhile_append_of_pos]
  · exact prefix_append _ _
  · intro y hy
    rw [decide_eq_true_iff]
    exact fun heq => h (heq ▸ hy)

theorem Gathered.next (peer : NodeId) : Gathered reads (visited ++ [peer]) v :=
  h.mono fun _ => mem_append_left _

theorem Gathered.keep {peer : NodeId} (hnew : peer ∉ visited)
    (hpresent : reads.presentAt peer = some true) :
    Gathered reads (visited ++ [peer]) { v with keepers := insert peer v.keepers } where
  keepers := by
    intro k hk
    rcases Finset.mem_insert.1 hk with rfl | hk
    · exact ⟨by simp, hpresent⟩
    · exact (h.next peer).keepers k hk
  sends := (h.next peer).sends
  __ := h
  disjoint := by
    intro p hp hk
    rcases Finset.mem_insert.1 hk with rfl | hk
    · exact hnew (h.sends _ hp)
    · exact h.disjoint p hp hk

theorem Gathered.send {peer : NodeId} (hnew : peer ∉ visited) (hreadable : reads.readable = true) :
    Gathered reads (visited ++ [peer]) { v with source := true, sends := v.sends ++ [peer] } where
  keepers := (h.next peer).keepers
  sends := by
    intro p hp
    rcases mem_append.1 hp with hp | hp
    · exact (h.next peer).sends p hp
    · simp [mem_singleton.1 hp]
  distinct := by
    rw [nodup_append]
    refine ⟨h.distinct, nodup_singleton _, ?_⟩
    intro a ha b hb heq
    rw [heq, mem_singleton.1 hb] at ha
    exact hnew (h.sends _ ha)
  disjoint := by
    intro p hp hk
    rcases mem_append.1 hp with hp | hp
    · exact h.disjoint p hp hk
    · rw [mem_singleton.1 hp] at hk
      exact hnew (h.keepers _ hk).1
  source := fun _ => hreadable

end

/-- The induction is over the nodes still to visit; this node, once visited, is
a keeper, as its copy is here or the visit ends at it. -/
theorem visitPeers_spec (hlocal : reads.hasLocal = true ∨ reads.readable = false)
    (hnodup : order.Nodup) (rest : List NodeInfo) (visited : List NodeId) (v : Visit)
    (horder : order = visited ++ rest.map (·.id)) (hv : Gathered reads visited v)
    (hself : reads.self ∈ visited → reads.self ∈ v.keepers) :
    (visitPeers reads target rest v).Spec reads target order := by
  induction rest generalizing visited v with
  | nil =>
    have hvisited : order = visited := by simpa using horder
    subst hvisited
    exact ⟨hv, fun hmem => .inl (hself hmem)⟩
  | cons peer rest ih =>
    have hnext : order = (visited ++ [peer.id]) ++ rest.map (·.id) := by
      rw [horder, map_cons, append_assoc, singleton_append]
    have hnew : peer.id ∉ visited := by
      intro hmem
      rw [horder, nodup_append] at hnodup
      exact hnodup.2.2 _ hmem _ (by simp) rfl
    have hin : ∀ k ∈ visited, k ∈ order := by
      intro k hk
      rw [horder]
      exact mem_append_left _ hk
    have hskip : peer.id ≠ reads.self → reads.self ∈ visited ++ [peer.id] →
        reads.self ∈ v.keepers := by
      intro hother hmem
      rcases mem_append.1 hmem with hmem | hmem
      · exact hself hmem
      · exact (hother (mem_singleton.1 hmem).symm).elim
    unfold visitPeers
    split
    · next hdone =>
      refine ⟨hv.mono hin, fun _ => ?_⟩
      by_cases hmem : reads.self ∈ visited
      · exact .inl (hself hmem)
      · refine .inr ⟨by rw [hv.card]; exact hdone, fun k hk => ?_⟩
        rw [horder]
        exact (prefix_before hmem).subset (hv.subset k hk)
    · next hmore =>
      split
      · next hfull =>
        have hother : peer.id ≠ reads.self := by
          intro heq
          simp [hasRoom, heq] at hfull
        exact ih _ _ hnext (hv.next _) (hskip hother)
      · split
        · next hunknown =>
          have hother : peer.id ≠ reads.self := by
            intro heq
            simp [PushReads.presentAt, heq] at hunknown
          have hv' := hv.next peer.id
          exact ih _ { v with undecided := true } hnext
            ⟨hv'.keepers, hv'.sends, hv'.distinct, hv'.disjoint, hv'.source⟩ (hskip hother)
        · next hpresent =>
          refine ih _ _ hnext (hv.keep hnew hpresent) fun hmem => ?_
          rcases mem_append.1 hmem with hmem | hmem
          · exact Finset.mem_insert_of_mem (hself hmem)
          · rw [mem_singleton.1 hmem]
            exact Finset.mem_insert_self _ _
        · next habsent =>
          split
          · trivial
          · split
            · exact ⟨hv.mono hin, by omega⟩
            · next hsource =>
              have hreadable : reads.readable = true := by
                by_cases hs : v.source = true
                · exact hv.source hs
                · simpa [hs] using hsource
              have hother : peer.id ≠ reads.self := by
                intro heq
                rcases hlocal with hhere | hunread
                · simp [PushReads.presentAt, heq, hhere] at habsent
                · simp [hunread] at hreadable
              rw [if_neg hother]
              split
              · trivial
              · exact ih _ _ hnext (hv.send hnew hreadable) (hskip hother)

/-- What the plan of an object says of this node: it keeps the object, enough
nodes ranked before it do or are sent it, or too few are known to keep it. -/
theorem planObject_spec {replication : Nat} {id : ObjectId} {live : Bool} {nodes : List NodeInfo}
    {plan : Plan} {unreadable : Bool} (hnodup : (nodes.map (·.id)).Nodup)
    (hlocal : reads.hasLocal = true ∨ reads.readable = false)
    (hplan : planObject reads replication id live nodes = .planned plan unreadable) :
    plan.id = id ∧ (∀ k ∈ plan.keepers, k ∈ nodes.map (·.id) ∧ reads.presentAt k = some true) ∧
      (∀ p ∈ plan.sent, p ∈ nodes.map (·.id)) ∧
      (plan.live = true → plan.target = min replication nodes.length ∧
        (reads.self ∈ nodes.map (·.id) → reads.self ∈ plan.keepers ∨
          (plan.target ≤ (plan.keepers ∪ plan.sent.toFinset).card ∧
            ∀ k ∈ plan.keepers ∪ plan.sent.toFinset, k ∈ before (nodes.map (·.id)) reads.self) ∨
          (plan.keepers.card < plan.target ∧ plan.sent = [] ∧ unreadable = true))) := by
  unfold planObject at hplan
  split at hplan
  · cases hplan
    exact ⟨rfl, by simp, by simp, by simp⟩
  · have hspec := @visitPeers_spec reads (min replication nodes.length) _ hlocal hnodup nodes [] {}
      (by simp) ⟨by simp, by simp, by simp, by simp, by simp⟩ (by simp)
    dsimp only at hplan
    split at hplan
    · cases hplan
    · next v hv =>
      rw [hv] at hspec
      cases hplan
      obtain ⟨hgathered, hfew⟩ := hspec
      exact ⟨rfl, hgathered.keepers, by simp,
        fun _ => ⟨rfl, fun _ => .inr (.inr ⟨hfew, rfl, rfl⟩)⟩⟩
    · next v hv =>
      rw [hv] at hspec
      cases hplan
      obtain ⟨hgathered, henough⟩ := hspec
      refine ⟨rfl, hgathered.keepers, hgathered.sends, fun _ => ⟨rfl, fun hmem => ?_⟩⟩
      rcases henough hmem with hkeeps | hbefore
      · exact .inl hkeeps
      · exact .inr (.inl hbefore)

end

section

variable (ranking : Ranking) (replication : Nat)

/-- Why the plan may or may not drop the copy here. In the last case no more is
learnt of the object before the plan settles. -/
def Prepared (n : NodeId) (st : PushState) (plan : Plan) : Prop :=
  n ∈ plan.keepers ∨ (∃ s : Finset NodeId, plan.target ≤ s.card ∧ ∀ k ∈ s,
      k ∈ before (ranking.nodes plan.id) n ∧
        (k ∈ plan.keepers ∨ (plan.id, k) ∈ st.sends ∨ plan.id ∈ st.failed)) ∨
    (plan.keepers.card < plan.target ∧ st.window.count plan.id ≤ 1 ∧ ∀ p, (plan.id, p) ∉ st.sends)

/-- The push state of one node: what it knows was true, every plan has its place
in the window and is prepared. -/
structure PushInvariant (w : RepairWorld) (n : NodeId) (st : PushState) : Prop where
  presence : ∀ peer id, st.presence peer id = some true → w.everHeld id peer = true
  keepers : ∀ plan ∈ st.plans, ∀ k ∈ plan.keepers,
    k ∈ ranking.nodes plan.id ∧ w.everHeld plan.id k = true
  sends : ∀ id peer, (id, peer) ∈ st.sends → peer ∈ ranking.nodes id ∧ id ∈ st.plans.map (·.id)
  places : ∀ id, (st.plans.map (·.id)).count id ≤ st.window.count id
  target : ∀ plan ∈ st.plans, plan.live = true →
    plan.target = min replication (ranking.nodes plan.id).length
  prepared : ∀ plan ∈ st.plans, plan.live = true → n ∈ ranking.nodes plan.id →
    Prepared ranking n st plan

/-- Whoever held a copy at some moment is covered. -/
structure RepairInvariant (w : RepairWorld) : Prop where
  ever : ∀ id n, w.holds id n = true → w.everHeld id n = true
  covered : ∀ id, ∀ z ∈ ranking.nodes id, w.everHeld id z = true →
    Covered replication (ranking.nodes id) (w.holds id) z
  push : ∀ n, PushInvariant ranking replication w n (w.push n)

end

section

variable {ranking : Ranking} {replication : Nat} {w w' : RepairWorld} {n : NodeId} {st : PushState}

section

variable (h : PushInvariant ranking replication w n st)

include h

theorem PushInvariant.mono (hever : ∀ id k, w.everHeld id k = true → w'.everHeld id k = true) :
    PushInvariant ranking replication w' n st where
  presence := fun peer id hp => hever _ _ (h.presence peer id hp)
  keepers := fun plan hplan k hk =>
    ⟨(h.keepers plan hplan k hk).1, hever _ _ (h.keepers plan hplan k hk).2⟩
  __ := h

variable {id : ObjectId} {peer : NodeId}

theorem PushInvariant.enqueue (id : ObjectId) (hidle : st.plans = []) :
    PushInvariant ranking replication w n { st with window := id :: st.window } where
  __ := h
  places := by simp [hidle]
  prepared := by simp [hidle]

theorem PushInvariant.learn {present : Bool} (htrue : present = true → w.everHeld id peer = true) :
    PushInvariant ranking replication w n (st.learn peer id present) where
  presence := by
    intro p i hp
    dsimp only [PushState.learn] at hp
    by_cases hpeer : p = peer
    · subst hpeer
      rw [Function.update_self] at hp
      by_cases hid : i = id
      · subst hid
        rw [Function.update_self, Option.some.injEq] at hp
        exact htrue hp
      · rw [Function.update_of_ne hid] at hp
        exact h.presence p i hp
    · rw [Function.update_of_ne hpeer] at hp
      exact h.presence p i hp
  __ := h

omit h in
/-- What is known grows from one push state to the next: the nodes counted on
stay counted on. -/
theorem Prepared.mono {st st' : PushState} {plan plan' : Plan} (h : Prepared ranking n st plan)
    (hid : plan'.id = plan.id) (htarget : plan'.target = plan.target)
    (hkeepers : plan.keepers ⊆ plan'.keepers)
    (hsends : ∀ k, (plan.id, k) ∈ st.sends →
      k ∈ plan'.keepers ∨ (plan.id, k) ∈ st'.sends ∨ plan.id ∈ st'.failed)
    (hfailed : plan.id ∈ st.failed → plan.id ∈ st'.failed)
    (hfew : (∀ p, (plan.id, p) ∉ st.sends) → st.window.count plan.id ≤ 1 →
      plan'.keepers = plan.keepers ∧ st'.window.count plan.id ≤ 1 ∧ ∀ p, (plan.id, p) ∉ st'.sends) :
    Prepared ranking n st' plan' := by
  unfold Prepared at h ⊢
  rw [hid, htarget]
  rcases h with hself | ⟨s, hcard, hs⟩ | ⟨hcard, hcount, hnone⟩
  · exact .inl (hkeepers hself)
  · refine .inr (.inl ⟨s, hcard, fun k hk => ⟨(hs k hk).1, ?_⟩⟩)
    rcases (hs k hk).2 with hk | hk | hk
    · exact .inl (hkeepers hk)
    · exact hsends k hk
    · exact .inr (.inr (hfailed hk))
  · obtain ⟨heq, hcount', hnone'⟩ := hfew hnone hcount
    exact .inr (.inr ⟨heq ▸ hcard, hcount', hnone'⟩)

/-- A plan whose read failed has the one place of its object: no later plan sends for it. -/
theorem PushInvariant.prepared_addPlan {plan p : Plan}
    (hplace : (st.plans.map (·.id)).count plan.id < st.window.count plan.id) (hp : p ∈ st.plans)
    (hlive : p.live = true) (hmem : n ∈ ranking.nodes p.id) :
    Prepared ranking n (st.addPlan plan) p := by
  refine (h.prepared p hp hlive hmem).mono rfl rfl (Finset.Subset.refl _) ?_ id ?_
  · intro k hk
    exact .inr (.inl (mem_append_left _ hk))
  · intro hnone hcount
    refine ⟨rfl, hcount, ?_⟩
    intro q hq
    rcases mem_append.1 hq with hq | hq
    · exact hnone q hq
    · obtain ⟨_, -, heq⟩ := List.mem_map.1 hq
      have hid : plan.id = p.id := congrArg Prod.fst heq
      have hpos : 0 < (st.plans.map (·.id)).count p.id :=
        count_pos_iff.2 (List.mem_map_of_mem hp)
      rw [hid] at hplace
      omega

theorem PushInvariant.addPlan {reads : PushReads} {live : Bool} {nodes : List NodeInfo}
    {plan : Plan} {unreadable : Bool}
    (hever : ∀ id n, w.holds id n = true → w.everHeld id n = true)
    (hplace : (st.plans.map (·.id)).count id < st.window.count id)
    (hnodes : nodes.map (·.id) = ranking.nodes id) (hself : reads.self = n)
    (hpresence : ∀ peer, reads.presence peer = st.presence peer id)
    (hlocal : reads.hasLocal = w.holds id n)
    (hreadable : reads.readable = true → w.holds id n = true)
    (hplan : planObject reads replication id live nodes = .planned plan unreadable)
    (honce : unreadable = true → st.window.count id ≤ 1) :
    PushInvariant ranking replication w n (st.addPlan plan) := by
  have hhere : reads.hasLocal = true ∨ reads.readable = false := by
    rw [hlocal]
    cases hread : reads.readable with
    | false => exact .inr rfl
    | true => exact .inl (hreadable hread)
  have hnodup : (nodes.map (·.id)).Nodup := hnodes ▸ ranking.distinct id
  obtain ⟨rfl, hkeepers, hsent, hlive⟩ := planObject_spec hnodup hhere hplan
  rw [hnodes] at hkeepers hsent hlive
  have hlength : nodes.length = (ranking.nodes plan.id).length := by
    rw [← hnodes, length_map]
  have hids : (st.addPlan plan).plans.map (·.id) = st.plans.map (·.id) ++ [plan.id] := by
    simp [PushState.addPlan]
  have hknown : ∀ k ∈ plan.keepers, w.everHeld plan.id k = true := by
    intro k hk
    have hpresent := (hkeepers k hk).2
    unfold PushReads.presentAt at hpresent
    split at hpresent
    · next heq =>
      rw [Option.some.injEq, hlocal] at hpresent
      rw [heq, hself]
      exact hever _ _ hpresent
    · rw [hpresence] at hpresent
      exact h.presence k _ hpresent
  have hnew : plan.live = true → n ∈ ranking.nodes plan.id →
      Prepared ranking n (st.addPlan plan) plan := by
    intro hplive hmem
    rcases (hlive hplive).2 (hself ▸ hmem) with hkeeps | ⟨hcard, hbefore⟩ | ⟨hfew, hnosend, hread⟩
    · exact .inl (hself ▸ hkeeps)
    · refine .inr (.inl ⟨_, hcard, fun k hk => ⟨hself ▸ hbefore k hk, ?_⟩⟩)
      rcases Finset.mem_union.1 hk with hk | hk
      · exact .inl hk
      · refine .inr (.inl (mem_append_right _ ?_))
        exact List.mem_map_of_mem (List.mem_toFinset.1 hk)
    · have hcount := honce hread
      refine .inr (.inr ⟨hfew, hcount, ?_⟩)
      intro p hp
      rcases mem_append.1 hp with hp | hp
      · have hpos := count_pos_iff.2 (h.sends _ _ hp).2
        omega
      · simp [hnosend] at hp
  exact
    { presence := h.presence
      keepers := by
        intro p hp k hk
        rcases mem_append.1 hp with hp | hp
        · exact h.keepers p hp k hk
        · cases mem_singleton.1 hp
          exact ⟨(hkeepers k hk).1, hknown k hk⟩
      sends := by
        intro i peer hp
        rw [hids]
        rcases mem_append.1 hp with hp | hp
        · exact ⟨(h.sends i peer hp).1, mem_append_left _ (h.sends i peer hp).2⟩
        · obtain ⟨q, hq, heq⟩ := List.mem_map.1 hp
          cases heq
          exact ⟨hsent _ hq, by simp⟩
      places := by
        intro i
        rw [hids, count_append, count_singleton]
        have hle := h.places i
        split
        · next heq =>
          rw [beq_iff_eq] at heq
          subst heq
          exact hplace
        · exact hle
      target := by
        intro p hp hplive
        rcases mem_append.1 hp with hp | hp
        · exact h.target p hp hplive
        · cases mem_singleton.1 hp
          rw [(hlive hplive).1, hlength]
      prepared := by
        intro p hp hplive hmem
        rcases mem_append.1 hp with hp | hp
        · exact h.prepared_addPlan hplace hp hplive hmem
        · cases mem_singleton.1 hp
          exact hnew hplive hmem }

theorem PushInvariant.delivered (hsend : (id, peer) ∈ st.sends)
    (htook : w.everHeld id peer = true) :
    PushInvariant ranking replication w n (st.delivered id peer) := by
  have hlearn : PushInvariant ranking replication w n (st.learn peer id true) :=
    h.learn fun _ => htook
  have hids : (st.delivered id peer).plans.map (·.id) = st.plans.map (·.id) := by
    simp only [PushState.delivered, List.map_map]
    refine map_congr_left fun plan _ => ?_
    simp only [Function.comp_apply]
    split <;> rfl
  exact
    { presence := hlearn.presence
      keepers := by
        intro p hp k hk
        obtain ⟨q, hq, rfl⟩ := List.mem_map.1 hp
        split at hk
        · next heq =>
          simp only [heq, if_true]
          rcases Finset.mem_insert.1 hk with rfl | hk
          · exact ⟨(h.sends _ _ hsend).1, htook⟩
          · exact heq ▸ h.keepers q hq k hk
        · next hne =>
          simp only [hne, if_false]
          exact h.keepers q hq k hk
      sends := by
        intro i p hp
        rw [hids]
        exact h.sends i p (mem_of_mem_erase hp)
      places := by
        intro i
        rw [hids]
        exact h.places i
      target := by
        intro p hp hlive
        obtain ⟨q, hq, rfl⟩ := List.mem_map.1 hp
        have hqlive : q.live = true := by split at hlive <;> exact hlive
        split
        · exact h.target q hq hqlive
        · exact h.target q hq hqlive
      prepared := by
        intro p hp hlive hmem
        obtain ⟨q, hq, rfl⟩ := List.mem_map.1 hp
        have hqlive : q.live = true := by split at hlive <;> exact hlive
        have hqmem : n ∈ ranking.nodes q.id := by split at hmem <;> exact hmem
        refine (h.prepared q hq hqlive hqmem).mono (by split <;> rfl) (by split <;> rfl) ?_ ?_
          (fun hf => hf) ?_
        · split
          · exact Finset.subset_insert _ _
          · exact Finset.Subset.refl _
        · intro k hk
          by_cases heq : (q.id, k) = (id, peer)
          · cases heq
            left
            simp
          · exact .inr (.inl ((mem_erase_of_ne heq).2 hk))
        · intro hnone hcount
          have hne : q.id ≠ id := fun heq => hnone peer (heq ▸ hsend)
          rw [if_neg hne]
          exact ⟨rfl, hcount, fun p hp => hnone p (mem_of_mem_erase hp)⟩ }

theorem PushInvariant.sendFailed (id : ObjectId) (peer : NodeId) :
    PushInvariant ranking replication w n (st.sendFailed id peer) where
  __ := h
  sends := fun i p hp => h.sends i p (mem_of_mem_erase hp)
  prepared := by
    intro p hp hlive hmem
    refine (h.prepared p hp hlive hmem).mono rfl rfl (Finset.Subset.refl _) ?_
      (mem_cons_of_mem _) ?_
    · intro k hk
      by_cases heq : (p.id, k) = (id, peer)
      · cases heq
        exact .inr (.inr mem_cons_self)
      · exact .inr (.inl ((mem_erase_of_ne heq).2 hk))
    · intro hnone hcount
      exact ⟨rfl, hcount, fun q hq => hnone q (mem_of_mem_erase hq)⟩

omit h in
theorem count_map_erase {plans : List Plan} {plan : Plan} (h : plan ∈ plans) (id : ObjectId) :
    (plans.map (·.id)).count id =
      ((plans.erase plan).map (·.id)).count id + if plan.id = id then 1 else 0 := by
  have hperm := ((perm_cons_erase h).map (·.id)).count_eq id
  rw [hperm, map_cons, count_cons]
  simp

theorem PushInvariant.erasePlan (hanswered : st.sends = []) (plan : Plan) :
    PushInvariant ranking replication w n { st with plans := st.plans.erase plan } where
  __ := h
  keepers := fun p hp => h.keepers p (mem_of_mem_erase hp)
  sends := by simp [hanswered]
  places := by
    intro id
    have hle := ((erase_sublist (a := plan) (l := st.plans)).map (·.id)).count_le id
    exact hle.trans (h.places id)
  target := fun p hp => h.target p (mem_of_mem_erase hp)
  prepared := fun p hp => h.prepared p (mem_of_mem_erase hp)

theorem PushInvariant.settle {plan : Plan} (hplan : plan ∈ st.plans) (hanswered : st.sends = [])
    (hever : ∀ id k, w.everHeld id k = true → w'.everHeld id k = true) :
    PushInvariant ranking replication w' n (st.settle plan) := by
  have hcount : ∀ id, st.window.count id =
      (st.window.erase plan.id).count id + if plan.id = id then 1 else 0 := by
    intro id
    have hpos : 0 < (st.plans.map (·.id)).count plan.id :=
      count_pos_iff.2 (List.mem_map_of_mem hplan)
    have hle := h.places plan.id
    have hmem : plan.id ∈ st.window := count_pos_iff.1 (by omega)
    rw [(perm_cons_erase hmem).count_eq id, count_cons]
    simp
  exact
    { presence := by
        intro peer id hp
        dsimp only [PushState.settle] at hp
        split at hp
        · cases hp
        · exact hever _ _ (h.presence peer id hp)
      keepers := fun p hp k hk =>
        ⟨(h.keepers p (mem_of_mem_erase hp) k hk).1,
          hever _ _ (h.keepers p (mem_of_mem_erase hp) k hk).2⟩
      sends := by simp [PushState.settle, hanswered]
      places := by
        intro id
        have hle := h.places id
        have hid := hcount id
        have hplans := count_map_erase hplan id
        show ((st.plans.erase plan).map (·.id)).count id ≤ (st.window.erase plan.id).count id
        omega
      target := fun p hp => h.target p (mem_of_mem_erase hp)
      prepared := by
        intro p hp hlive hmem
        refine (h.prepared p (mem_of_mem_erase hp) hlive hmem).mono rfl rfl
          (Finset.Subset.refl _) (fun k hk => .inr (.inl hk)) (fun hf => hf) ?_
        intro hnone hone
        have hid := hcount p.id
        refine ⟨rfl, ?_, hnone⟩
        show (st.window.erase plan.id).count p.id ≤ 1
        omega }

theorem PushInvariant.endBatch (hdone : st.plans = []) :
    PushInvariant ranking replication w n { st with failed := [] } where
  __ := h
  prepared := by simp [hdone]

end

theorem RepairInvariant.initial (holds : ObjectId → NodeId → Bool) :
    RepairInvariant ranking replication (RepairWorld.initial holds) where
  ever := fun _ _ h => h
  covered := fun _ _ _ h => .inl h
  push := fun n =>
    { presence := nofun
      keepers := nofun
      sends := nofun
      places := by simp [RepairWorld.initial]
      target := nofun
      prepared := nofun }

section

variable (h : RepairInvariant ranking replication w)

include h

theorem RepairInvariant.setPush (hst : PushInvariant ranking replication w n st) :
    RepairInvariant ranking replication (w.setPush n st) where
  __ := h
  push := by
    intro m
    unfold RepairWorld.setPush
    dsimp only
    by_cases hm : m = n
    · subst hm
      rw [Function.update_self]
      exact hst.mono fun _ _ => id
    · rw [Function.update_of_ne hm]
      exact (h.push m).mono fun _ _ => id

theorem RepairInvariant.store (id : ObjectId) (peer : NodeId) :
    RepairInvariant ranking replication (w.store id peer) where
  ever := by
    intro i k hik
    rw [RepairWorld.store_holds] at hik
    rw [RepairWorld.store_everHeld]
    split
    · rfl
    · next hne =>
      rw [if_neg hne] at hik
      exact h.ever i k hik
  covered := by
    intro i z hz hik
    by_cases heq : i = id ∧ z = peer
    · left
      rw [RepairWorld.store_holds, if_pos heq]
    · rw [RepairWorld.store_everHeld, if_neg heq] at hik
      exact (h.covered i z hz hik).mono fun k => w.holds_store i k
  push := fun m => (h.push m).mono w.everHeld_store

/-- When a plan drops the copy here, enough nodes before this one hold the
object, and some other node does. -/
theorem RepairInvariant.enough {plan : Plan} {retained : Bool} (hplan : plan ∈ (w.push n).plans)
    (hanswered : (w.push n).sends = []) (hsent : plan.id ∉ (w.push n).failed)
    (hdrops : dropsLocal n retained plan = true) :
    (n ∈ ranking.nodes plan.id →
      replication ≤ copies (before (ranking.nodes plan.id) n) (w.holds plan.id)) ∧
      ∃ k, k ≠ n ∧ w.holds plan.id k = true := by
  have hdrops' : plan.live = true ∧ 0 < plan.target ∧ plan.target ≤ plan.keepers.card ∧
      n ∉ plan.keepers := by
    simp only [dropsLocal, Bool.and_eq_true, decide_eq_true_eq] at hdrops
    exact ⟨hdrops.1.1.1.1, hdrops.1.1.1.2, hdrops.1.1.2, hdrops.1.2⟩
  obtain ⟨hlive, hpos, hcard, hself⟩ := hdrops'
  have hpush := h.push n
  have htarget := hpush.target plan hplan hlive
  have hcovered : ∀ k ∈ plan.keepers,
      Covered replication (ranking.nodes plan.id) (w.holds plan.id) k := fun k hk =>
    h.covered _ k (hpush.keepers plan hplan k hk).1 (hpush.keepers plan hplan k hk).2
  have henough : n ∈ ranking.nodes plan.id →
      replication ≤ copies (before (ranking.nodes plan.id) n) (w.holds plan.id) := by
    intro hmem
    rcases hpush.prepared plan hplan hlive hmem with hkeeps | ⟨s, hs, hin⟩ | ⟨hfew, -, -⟩
    · exact (hself hkeeps).elim
    · have hkept : ∀ k ∈ s, k ∈ plan.keepers := by
        intro k hk
        rcases (hin k hk).2 with hk | hk | hk
        · exact hk
        · simp [hanswered] at hk
        · exact (hsent hk).elim
      have hsmall : s.card ≤ (before (ranking.nodes plan.id) n).length := by
        have hsubset : s ⊆ (before (ranking.nodes plan.id) n).toFinset := fun k hk =>
          List.mem_toFinset.2 (hin k hk).1
        exact (Finset.card_le_card hsubset).trans (toFinset_card_le _)
      have hlt := before_length_lt hmem
      exact enough_of_covered (by omega) (fun k hk => (hin k hk).1)
        (fun k hk => hcovered k (hkept k hk))
    · omega
  refine ⟨henough, ?_⟩
  by_cases hmem : n ∈ ranking.nodes plan.id
  · have hcopies : 0 < copies (before (ranking.nodes plan.id) n) (w.holds plan.id) := by
      have hle := henough hmem
      omega
    obtain ⟨k, hk, hholds⟩ := countP_pos_iff.1 hcopies
    exact ⟨k, fun heq => not_mem_before _ _ (heq ▸ hk), hholds⟩
  · obtain ⟨k, hk⟩ := Finset.card_pos.1 (show 0 < plan.keepers.card by omega)
    obtain ⟨z, hz, hholds⟩ :=
      (hcovered k hk).exists_holder (hpush.keepers plan hplan k hk).1 (by omega)
    exact ⟨z, fun heq => hmem (heq ▸ hz), hholds⟩

theorem RepairInvariant.drop {id : ObjectId} (henough : n ∈ ranking.nodes id →
      replication ≤ copies (before (ranking.nodes id) n) (w.holds id))
    (hst : PushInvariant ranking replication (w.drop id n) n st) :
    RepairInvariant ranking replication ((w.drop id n).setPush n st) where
  ever := fun i m him => h.ever i m (w.holds_of_drop id n him)
  covered := by
    intro i z hz hik
    have hold := h.covered i z hz hik
    show Covered replication (ranking.nodes i) ((w.drop id n).holds i) z
    by_cases hi : i = id
    · subst hi
      rw [RepairWorld.drop_holds_self]
      exact hold.drop hz henough
    · rw [RepairWorld.drop_holds_of_ne w n hi]
      exact hold
  push := by
    intro m
    show PushInvariant ranking replication _ m (Function.update w.push n st m)
    by_cases hm : m = n
    · subst hm
      rw [Function.update_self]
      exact hst.mono fun _ _ h => h
    · rw [Function.update_of_ne hm]
      exact (h.push m).mono fun _ _ h => h

/-- The object of a failed read stands once in the window. -/
def UnreadableOnce (t : Transition RepairWorld RepairEvent) : Prop :=
  ∀ id ∈ t.event.unreadable, (t.before.push t.event.node).window.count id ≤ 1

variable {event : RepairEvent}

theorem RepairInvariant.step (hstep : RepairStep ranking replication w event w')
    (honce : UnreadableOnce ⟨w, event, w'⟩) : RepairInvariant ranking replication w' := by
  cases hstep with
  | enqueue hheld hidle => exact h.setPush ((h.push _).enqueue _ hidle)
  | learn htrue => exact h.setPush ((h.push _).learn htrue)
  | plan hplace hnodes hself hpresence hlocal hreadable hplan =>
    refine h.setPush
      ((h.push _).addPlan h.ever hplace hnodes hself hpresence hlocal hreadable hplan ?_)
    rintro rfl
    exact honce _ rfl
  | arrive hsend => exact h.store _ _
  | answer hsend htook => exact h.setPush ((h.push _).delivered hsend htook)
  | fail hsend => exact h.setPush ((h.push _).sendFailed _ _)
  | settleDrop hplan hanswered hsent hdrops =>
    exact h.drop (h.enough hplan hanswered hsent hdrops).1
      ((h.push _).settle hplan hanswered fun _ _ => id)
  | settleKeep hplan hanswered hsent =>
    exact h.setPush ((h.push _).settle hplan hanswered fun _ _ => id)
  | abandon hplan hanswered hfailed => exact h.setPush ((h.push _).erasePlan hanswered _)
  | endBatch hdone => exact h.setPush ((h.push _).endBatch hdone)

/-! ## Copies are never lost -/

/-- The copies among the first `r` ranked nodes, counted up to replication. -/
def RepairWorld.level (ranking : Ranking) (replication : Nat) (w : RepairWorld) (id : ObjectId)
    (r : Nat) : Nat :=
  min replication (copies ((ranking.nodes id).take r) (w.holds id))

/-- From `w` on: no level is lower, and an object held somewhere still is. -/
def Preserves (ranking : Ranking) (replication : Nat) (w w' : RepairWorld) : Prop :=
  (∀ id r, w.level ranking replication id r ≤ w'.level ranking replication id r) ∧
    ∀ id, (∃ n, w.holds id n = true) → ∃ n, w'.holds id n = true

omit h in
theorem Preserves.of_holds (hholds : ∀ id k, w.holds id k = true → w'.holds id k = true) :
    Preserves ranking replication w w' := by
  constructor
  · intro id r
    have hle := copies_mono (hholds id) ((ranking.nodes id).take r)
    exact min_le_min_left _ hle
  · rintro id ⟨k, hk⟩
    exact ⟨k, hholds id k hk⟩

theorem RepairInvariant.preserves (hstep : RepairStep ranking replication w event w') :
    Preserves ranking replication w w' := by
  cases hstep with
  | arrive hsend => exact .of_holds fun i k => w.holds_store i k
  | @settleDrop n plan retained hplan hanswered hsent hdrops =>
    obtain ⟨henough, z, hz, hholds⟩ := h.enough hplan hanswered hsent hdrops
    constructor
    · intro id r
      show w.level ranking replication id r ≤ (w.drop plan.id n).level ranking replication id r
      unfold RepairWorld.level
      by_cases hid : id = plan.id
      · subst hid
        rw [RepairWorld.drop_holds_self]
        exact min_copies_drop ( take_prefix _ _) henough
      · rw [RepairWorld.drop_holds_of_ne w n hid]
    · rintro id ⟨k, hk⟩
      by_cases hid : id = plan.id
      · subst hid
        exact ⟨z, (w.drop_holds_other _ _ hz).trans hholds⟩
      · exact ⟨k, (congrFun (RepairWorld.drop_holds_of_ne w n hid) k).trans hk⟩
  | _ => exact .of_holds fun _ _ => id

end

/-- Over every run of the push phases of all nodes in which an object that cannot
be read stands once in the window, from any moment on, no level goes down and no
last copy is dropped. -/
theorem repair_never_loses_copies (ranking : Ranking) (replication : Nat)
    (holds : ObjectId → NodeId → Bool) {past later : List (Transition RepairWorld RepairEvent)}
    {w w' : RepairWorld}
    (run : Run (Traced (RepairStep ranking replication)) (RepairWorld.initial holds) past w)
    (hpast : Always (fun _ t => UnreadableOnce t) past)
    (run' : Run (Traced (RepairStep ranking replication)) w later w')
    (hlater : Always (fun _ t => UnreadableOnce t) later) :
    Preserves ranking replication w w' := by
  have hinv : RepairInvariant ranking replication w :=
    run.invariant_of_always hpast (.initial holds) fun _ _ _ hstep h honce => h.step hstep honce
  have hboth : RepairInvariant ranking replication w' ∧ Preserves ranking replication w w' :=
    run'.invariant_of_always hlater
      (P := fun u => RepairInvariant ranking replication u ∧ Preserves ranking replication w u)
      ⟨hinv, .of_holds fun _ _ => id⟩
      fun u _ v hstep h honce => by
        have hnext := h.1.preserves hstep
        exact ⟨h.1.step hstep honce, fun id r => (h.2.1 id r).trans (hnext.1 id r),
          fun id hheld => hnext.2 id (h.2.2 id hheld)⟩
  exact hboth.2

end

namespace Handover

/-! One copy, on the node ranked second: it is sent to the first and dropped. -/

def object : ObjectId := bytes "object"

def ranking : Ranking := ⟨fun _ => [1, 2], fun _ => by decide⟩

def start : RepairWorld := RepairWorld.initial fun _ n => n == 2

def queued : RepairWorld := start.setPush 2 { window := [object] }

def asked : RepairWorld := queued.setPush 2 ((queued.push 2).learn 1 object false)

def reads : PushReads :=
  { self := 2
    presence := fun peer => (asked.push 2).presence peer object
    hasLocal := true
    readable := true }

def plan : Plan := { id := object, target := 1, sent := [1] }

def planned : RepairWorld := asked.setPush 2 ((asked.push 2).addPlan plan)

def arrived : RepairWorld := planned.store object 1

def answered : RepairWorld := arrived.setPush 2 ((arrived.push 2).delivered object 1)

def kept : Plan := { plan with keepers := {1} }

def dropped : RepairWorld := (answered.drop object 2).setPush 2 ((answered.push 2).settle kept)

theorem handed_over : Run (RepairStep ranking 1) start (replicate 6 { node := 2 }) dropped := by
  have hqueue : RepairStep ranking 1 start { node := 2 } queued := .enqueue rfl rfl
  have hask : RepairStep ranking 1 queued { node := 2 } asked := .learn nofun
  have hplan : planObject reads 1 object true [{ id := 1 }, { id := 2 }] = .planned plan false := by
    simp [planObject, visitPeers, hasRoom, PushReads.presentAt, reads, asked, queued, start,
      RepairWorld.setPush, PushState.learn, plan]
  have hplanned : RepairStep ranking 1 asked { node := 2 } planned :=
    .plan (by decide) rfl rfl (fun _ => rfl) rfl (fun _ => rfl) hplan
  have harrive : RepairStep ranking 1 planned { node := 2 } arrived := .arrive (by decide)
  have hanswer : RepairStep ranking 1 arrived { node := 2 } answered :=
    .answer (by decide) (by decide)
  have hkept : kept ∈ (answered.push 2).plans := by decide
  have hdrop : RepairStep ranking 1 answered { node := 2 } dropped :=
    @RepairStep.settleDrop ranking 1 answered 2 kept false hkept (by decide) (by decide) (by decide)
  exact (((((Run.refl.snoc hqueue).snoc hask).snoc hplanned).snoc harrive).snoc hanswer).snoc hdrop

theorem handover_keeps_the_copy : ∃ trace, Run (Traced (RepairStep ranking 1)) start trace dropped ∧
      dropped.holds object 2 = false ∧ Preserves ranking 1 start dropped := by
  obtain ⟨trace, run, hevents⟩ := handed_over.exists_trace
  have honce : Always (fun _ t => UnreadableOnce t) trace := by
    refine always_of_events hevents fun t ht => ?_
    rw [UnreadableOnce, eq_of_mem_replicate ht]
    exact nofun
  refine ⟨trace, run, by decide, ?_⟩
  exact repair_never_loses_copies ranking 1 (fun _ n => n == 2) .refl (always_nil _) run honce

end Handover

namespace ReadFailedOnce

/-! The object stands twice in the window of the node ranked third; its copy cannot be read
for the first place, and is read for the second. -/

def object : ObjectId := bytes "object"

def ranking : Ranking := ⟨fun _ => [1, 2, 3, 4], fun _ => by decide⟩

def start : RepairWorld := RepairWorld.initial fun _ n => n == 1 || n == 3

def queued : RepairWorld := start.setPush 3 { window := [object] }

def queuedAgain : RepairWorld := queued.setPush 3 { window := [object, object] }

def askedFirst : RepairWorld := queuedAgain.setPush 3 ((queuedAgain.push 3).learn 1 object true)

def askedSecond : RepairWorld := askedFirst.setPush 3 ((askedFirst.push 3).learn 2 object false)

def asked : RepairWorld := askedSecond.setPush 3 ((askedSecond.push 3).learn 4 object false)

def reads (readable : Bool) : PushReads :=
  { self := 3
    extentSize := 1
    presence := fun peer => (asked.push 3).presence peer object
    hasLocal := true
    readable := readable }

/-- The first two nodes, with room or without. -/
def nodes (used : Nat) : List NodeInfo :=
  [{ id := 1, capacity := 1, used := used }, { id := 2, capacity := 1, used := used },
    { id := 3 }, { id := 4 }]

def first : Plan := { id := object, target := 2, keepers := {1} }

def second : Plan := { id := object, target := 2, keepers := {3}, sent := [4] }

def planned : RepairWorld := asked.setPush 3 ((asked.push 3).addPlan first)

def plannedAgain : RepairWorld := planned.setPush 3 ((planned.push 3).addPlan second)

def arrived : RepairWorld := plannedAgain.store object 4

def answered : RepairWorld := arrived.setPush 3 ((arrived.push 3).delivered object 4)

def credited : Plan := { first with keepers := {4, 1} }

def dropped : RepairWorld := (answered.drop object 3).setPush 3 ((answered.push 3).settle credited)

/-- The first plan counts the copy sent for the second, and the copy here goes though the node
ranked second has none. -/
theorem credited_plan_drops : ∃ events, Run (RepairStep ranking 2) start events dropped ∧
    start.level ranking 2 object 3 = 2 ∧ dropped.level ranking 2 object 3 = 1 := by
  have hfirst : planObject (reads false) 2 object true (nodes 0) = .planned first true := by
    decide +kernel
  have hsecond : planObject (reads true) 2 object true (nodes 1) = .planned second false := by
    decide +kernel
  have hplanned : RepairStep ranking 2 asked ⟨3, some object⟩ planned :=
    .plan (by decide) rfl rfl (fun _ => rfl) rfl (fun _ => rfl) hfirst
  have hplannedAgain : RepairStep ranking 2 planned { node := 3 } plannedAgain :=
    .plan (by decide) rfl rfl (fun _ => rfl) rfl (fun _ => rfl) hsecond
  have hdrop : RepairStep ranking 2 answered { node := 3 } dropped :=
    @RepairStep.settleDrop ranking 2 answered 3 credited false (by decide) (by decide) (by decide)
      (by decide)
  have hasked : Run (RepairStep ranking 2) start _ asked :=
    ((((Run.refl.snoc (t := start) (u := queued) (.enqueue rfl rfl)).snoc
      (u := queuedAgain) (.enqueue rfl rfl)).snoc (u := askedFirst) (.learn fun _ => rfl)).snoc
      (u := askedSecond) (.learn nofun)).snoc (u := asked) (.learn nofun)
  have harrive : RepairStep ranking 2 plannedAgain { node := 3 } arrived := .arrive (by decide)
  have hanswer : RepairStep ranking 2 arrived { node := 3 } answered :=
    .answer (by decide) (by decide)
  exact ⟨_, ((((hasked.snoc hplanned).snoc hplannedAgain).snoc harrive).snoc hanswer).snoc hdrop,
    by decide +kernel⟩

end ReadFailedOnce

end Macha
