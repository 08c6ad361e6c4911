import Macha.Cluster.Membership

/-!
# The roster file

What calls have encoded and written, in any order of the writes, is what a new process
loads. The loader refuses entries that observation admits: those with the zero id.
-/

namespace Macha

open Option OrdMap

namespace MembershipWorld

open MembershipState

/-- The nodes as the file has them. -/
def filed (m : MembershipState) : OrdMap NodeId RosterRecord :=
  m.nodes.map fun _ r => ⟨written r.info, r.lastSeenUnixMs, r.lastSeenUnixMs⟩

/-- Once all calls have returned, the file loads, with the resets in memory and the nodes
encoded last, except those a reset retires. -/
def Loads (self : NodeId) (w : MembershipWorld) : Prop :=
  w.pending = ∅ → w.file.elim (some {}) (loadKnown self) = some
    { nodes := (w.recorded.elim ∅ filed).filter fun _ record =>
        !retired w.memory.identityResets record.info
      identityResets := w.memory.identityResets }

/-- Texts are of at most 4096 bytes, as decoded, and no node with the zero id is observed. -/
def Recordable (t : Transition MembershipWorld MembershipEvent) : Prop :=
  match t.event with
  | .observe node _ _ => node.host.length ≤ 4096 ∧ node.failureDomain.length ≤ 4096 ∧ node.id ≠ 0
  | .applyIdentityReset reset => reset.host.length ≤ 4096 ∧ reset.reason.length ≤ 4096
  | _ => True

instance : DecidablePred Recordable := fun t => by
  obtain ⟨_, event, _⟩ := t
  cases event <;> dsimp only [Recordable] <;> infer_instance

structure Loadable (own : NodeId) (m : MembershipState) : Prop where
  nodes : ∀ (id : NodeId) (record : RosterRecord), m.nodes[id]? = some record →
    record.info.id = id ∧ loadsNode own record.info = true
  resets : ∀ (k : ByteString) (reset : IdentityAssociationReset),
    m.identityResets[k]? = some reset → loadsReset reset = true

section

variable {self : NodeId} {forgetAfter : Nat} {w v : MembershipWorld} {m : MembershipState}

theorem Loadable.filter (h : Loadable self m) (f : NodeId → RosterRecord → Bool) :
    Loadable self { m with nodes := m.nodes.filter f } := by
  refine ⟨fun id record hrecord => ?_, h.resets⟩
  rw [OrdMap.getElem?_filter] at hrecord
  exact h.nodes id record (filter_eq_some_iff.1 hrecord).1

theorem Loadable.map (h : Loadable self m) {f : RosterRecord → RosterRecord}
    (hf : ∀ r, (f r).info.id = r.info.id ∧ loadsNode self (f r).info = loadsNode self r.info) :
    Loadable self { m with nodes := m.nodes.map fun _ => f } := by
  refine ⟨fun id record hrecord => ?_, h.resets⟩
  rw [Std.ExtTreeMap.getElem?_map] at hrecord
  obtain ⟨old, hold, rfl⟩ := map_eq_some_iff.1 hrecord
  rw [(hf old).1, (hf old).2]
  exact h.nodes id old hold

theorem loadKnown_encodeKnown (h : Loadable self m)
    (hkeyed : ∀ k (stored : IdentityAssociationReset),
      m.identityResets[k]? = some stored → stored.key = k) :
    loadKnown self m.encodeKnown = some
      { nodes := (filed m).filter fun _ record => !retired m.identityResets record.info
        identityResets := m.identityResets } := by
  have hids (x : NodeId × RosterRecord) (hx : x ∈ m.nodes.toList) : x.2.info.id = x.1 :=
    (h.nodes x.1 x.2 ((OrdMap.mem_toList _ _ _).1 hx)).1
  have hkeys (x : ByteString × IdentityAssociationReset) (hx : x ∈ m.identityResets.toList) :
      x.2.key = x.1 := hkeyed x.1 x.2 ((OrdMap.mem_toList _ _ _).1 hx)
  have hnodes : (m.encodeKnown.nodes.all fun entry => loadsNode self entry.1) = true := by
    simp only [encodeKnown, List.all_map, List.all_eq_true]
    exact fun x hx => (h.nodes x.1 x.2 ((OrdMap.mem_toList _ _ _).1 hx)).2
  have hresets : m.encodeKnown.identityResets.all loadsReset = true := by
    simp only [encodeKnown, List.all_map, List.all_eq_true]
    exact fun x hx => h.resets x.1 x.2 ((OrdMap.mem_toList _ _ _).1 hx)
  unfold loadKnown
  rw [guard_of ⟨hnodes, nodup_items hids⟩, guard_of ⟨hresets, nodup_items hkeys⟩]
  have hmade : m.encodeKnown.nodes.foldl
      (fun all entry => all.insert entry.1.id ⟨entry.1, entry.2, entry.2⟩) ∅ = filed m :=
    foldl_insert_items hids (fun _ => rfl) fun _ => Std.ExtTreeMap.getElem?_map
  have hkept : m.encodeKnown.identityResets.foldl (fun all reset => all.insert reset.key reset) ∅ =
      m.identityResets := foldl_insert_items (g := id) hkeys (fun _ => rfl) (by simp)
  show some (MembershipState.mk _ _) = _
  rw [hmade, hkept]

theorem Loadable.observe {node : NodeInfo} {direct : Bool} {wall : Nat} (h : Loadable self m)
    (hhost : node.host.length ≤ 4096) (hdomain : node.failureDomain.length ≤ 4096)
    (hid : node.id ≠ 0) : Loadable self (m.observe self forgetAfter node direct wall).1 := by
  have hinsert r (hr : r.info.id = node.id ∧ loadsNode self r.info = true) :
      Loadable self { m with nodes := m.nodes.insert node.id r } := by
    refine ⟨fun id record hrecord => ?_, h.resets⟩
    rcases getElem?_insert_eq_some hrecord with ⟨rfl, rfl⟩ | ⟨-, hrecord⟩
    · exact hr
    · exact h.nodes id record hrecord
  unfold MembershipState.observe
  split
  · exact h
  · next hcomplete =>
    have hnode : loadsNode self node = true := by
      simp only [not_or] at hcomplete
      simp only [loadsNode, decide_eq_true_eq]
      exact ⟨hhost, hdomain, hid, hcomplete.2.2, hcomplete.1, hcomplete.2.1⟩
    split
    · exact h
    split
    · split
      · exact h
      · exact hinsert _ ⟨rfl, hnode⟩
    · next record hrecord =>
      dsimp only
      split
      · refine hinsert _ ?_
        split
        · exact ⟨rfl, hnode⟩
        · exact h.nodes node.id record hrecord
      · exact h

/-- Memory, and what was encoded last, can be loaded. -/
def Recorded (self : NodeId) (w : MembershipWorld) : Prop :=
  Loadable self w.memory ∧ ∀ m ∈ w.recorded, Loadable self m

theorem recorded_settle {write : Bool} (h : w.Recorded self) (hm : Loadable self m) :
    (w.settle m write).Recorded self := by
  unfold settle
  split
  · exact ⟨hm.map fun _ => ⟨rfl, rfl⟩, by simpa using hm⟩
  · exact ⟨hm, h.2⟩

theorem recorded_step {event : MembershipEvent} (hfiled : w.Filed) (h : w.Recorded self)
    (hstep : Computes (step self forgetAfter) w event v) (hinput : Recordable ⟨w, event, v⟩) :
    v.Recorded self := by
  cases event with
  | observe node direct wall =>
    cases hstep
    exact recorded_settle h (h.1.observe hinput.1 hinput.2.1 hinput.2.2)
  | applyIdentityReset reset =>
    obtain ⟨m, hm, hstep⟩ := bind_eq_some_iff.1 hstep
    obtain ⟨hcomplete, hm⟩ := guard_bind_eq_some hm
    obtain ⟨-, hm⟩ := guard_bind_eq_some hm
    cases hm
    cases hstep
    refine @recorded_settle self { w with applied := _ } _ true h
      ⟨(h.1.filter _).nodes, fun k stored hstored => ?_⟩
    rcases getElem?_insert_eq_some hstored with ⟨-, rfl⟩ | ⟨-, hstored⟩
    · simp only [loadsReset, decide_eq_true_eq]
      exact ⟨hinput.1, hinput.2, hcomplete⟩
    · exact h.1.resets k stored hstored
  | forgetUnseen silent wall =>
    cases hstep
    exact recorded_settle h (h.1.filter _)
  | writeKnown sequence =>
    obtain ⟨roster, -, hstep⟩ := bind_eq_some_iff.1 hstep
    cases hstep
    split <;> exact h
  | restart =>
    obtain ⟨-, hresets, hv, ⟨hnone, hempty⟩ | ⟨m, hm, hload⟩⟩ := restart_eq hfiled hstep
    · rw [hv, hempty]
      exact ⟨⟨by simp, by simp⟩, h.2⟩
    · have hkeyed := hfiled.keyed
      rw [← hfiled.resets, hm] at hkeyed
      rw [loadKnown_encodeKnown (h.2 m hm) hkeyed] at hload
      rw [hv, ← some_inj.1 hload]
      have hfile : Loadable self { m with nodes := filed m } := (h.2 m hm).map fun _ => ⟨rfl, rfl⟩
      exact ⟨hfile.filter _, h.2⟩

/-- What the roster records can be loaded, after every run of a node from its start in which
no node with the zero id is observed. -/
theorem roster_loads {trace : List (Transition MembershipWorld MembershipEvent)}
    {last : MembershipWorld} (run : Run (Traced (Computes (step self forgetAfter))) {} trace last)
    (hinputs : Always (fun _ t => Recordable t) trace) : last.Loads self := by
  obtain ⟨hfiled, -, hrecorded⟩ := run.invariant_of_always
    (P := fun w => w.Filed ∧ w.Recorded self) hinputs
    ⟨filed_start, ⟨by simp, by simp⟩, by simp⟩ fun _ _ _ hstep h hinput =>
      ⟨filed_step h.1 hstep, recorded_step h.1 h.2 hstep hinput⟩
  intro hidle
  have hresets := hfiled.resets
  have hkeyed := hfiled.keyed
  rw [hfiled.file_eq hidle]
  cases hm : last.recorded with
  | none =>
    rw [hm] at hresets
    rw [← hresets]
    rfl
  | some m =>
    rw [hm] at hresets
    rw [← hresets] at hkeyed ⊢
    exact loadKnown_encodeKnown (hrecorded m hm) hkeyed

end

namespace ZeroId

/-- A node that gossip gives the zero id. -/
def events (id : NodeId) : List MembershipEvent :=
  [.observe { id := id, host := bytes "nas", port := 1, seenUnixMs := 50 } false 60, .writeKnown 1]

/-- The roster is written and no node starts from it. -/
theorem zero_id_unloadable : ∃ trace last, Run (Traced (Computes (step 1 1000))) {} trace last ∧
      trace.map (·.event) = events 0 ∧ last.pending = ∅ ∧
      last.file.elim (some {}) (loadKnown 1) = none := by
  have hruns : (((events 0).foldlM (step 1 1000) {}).any fun last =>
      decide (last.pending = ∅) && (last.file.elim (some {}) (loadKnown 1)).isNone) = true := by
    decide +kernel
  obtain ⟨last, hlast, hbad⟩ := (Option.any_eq_true _ _).1 hruns
  obtain ⟨trace, run, hevents⟩ := exists_run hlast
  obtain ⟨hidle, hnone⟩ := Bool.and_eq_true_iff.1 hbad
  exact ⟨trace, last, run, hevents, of_decide_eq_true hidle, isNone_iff_eq_none.1 hnone⟩

theorem named_id_loads : ∃ trace last, Run (Traced (Computes (step 1 1000))) {} trace last ∧
      trace.map (·.event) = events 7 ∧ last.Loads 1 := by
  have hruns : ((events 7).foldlM (checkedStep (step 1 1000) Recordable) {}).isSome = true := by
    decide +kernel
  obtain ⟨last, hlast⟩ := isSome_iff_exists.1 hruns
  obtain ⟨trace, run, halways, hevents⟩ := exists_checked_run hlast
  exact ⟨trace, last, run, hevents, roster_loads run halways⟩

end ZeroId

end MembershipWorld

end Macha
