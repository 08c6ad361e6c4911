import Macha.Metadata.AcceptedHeads

/-!
# Heads set aside

An accepted head whose content cannot be had is set aside: it stays accepted and is not
worked on. When it was first set aside is kept on disk, and a head that has been set aside
for the horizon is dropped. The marks follow the accepted heads, which other calls replace.
-/

namespace Macha

open List OrdMap

/-- The marks with the generations of their heads, and when each mark was first made. -/
structure AsideReplica where
  heads : HeadsReplica := {}
  setAside : OrdMap Hash256 Nat := ∅
  setAsideSince : OrdMap Hash256 Nat := ∅

inductive AsideEvent where
  /-- `accept_commit`, and what else changes the history and the accepted heads. -/
  | heads (event : HeadsEvent)
  | setAside (hash : Hash256) (nowUnixMs : Nat)
  | expireSetAside (nowUnixMs horizon : Nat)
  | clearSetAside

namespace AsideReplica

abbrev accepted (s : AsideReplica) : AcceptedHeads := s.heads.acceptedHeads

/-- What `refresh_materialized_head_in_memory_locked` does to the marks, before it looks for
a head to materialise. -/
def refresh (s : AsideReplica) : AsideReplica :=
  if s.accepted.isEmpty then s
  else
    let marks := s.setAside.filter fun hash _ => (s.accepted[hash]?).isSome
    { s with setAside := if s.accepted.size ≤ marks.size then ∅ else marks }

/-- The heads replaced, and the marks refreshed if that changed them. -/
def replaceHeads (s : AsideReplica) (heads : HeadsReplica) : AsideReplica :=
  if heads.acceptedHeads = s.accepted then { s with heads := heads }
  else refresh { s with heads := heads }

/-- `set_aside`, unless it returns false. -/
def mark (s : AsideReplica) (hash : Hash256) (nowUnixMs : Nat) : Option AsideReplica := do
  let held ← s.accepted[hash]?
  guard (s.setAside.size + 1 < s.accepted.size)
  some (refresh { s with
    setAside := s.setAside.insertIfNew hash held.generation
    setAsideSince := s.setAsideSince.insertIfNew hash nowUnixMs })

/-- One turn of the loop of `expire_set_aside`. -/
def expireTurn (nowUnixMs horizon : Nat) (s : AsideReplica) (entry : Hash256 × Nat) :
    AsideReplica :=
  if (s.accepted[entry.1]?).isSome = false then
    { s with setAsideSince := s.setAsideSince.erase entry.1 }
  else if (s.setAside[entry.1]?).isSome = true ∧ 1 < s.accepted.size ∧ entry.2 ≤ nowUnixMs ∧
      horizon ≤ nowUnixMs - entry.2 then
    { heads := { s.heads with acceptedHeads := s.accepted.erase entry.1 }
      setAside := s.setAside.erase entry.1
      setAsideSince := s.setAsideSince.erase entry.1 }
  else s

/-- `expire_set_aside`; the marks are refreshed if a head was dropped. -/
def expire (s : AsideReplica) (nowUnixMs horizon : Nat) : AsideReplica :=
  let left := s.setAsideSince.toList.foldl (expireTurn nowUnixMs horizon) s
  if left.accepted.size = s.accepted.size then left else refresh left

def step (g : CommitGraph) (s : AsideReplica) : AsideEvent → Option AsideReplica
  | .heads event => (s.heads.step g event).map s.replaceHeads
  | .setAside hash nowUnixMs => s.mark hash nowUnixMs
  | .expireSetAside nowUnixMs horizon => some (s.expire nowUnixMs horizon)
  | .clearSetAside =>
    some (if s.setAside.isEmpty then s else refresh { s with setAside := ∅ })

/-- When a head was first set aside: the first call after the head was last dropped, or
found no longer accepted, by an expiry; before any call, what was on disk at the start. -/
def firstAside (start : AsideReplica) (past : List (Transition AsideReplica AsideEvent))
    (hash : Hash256) : Option Nat :=
  past.foldl (fun first t => match t.event with
    | .setAside marked nowUnixMs => if marked = hash then first.or (some nowUnixMs) else first
    | .expireSetAside _ _ => if (t.after.accepted[hash]?).isSome = true then first else none
    | _ => first) start.setAsideSince[hash]?

/-- There are fewer marks than accepted heads, if any is accepted. -/
def Marked (s : AsideReplica) : Prop :=
  s.accepted ≠ ∅ → s.setAside.size < s.accepted.size

theorem Marked.exists_usable {s : AsideReplica} (h : s.Marked) (hne : s.accepted ≠ ∅) :
    ∃ hash : Hash256, (s.accepted[hash]?).isSome = true ∧ s.setAside[hash]? = none := by
  by_contra hnone
  push Not at hnone
  have hsub : s.accepted.keys ⊆ s.setAside.keys := by
    intro hash hmem
    have hheld := (OrdMap.mem_keys _ _).1 hmem
    exact (OrdMap.mem_keys _ _).2 (Option.isSome_iff_ne_none.2 (hnone hash hheld))
  have hle := (s.accepted.nodup_keys.subperm hsub).length_le
  rw [Std.ExtTreeMap.length_keys, Std.ExtTreeMap.length_keys] at hle
  have := h hne
  omega

theorem size_pos {m : AcceptedHeads} (h : m ≠ ∅) : 0 < m.size := by
  refine Nat.pos_of_ne_zero fun hsize => h ?_
  rwa [← Std.ExtTreeMap.eq_empty_iff_size_eq_zero] at hsize

theorem marked_refresh (s : AsideReplica) : s.refresh.Marked := by
  unfold refresh
  split
  · next hempty => exact fun hne => absurd (Std.ExtTreeMap.isEmpty_iff.1 hempty) hne
  · intro hne
    dsimp only at hne ⊢
    split
    · exact size_pos hne
    · next hfew => exact Nat.lt_of_not_le hfew

@[simp]
theorem refresh_heads (s : AsideReplica) : s.refresh.heads = s.heads := by
  unfold refresh
  split <;> rfl

@[simp]
theorem refresh_since (s : AsideReplica) : s.refresh.setAsideSince = s.setAsideSince := by
  unfold refresh
  split <;> rfl

section

variable {nowUnixMs horizon : Nat} {s : AsideReplica} {hash : Hash256}
  {entries : List (Hash256 × Nat)}

def view (s : AsideReplica) (hash : Hash256) :
    Option MetadataAcceptance × Option Nat × Option Nat :=
  (s.accepted[hash]?, s.setAside[hash]?, s.setAsideSince[hash]?)

theorem view_expireTurn {entry : Hash256 × Nat} (h : entry.1 ≠ hash) :
    (expireTurn nowUnixMs horizon s entry).view hash = s.view hash := by
  unfold expireTurn
  split
  · simp only [view, getElem?_erase_of_ne _ h]
  · split
    · simp only [view, getElem?_erase_of_ne _ h]
    · rfl

theorem view_expireTurns (h : ∀ entry ∈ entries, entry.1 ≠ hash) :
    (entries.foldl (expireTurn nowUnixMs horizon) s).view hash = s.view hash := by
  induction entries generalizing s with
  | nil => rfl
  | cons entry entries ih =>
    obtain ⟨hfirst, hrest⟩ := forall_mem_cons.1 h
    rw [foldl_cons, ih hrest, view_expireTurn hfirst]

theorem exists_turn {since : Nat} (hmem : (hash, since) ∈ entries)
    (hdistinct : entries.Pairwise fun x y => x.1 ≠ y.1) :
    ∃ u : AsideReplica, u.view hash = s.view hash ∧
      (entries.foldl (expireTurn nowUnixMs horizon) s).view hash =
        (expireTurn nowUnixMs horizon u (hash, since)).view hash := by
  induction entries generalizing s with
  | nil => cases hmem
  | cons entry entries ih =>
    obtain ⟨hfirst, hrest⟩ := pairwise_cons.1 hdistinct
    rcases mem_cons.1 hmem with rfl | hmem
    · exact ⟨s, rfl, view_expireTurns fun other hother => (hfirst other hother).symm⟩
    · obtain ⟨u, hview, hturn⟩ := ih (s := expireTurn nowUnixMs horizon s entry) hmem hrest
      exact ⟨u, hview.trans (view_expireTurn (hfirst _ hmem)), hturn⟩

theorem expireTurn_keeps (entry : Hash256 × Nat) (h : s.Marked) :
    (s.accepted ≠ ∅ → (expireTurn nowUnixMs horizon s entry).accepted ≠ ∅) ∧
      (expireTurn nowUnixMs horizon s entry).Marked := by
  unfold expireTurn
  split
  · exact ⟨id, h⟩
  · next hheld =>
    split
    · next hexpired =>
      have hheads : (s.accepted.erase entry.1).size = s.accepted.size - 1 := by
        rw [Std.ExtTreeMap.size_erase, if_pos (by simpa using hheld)]
      have hmarks : (s.setAside.erase entry.1).size = s.setAside.size - 1 := by
        rw [Std.ExtTreeMap.size_erase, if_pos (by simpa using hexpired.1)]
      refine ⟨fun _ hnone => ?_, fun hne => ?_⟩
      · have hsize : (s.accepted.erase entry.1).size = 0 := by
          rw [show s.accepted.erase entry.1 = ∅ from hnone]
          exact Std.ExtTreeMap.size_empty
        omega
      · have hfewer := h fun hnone => by simp [hnone] at hheld
        show (s.setAside.erase entry.1).size < (s.accepted.erase entry.1).size
        omega
    · exact ⟨id, h⟩

theorem expireTurns_keep (h : s.Marked) :
    (s.accepted ≠ ∅ → (entries.foldl (expireTurn nowUnixMs horizon) s).accepted ≠ ∅) ∧
      (entries.foldl (expireTurn nowUnixMs horizon) s).Marked := by
  induction entries generalizing s with
  | nil => exact ⟨id, h⟩
  | cons entry entries ih =>
    obtain ⟨hturn, hmarked⟩ := expireTurn_keeps entry h
    exact ⟨fun hne => (ih hmarked).1 (hturn hne), (ih hmarked).2⟩

/-- A head with a recorded time is dropped, being set aside for the horizon, or it loses the
time of a mark it no longer needs, or nothing happens to it. -/
theorem expire_at (s : AsideReplica) (nowUnixMs horizon : Nat) (hash : Hash256) :
    let left := s.setAsideSince.toList.foldl (expireTurn nowUnixMs horizon) s
    (left.setAsideSince[hash]? =
        if (left.accepted[hash]?).isSome = true then s.setAsideSince[hash]? else none) ∧
      ((s.accepted[hash]?).isSome = true → left.accepted[hash]? = none →
        (s.setAside[hash]?).isSome = true ∧
          ∃ since, s.setAsideSince[hash]? = some since ∧ since + horizon ≤ nowUnixMs) := by
  intro left
  cases hsince : s.setAsideSince[hash]? with
  | none =>
    have hview : left.view hash = s.view hash := view_expireTurns fun entry hentry heq => by
      rw [← heq, (OrdMap.mem_toList _ _ _).1 hentry] at hsince
      cases hsince
    simp only [view, Prod.mk.injEq] at hview
    refine ⟨by rw [hview.2.2, hsince, ite_self], fun hheld hgone => ?_⟩
    rw [← hview.1, hgone] at hheld
    cases hheld
  | some since =>
    obtain ⟨u, hu, hleft⟩ : ∃ u : AsideReplica, u.view hash = s.view hash ∧
        left.view hash = (expireTurn nowUnixMs horizon u (hash, since)).view hash :=
      exists_turn ((OrdMap.mem_toList _ _ _).2 hsince) (toList_pairwise_ne _)
    clear_value left
    simp only [view, Prod.mk.injEq, hsince] at hu
    unfold expireTurn at hleft
    split at hleft
    · next hheld =>
      simp only [view, Prod.mk.injEq, getElem?_erase, if_true] at hleft
      rw [hleft.1, hleft.2.2, hheld]
      refine ⟨rfl, fun hbefore => ?_⟩
      rw [← hu.1, hheld] at hbefore
      cases hbefore
    · next hheld =>
      split at hleft
      · next hexpired =>
        simp only [view, Prod.mk.injEq, getElem?_erase, if_true] at hleft
        have hgone : left.accepted[hash]? = none :=
          hleft.1.trans (by rw [accepted, getElem?_erase, if_pos rfl])
        rw [hgone, hleft.2.2, ← hu.2.1]
        exact ⟨rfl, fun _ _ => ⟨hexpired.1, since, rfl, by omega⟩⟩
      · simp only [view, Prod.mk.injEq] at hleft
        rw [Bool.not_eq_false] at hheld
        rw [hleft.1, hleft.2.2, hheld, hu.2.2]
        refine ⟨rfl, fun _ hgone => ?_⟩
        rw [hgone] at hheld
        cases hheld

theorem expire_eq (s : AsideReplica) (nowUnixMs horizon : Nat) :
    let left := s.setAsideSince.toList.foldl (expireTurn nowUnixMs horizon) s
    (s.expire nowUnixMs horizon).heads = left.heads ∧
      (s.expire nowUnixMs horizon).setAsideSince = left.setAsideSince := by
  intro left
  unfold expire
  dsimp only
  split <;> simp [left]

theorem expire_keeps (h : s.Marked) : (s.accepted ≠ ∅ → (s.expire nowUnixMs horizon).accepted ≠ ∅) ∧
      (s.expire nowUnixMs horizon).Marked := by
  obtain ⟨hleft, hmarked⟩ := @expireTurns_keep nowUnixMs horizon s s.setAsideSince.toList h
  refine ⟨fun hne => ?_, ?_⟩
  · rw [accepted, (expire_eq s nowUnixMs horizon).1]
    exact hleft hne
  · unfold expire
    dsimp only
    split
    · exact hmarked
    · exact marked_refresh _

end

theorem marked_step {g : CommitGraph} {s t : AsideReplica} {event : AsideEvent} (h : s.Marked)
    (hstep : Computes (step g) s event t) : t.Marked := by
  cases event with
  | heads event =>
    obtain ⟨heads, -, rfl⟩ := Option.map_eq_some_iff.1 hstep
    unfold replaceHeads
    split
    · next hsame => exact fun hne => by simpa only [accepted, hsame] using h (hsame ▸ hne)
    · exact marked_refresh _
  | setAside hash nowUnixMs =>
    obtain ⟨held, -, hstep⟩ := Option.bind_eq_some_iff.1 hstep
    obtain ⟨-, hstep⟩ := guard_bind_eq_some hstep
    cases hstep
    exact marked_refresh _
  | expireSetAside nowUnixMs horizon =>
    cases hstep
    exact (expire_keeps h).2
  | clearSetAside =>
    cases hstep
    split
    · exact h
    · exact marked_refresh _

theorem since_step {g : CommitGraph} {start s t : AsideReplica} {event : AsideEvent}
    {past : List (Transition AsideReplica AsideEvent)}
    (h : ∀ hash : Hash256, s.setAsideSince[hash]? = firstAside start past hash)
    (hstep : Computes (step g) s event t) (hash : Hash256) :
    t.setAsideSince[hash]? = firstAside start (past ++ [⟨s, event, t⟩]) hash := by
  rw [firstAside, foldl_append, ← firstAside, ← h hash]
  simp only [foldl_cons, foldl_nil]
  cases event with
  | heads event =>
    obtain ⟨heads, -, rfl⟩ := Option.map_eq_some_iff.1 hstep
    unfold replaceHeads
    split <;> simp
  | setAside marked nowUnixMs =>
    obtain ⟨held, -, hstep⟩ := Option.bind_eq_some_iff.1 hstep
    obtain ⟨-, hstep⟩ := guard_bind_eq_some hstep
    cases hstep
    rw [refresh_since, getElem?_insertIfNew]
    by_cases hmarked : marked = hash
    · subst hmarked
      cases s.setAsideSince[marked]? <;> simp
    · simp [hmarked]
  | expireSetAside nowUnixMs horizon =>
    cases hstep
    obtain ⟨hheads, hsince⟩ := expire_eq s nowUnixMs horizon
    rw [accepted, hheads, hsince]
    exact (expire_at s nowUnixMs horizon hash).1
  | clearSetAside =>
    cases hstep
    split <;> simp

/-- What a step must leave, given the steps before it: a head that is not set aside, if any
is accepted; and where it is an expiry, the last head, and every head that is not set aside
or was first set aside less than the horizon ago. -/
structure HeadKept (start : AsideReplica) (past : List (Transition AsideReplica AsideEvent))
    (t : Transition AsideReplica AsideEvent) : Prop where
  usable : t.after.accepted ≠ ∅ → ∃ hash : Hash256, (t.after.accepted[hash]?).isSome = true ∧
    t.after.setAside[hash]? = none
  last : ∀ nowUnixMs horizon, t.event = .expireSetAside nowUnixMs horizon →
    t.before.accepted ≠ ∅ → t.after.accepted ≠ ∅
  overdue : ∀ nowUnixMs horizon, t.event = .expireSetAside nowUnixMs horizon →
    ∀ hash : Hash256, (t.before.accepted[hash]?).isSome = true → t.after.accepted[hash]? = none →
      (t.before.setAside[hash]?).isSome = true ∧
        ∃ first, firstAside start past hash = some first ∧ first + horizon ≤ nowUnixMs

/-- Along every run from a replica with nothing set aside, with any clock values. -/
theorem usable_head_kept {g : CommitGraph} {start last : AsideReplica}
    {trace : List (Transition AsideReplica AsideEvent)} (hstart : start.setAside = ∅)
    (run : Run (Traced (Computes (step g))) start trace last) :
    Always (HeadKept start) trace := by
  have hall : (last.Marked ∧ ∀ hash, last.setAsideSince[hash]? = firstAside start trace hash) ∧
      Always (HeadKept start) trace := by
    induction run with
    | refl =>
      exact ⟨⟨fun hne => by simpa [hstart] using size_pos hne, fun _ => rfl⟩, always_nil _⟩
    | @snoc past s t transition run hstep ih =>
      obtain ⟨_, event, _⟩ := transition
      obtain ⟨hstep, hbefore, hafter⟩ := hstep
      dsimp only at hstep hbefore hafter
      subst hbefore hafter
      obtain ⟨⟨hmarked, hsince⟩, hpast⟩ := ih
      have hnext := marked_step hmarked hstep
      refine ⟨⟨hnext, since_step hsince hstep⟩, always_snoc.2 ⟨hpast, hnext.exists_usable, ?_, ?_⟩⟩
      · rintro nowUnixMs horizon rfl hne
        cases hstep
        exact (expire_keeps hmarked).1 hne
      · rintro nowUnixMs horizon rfl hash hheld hgone
        cases hstep
        rw [accepted, (expire_eq _ nowUnixMs horizon).1] at hgone
        rw [← hsince]
        exact (expire_at _ nowUnixMs horizon hash).2 hheld hgone
  exact hall.2

/-- Two heads, one of them set aside and dropped when the horizon has passed. -/
def twoHeads : AsideReplica where
  heads :=
    { acceptedHeads := ((∅ : AcceptedHeads).insert [5] (FewCommits.certificate [5])).insert [6]
        (FewCommits.certificate [6]) }

theorem usable_head_kept_dropped :
    ∃ trace last, Run (Traced (Computes (step FewCommits.graph))) twoHeads trace last ∧
      trace.map (·.event) = [.setAside [5] 7, .expireSetAside 20 10] ∧
      last.accepted.keys = [[6]] ∧ Always (HeadKept twoHeads) trace := by
  have hruns : (([.setAside [5] 7, .expireSetAside 20 10].foldlM (step FewCommits.graph)
      twoHeads).any fun last => decide (last.accepted.keys = [[6]])) = true := by decide +kernel
  obtain ⟨last, hlast, hkeys⟩ := (Option.any_eq_true _ _).1 hruns
  obtain ⟨trace, run, hevents⟩ := exists_run hlast
  exact ⟨trace, last, run, hevents, of_decide_eq_true hkeys, usable_head_kept rfl run⟩

end AsideReplica

end Macha
