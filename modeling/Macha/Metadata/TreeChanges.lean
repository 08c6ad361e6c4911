import Macha.Library.Collect
import Macha.Metadata.Tree

/-!
# The nodes a commit introduced

`collect_namespace_tree_changes` walks two trees together and lists the nodes of
the new one that the old one does not share. Where it prunes, the old tree has
the pruned node; so every node that it does not list is still claimed.
-/

namespace Macha

open List Option

section

variable (store : NodeStore)

/-- `collect_extent_spine`: every node of a spine. -/
def collectExtentSpine : Nat → ObjectId → Option (List ObjectId)
  | 0, _ => none
  | fuel + 1, id =>
    match store id with
    | some (.extentLeaf _) => some [id]
    | some (.extentBranch _ children) => do
      let below ← children.mapM fun child => collectExtentSpine fuel child.id
      some (id :: below.flatten)
    | _ => none

/-- The extent roots a changed leaf's counterpart named; none if it is not a
leaf that can be read. -/
def namedRoots (before : Option ObjectId) : List ObjectId :=
  match before.bind store with
  | some (.leaf records) => records.filterMap LeafRecord.extentRoot
  | _ => []

def oldChildren (before : Option ObjectId) : Option (List TreeChild) :=
  match before.bind store with
  | some (.branch _ children) => some children
  | _ => none

/-- The last old child that starts at or before the key. -/
def counterpart (old : List TreeChild) (key : ByteString) : Option ObjectId :=
  (old.filter fun child => child.firstKey ≤ key).getLast?.map TreeChild.id

/-- The children that are not on the old side, each with its counterpart. -/
def changedChildren (old : Option (List TreeChild)) (children : List TreeChild) :
    List (ObjectId × Option ObjectId) :=
  match old with
  | none => children.map fun child => (child.id, none)
  | some old =>
    (children.filter fun child => child.id ∉ old.map TreeChild.id).map fun child =>
      (child.id, counterpart old child.firstKey)

def collectChanged : Nat → ObjectId → Option ObjectId → Option (List ObjectId)
  | 0, _, _ => none
  | fuel + 1, after, before =>
    if before = some after then some []
    else
      match store after with
      | some (.leaf records) => do
        let roots := (records.filterMap LeafRecord.extentRoot).filter
          (· ∉ namedRoots store before)
        let below ← roots.mapM (collectExtentSpine store fuel)
        some (after :: below.flatten)
      | some (.branch _ children) => do
        let below ← (changedChildren (oldChildren store before) children).mapM
          fun (child, old) => collectChanged fuel child old
        some (after :: below.flatten)
      | _ => none

def collectNamespaceTreeChanges (fuel : Nat) (before : Option ObjectId) (after : ObjectId) :
    Option (List ObjectId) :=
  collectChanged store fuel after before

end

section

variable {store : NodeStore} {id : ObjectId}

theorem collectExtentSpine_isSome (h : SpineReadable store id) :
    ∃ bound, ∀ fuel ≥ bound, (collectExtentSpine store fuel id).isSome = true := by
  induction h with
  | leaf h =>
    refine ⟨1, fun fuel hfuel => ?_⟩
    obtain ⟨fuel, rfl⟩ := Nat.exists_eq_add_of_le' hfuel
    simp [collectExtentSpine, h]
  | @branch id level children h _ ih =>
    obtain ⟨bound, hbound⟩ := exists_bound ih
    refine ⟨bound + 1, fun fuel hfuel => ?_⟩
    obtain ⟨fuel, rfl⟩ := Nat.exists_eq_add_of_le' (Nat.le_trans (Nat.le_add_left 1 bound) hfuel)
    obtain ⟨below, hbelow⟩ := isSome_iff_exists.1
      (mapM_isSome (hbound fuel (by omega)))
    simp [collectExtentSpine, h, hbelow]

variable {children old : List TreeChild} {after n : ObjectId} {out : List ObjectId}

theorem mem_of_mem_changedChildren {old : Option (List TreeChild)}
    {pair : ObjectId × Option ObjectId} (h : pair ∈ changedChildren old children) :
    ∃ child ∈ children, child.id = pair.1 := by
  unfold changedChildren at h
  split at h
  · obtain ⟨child, hchild, rfl⟩ := List.mem_map.1 h
    exact ⟨child, hchild, rfl⟩
  · obtain ⟨child, hchild, rfl⟩ := List.mem_map.1 h
    exact ⟨child, mem_of_mem_filter hchild, rfl⟩

theorem collectChanged_isSome (h : TreeReadable store after) :
    ∃ bound, ∀ fuel ≥ bound, ∀ before, (collectChanged store fuel after before).isSome = true := by
  induction h with
  | @leaf id records h hspines =>
    have hroots : ∀ root ∈ records.filterMap LeafRecord.extentRoot,
        ∃ bound, ∀ fuel ≥ bound, (collectExtentSpine store fuel root).isSome = true := by
      intro root hroot
      obtain ⟨record, hrecord, hroot⟩ := mem_filterMap.1 hroot
      exact collectExtentSpine_isSome (hspines record hrecord root hroot)
    obtain ⟨bound, hbound⟩ := exists_bound hroots
    refine ⟨bound + 1, fun fuel hfuel before => ?_⟩
    obtain ⟨fuel, rfl⟩ := Nat.exists_eq_add_of_le' (Nat.le_trans (Nat.le_add_left 1 bound) hfuel)
    unfold collectChanged
    split
    · rfl
    · obtain ⟨below, hbelow⟩ := isSome_iff_exists.1 (mapM_isSome
        fun root hroot => hbound fuel (by omega) root (mem_of_mem_filter hroot))
      rw [h]
      dsimp only
      rw [hbelow]
      rfl
  | @branch id level children h _ ih =>
    obtain ⟨bound, hbound⟩ := exists_bound ih
    refine ⟨bound + 1, fun fuel hfuel before => ?_⟩
    obtain ⟨fuel, rfl⟩ := Nat.exists_eq_add_of_le' (Nat.le_trans (Nat.le_add_left 1 bound) hfuel)
    unfold collectChanged
    split
    · rfl
    · have hall : ∀ pair ∈ changedChildren (oldChildren store before) children,
          (collectChanged store fuel pair.1 pair.2).isSome = true := by
        intro pair hpair
        obtain ⟨child, hchild, hid⟩ := mem_of_mem_changedChildren hpair
        rw [← hid]
        exact hbound fuel (by omega) child hchild pair.2
      obtain ⟨below, hbelow⟩ := isSome_iff_exists.1 (mapM_isSome hall)
      rw [h]
      dsimp only
      rw [hbelow]
      rfl

theorem collectExtentSpine_complete {fuel : Nat} (h : collectExtentSpine store fuel id = some out)
    (hn : Reaches store id n) :
    n ∈ out := by
  induction fuel generalizing id out with
  | zero => cases h
  | succ fuel ih =>
    unfold collectExtentSpine at h
    split at h
    · next extents hid =>
      cases h
      rcases hn.cases hid with rfl | ⟨child, hchild, -⟩
      · exact mem_singleton.2 rfl
      · cases hchild
    · next level children hid =>
      obtain ⟨below, hbelow, h⟩ := bind_eq_some_iff.1 h
      cases h
      rcases hn.cases hid with rfl | ⟨child, hchild, hn⟩
      · exact mem_cons_self
      · obtain ⟨c, hc, rfl⟩ := List.mem_map.1 hchild
        obtain ⟨ys, hys, hmem⟩ := mem_flatten_of_mapM hbelow hc
        exact mem_cons_of_mem _ (hmem n (ih hys hn))
    · cases h

variable {before : Option ObjectId}

theorem reaches_of_mem_namedRoots {root n : ObjectId} (h : root ∈ namedRoots store before)
    (hn : Reaches store root n) :
    ∃ b, before = some b ∧ Reaches store b n := by
  unfold namedRoots at h
  split at h
  · next records hread =>
    obtain ⟨b, hb, hread⟩ := bind_eq_some_iff.1 hread
    exact ⟨b, hb, .of_child hread h hn⟩
  · cases h

theorem oldChildren_eq_some (h : oldChildren store before = some old) :
    ∃ b level, before = some b ∧ store b = some (.branch level old) := by
  unfold oldChildren at h
  split at h
  · next level children hread =>
    cases h
    obtain ⟨b, hb, hread⟩ := bind_eq_some_iff.1 hread
    exact ⟨b, level, hb, hread⟩
  · cases h

theorem mem_of_counterpart {key : ByteString} (h : counterpart old key = some id) :
    id ∈ old.map TreeChild.id := by
  obtain ⟨child, hlast, rfl⟩ := map_eq_some_iff.1 h
  exact List.mem_map.2 ⟨child, mem_of_mem_filter (mem_of_getLast? hlast), rfl⟩

theorem child_cases {child : TreeChild} (h : child ∈ children) :
    (∃ b, before = some b ∧ NodeNames store b child.id) ∨
      ∃ old, (child.id, old) ∈ changedChildren (oldChildren store before) children ∧
        ∀ o, old = some o → ∃ b, before = some b ∧ NodeNames store b o := by
  cases hold : oldChildren store before with
  | none =>
    right
    exact ⟨none, List.mem_map.2 ⟨child, h, rfl⟩, nofun⟩
  | some old =>
    obtain ⟨b, level, hb, hread⟩ := oldChildren_eq_some hold
    by_cases hshared : child.id ∈ old.map TreeChild.id
    · left
      exact ⟨b, hb, _, hread, hshared⟩
    · right
      refine ⟨counterpart old child.firstKey, List.mem_map.2 ⟨child, ?_, rfl⟩, ?_⟩
      · exact mem_filter.2 ⟨h, decide_eq_true hshared⟩
      · intro o ho
        exact ⟨b, hb, _, hread, mem_of_counterpart ho⟩

theorem collectChanged_complete {fuel : Nat} (h : collectChanged store fuel after before = some out)
    (hn : Reaches store after n) (hout : n ∉ out) :
    ∃ b, before = some b ∧ Reaches store b n := by
  induction fuel generalizing after before out with
  | zero => cases h
  | succ fuel ih =>
    unfold collectChanged at h
    split at h
    · next hsame => exact ⟨after, hsame, hn⟩
    · split at h
      · next records hid =>
        obtain ⟨below, hbelow, h⟩ := bind_eq_some_iff.1 h
        cases h
        rcases hn.cases hid with rfl | ⟨root, hroot, hn⟩
        · exact absurd mem_cons_self hout
        · by_cases hnamed : root ∈ namedRoots store before
          · exact reaches_of_mem_namedRoots hnamed hn
          · have hfilter : root ∈ (records.filterMap LeafRecord.extentRoot).filter
                (· ∉ namedRoots store before) :=
              mem_filter.2 ⟨hroot, decide_eq_true hnamed⟩
            obtain ⟨ys, hys, hmem⟩ := mem_flatten_of_mapM hbelow hfilter
            have hlisted := hmem n (collectExtentSpine_complete hys hn)
            exact absurd (mem_cons_of_mem _ hlisted) hout
      · next level children hid =>
        obtain ⟨below, hbelow, h⟩ := bind_eq_some_iff.1 h
        cases h
        rcases hn.cases hid with rfl | ⟨id, hid, hn⟩
        · exact absurd mem_cons_self hout
        · obtain ⟨child, hchild, rfl⟩ := List.mem_map.1 hid
          rcases @child_cases store _ before child hchild with
            ⟨b, hb, node, hread, hshared⟩ | ⟨old, hpair, hold⟩
          · exact ⟨b, hb, .of_child hread hshared hn⟩
          · obtain ⟨ys, hys, hmem⟩ := mem_flatten_of_mapM hbelow hpair
            have hunlisted : n ∉ ys := by
              intro hy
              exact hout (mem_cons_of_mem _ (hmem n hy))
            obtain ⟨o, ho, hreach⟩ := ih hys hn hunlisted
            obtain ⟨b, hb, node, hread, hnamed⟩ := hold o ho
            exact ⟨b, hb, .of_child hread hnamed hreach⟩
      · cases h

/-- A commit claims every node it introduced: the walk over any old tree and a
readable new one ends, and a node of the new tree that it does not list is
reachable from the old. -/
theorem commit_claims_what_it_introduced {after : ObjectId} (before : Option ObjectId)
    (readable : TreeReadable store after) :
    ∃ bound, ∀ fuel ≥ bound, ∃ out, collectNamespaceTreeChanges store fuel before after = some out ∧
        ∀ n, Reaches store after n → n ∉ out → ∃ b, before = some b ∧ Reaches store b n := by
  obtain ⟨bound, hbound⟩ := collectChanged_isSome readable
  refine ⟨bound, fun fuel hfuel => ?_⟩
  obtain ⟨out, hout⟩ := isSome_iff_exists.1 (hbound fuel hfuel before)
  exact ⟨out, hout, fun n hn hn' => collectChanged_complete hout hn hn'⟩

end

namespace GrownFile

/-- The record of one file with its extents in the spine given. -/
def record (spine : ObjectId) : LeafRecord :=
  { key := [47, 97], stat := {}, extents := .external 9 spine }

/-- Two leaves, the second with a new spine of one branch over the old chunk. -/
def store : NodeStore := fun id =>
  if id = [1] then some (.leaf [record [3]])
  else if id = [2] then some (.leaf [record [4]])
  else if id = [3] then some (.extentLeaf [])
  else if id = [4] then some (.extentBranch 1 [{ id := [3] }])
  else none

/-- Everything under the new leaf can be read, so the walk ends and claims the
new leaf and its spine. -/
theorem grown_file_claimed : TreeReadable store [2] ∧ ∃ bound, ∀ fuel ≥ bound, ∃ out,
      collectNamespaceTreeChanges store fuel (some [1]) [2] = some out ∧
        ∀ n, Reaches store [2] n → n ∉ out → ∃ b, some [1] = some b ∧ Reaches store b n := by
  have hchunk : SpineReadable store [3] := .leaf rfl
  have hspine : SpineReadable store [4] := by
    refine .branch rfl fun c hc => ?_
    rw [mem_singleton.1 hc]
    exact hchunk
  have hreadable : TreeReadable store [2] := by
    refine .leaf rfl fun r hr root hroot => ?_
    rw [mem_singleton.1 hr] at hroot
    cases hroot
    exact hspine
  exact ⟨hreadable, commit_claims_what_it_introduced (some [1]) hreadable⟩

end GrownFile

end Macha
