import Macha.Metadata.Delta

/-!
# Namespace operations

The working set a mutation edits, and the operations of
`apply_namespace_mutation` over it. The namespace beneath is the parent head's;
it is not written, and the delta lies over it.
-/

namespace Macha

open List Option OrdMap

/-! ## The working set -/

/-- The delta of a mutation over the namespace of its parent. -/
structure NamespaceWorkingSet where
  beneath : NamespaceEntries
  delta : MetadataDelta := {}

namespace NamespaceWorkingSet

def get (w : NamespaceWorkingSet) (path : ByteString) : Option FsEntry :=
  match w.delta.upsertEntries[path]? with
  | some pending => some pending
  | none => if path ∈ w.delta.eraseEntries then none else w.beneath[path]?

def contains (w : NamespaceWorkingSet) (path : ByteString) : Bool := (w.get path).isSome

def put (w : NamespaceWorkingSet) (path : ByteString) (entry : FsEntry) : NamespaceWorkingSet :=
  { w with
    delta :=
      { w.delta with
        upsertEntries := w.delta.upsertEntries.insert path entry
        eraseEntries := w.delta.eraseEntries.filter (· ≠ path) } }

def erase (w : NamespaceWorkingSet) (path : ByteString) : NamespaceWorkingSet :=
  { w with
    delta :=
      { w.delta with
        upsertEntries := w.delta.upsertEntries.erase path
        eraseEntries :=
          if path ∈ w.delta.eraseEntries then w.delta.eraseEntries
          else w.delta.eraseEntries ++ [path] } }

def retire (w : NamespaceWorkingSet) (ids : List ObjectId) : NamespaceWorkingSet :=
  { w with delta := retireObjects w.delta ids }

def sortErased (w : NamespaceWorkingSet) : NamespaceWorkingSet :=
  { w with
    delta := { w.delta with eraseEntries := (w.delta.eraseEntries.insertionSort (· ≤ ·)).dedup } }

end NamespaceWorkingSet

/-- The path is `root` or lies under it. -/
def under (path root : ByteString) : Bool := path == root || (root ++ [slash]).isPrefixOf path

/-- What the paths under a directory start with. -/
def childPrefix (directory : ByteString) : ByteString :=
  if directory = rootPath then rootPath else directory ++ [slash]

namespace NamespaceWorkingSet

def anyUnder (w : NamespaceWorkingSet) (directory : ByteString) : Bool :=
  (w.delta.upsertEntries.keys.any fun path =>
    (childPrefix directory).isPrefixOf path && path != directory) ||
  (w.beneath.keys.any fun path =>
    (childPrefix directory).isPrefixOf path && path != directory &&
      !w.delta.eraseEntries.contains path)

/-- Every path under a directory, itself included, with its entry. -/
def subtree (w : NamespaceWorkingSet) (directory : ByteString) : NamespaceEntries :=
  let beneath := w.beneath.filter fun path _ =>
    (childPrefix directory).isPrefixOf path && !w.delta.eraseEntries.contains path
  let self := insertOption beneath directory (w.get directory)
  (w.delta.upsertEntries.filter fun path _ => under path directory).toList.foldl
    (fun merged (path, entry) => merged.insert path entry) self

end NamespaceWorkingSet

/-- The `errno` values the operations fail with. -/
inductive Errno where
  | eagain | ebusy | eexist | einval | eisdir | enoent | enotdir | enotempty | estale
deriving DecidableEq, Repr

structure FsError where
  code : Errno
  message : String
deriving DecidableEq, Repr

inductive NamespaceMutation where
  | mkdir (path : ByteString) (mode uid gid : Nat)
  | create (path : ByteString) (mode uid gid : Nat)
  | rmdir (path : ByteString)
  | unlink (path : ByteString)
  | rename (source target : ByteString) (noreplace : Bool)
  | chmod (path : ByteString) (mode : Nat)
  | chown (path : ByteString) (uid gid : Option Nat)
  | utimens (path : ByteString) (mtimeNs : Int)
deriving DecidableEq, Repr

section

variable (legacyFileId : ByteString → NodeId)

def requireParent (w : NamespaceWorkingSet) (path : ByteString) : Except FsError Unit :=
  match w.get (parentPath path) with
  | none => .error ⟨.enoent, "parent missing"⟩
  | some parent =>
    if parent.isDirectory then .ok () else .error ⟨.enotdir, "parent not directory"⟩

def createEntry (now : Int) (type : EntryType) (path : ByteString) (mode uid gid : Nat)
    (w : NamespaceWorkingSet) : Except FsError (NamespaceWorkingSet × Option FsEntry) := do
  requireParent w path
  if w.contains path then .error ⟨.eexist, "exists"⟩
  else
    let entry : FsEntry :=
      { type := type, mode := mode &&& 0o7777, uid := uid, gid := gid
        ctimeNs := now, mtimeNs := now }
    .ok (w.put path entry, some entry)

/-- `chmod`, `chown` and `utimens`: the entry changed in place, its version one
higher. -/
def changeAttributes (path : ByteString) (change : FsEntry → FsEntry) (w : NamespaceWorkingSet) :
    Except FsError (NamespaceWorkingSet × Option FsEntry) :=
  match w.get path with
  | none => .error ⟨.enoent, "missing"⟩
  | some entry => .ok (w.put path { change entry with version := entry.version + 1 }, none)

def extentIds (entry : FsEntry) : List ObjectId :=
  (entry.extents.filter fun extent => !extent.hole).map (·.id)

def replaceTarget (source : FsEntry) (target : ByteString) (noreplace : Bool)
    (w : NamespaceWorkingSet) : Except FsError NamespaceWorkingSet :=
  match w.get target with
  | none => .ok w
  | some held =>
    if noreplace then .error ⟨.eexist, "target exists"⟩
    else if source.isDirectory && !held.isDirectory then
      .error ⟨.enotdir, "cannot replace file with directory"⟩
    else if !source.isDirectory && held.isDirectory then
      .error ⟨.eisdir, "cannot replace directory with file"⟩
    else if held.isDirectory then
      if w.anyUnder target then .error ⟨.enotempty, "target not empty"⟩
      else .ok (w.erase target)
    else .ok ((w.retire (extentIds held)).erase target)

/-- One entry of the renamed subtree; the identity travels with it. -/
def moveEntry (source target : ByteString) (w : NamespaceWorkingSet)
    (item : ByteString × FsEntry) : NamespaceWorkingSet :=
  let (path, entry) := item
  let fileId :=
    if entry.provenance.fileId = 0 then legacyFileId path else entry.provenance.fileId
  (w.erase path).put (target ++ path.drop source.length)
    { entry with provenance := { entry.provenance with fileId := fileId } }

def renameEntry (source target : ByteString) (noreplace : Bool) (w : NamespaceWorkingSet) :
    Except FsError (NamespaceWorkingSet × Option FsEntry) := do
  if source = rootPath ∨ target = rootPath then .error ⟨.ebusy, "root"⟩
  else if source = target then .ok (w, none)
  else if under target source then .error ⟨.einval, "recursive rename"⟩
  else
    match w.get source with
    | none => .error ⟨.enoent, "source missing"⟩
    | some held => do
        requireParent w target
        let w ← replaceTarget held target noreplace w
        .ok (((w.subtree source).toList.foldl (moveEntry legacyFileId source target) w).sortErased,
          none)

/-- `apply_namespace_mutation`; `now` is the wall time it reads. -/
def applyNamespaceMutation (now : Int) (op : NamespaceMutation) (w : NamespaceWorkingSet) :
    Except FsError (NamespaceWorkingSet × Option FsEntry) :=
  match op with
  | .mkdir path mode uid gid => createEntry now .directory path mode uid gid w
  | .create path mode uid gid => createEntry now .file path mode uid gid w
  | .rmdir path =>
    if path = rootPath then .error ⟨.ebusy, "root"⟩
    else
      match w.get path with
      | none => .error ⟨.enoent, "missing"⟩
      | some entry =>
        if !entry.isDirectory then .error ⟨.enotdir, "not directory"⟩
        else if w.anyUnder path then .error ⟨.enotempty, "not empty"⟩
        else .ok (w.erase path, none)
  | .unlink path =>
    match w.get path with
    | none => .error ⟨.enoent, "missing"⟩
    | some entry =>
      if entry.type ≠ .file then .error ⟨.eisdir, "directory"⟩
      else .ok ((w.retire (extentIds entry)).erase path, none)
  | .rename source target noreplace => renameEntry legacyFileId source target noreplace w
  | .chmod path mode =>
    changeAttributes path (fun entry => { entry with mode := mode &&& 0o7777, ctimeNs := now }) w
  | .chown path uid gid =>
    changeAttributes path
      (fun entry =>
        { entry with uid := uid.getD entry.uid, gid := gid.getD entry.gid, ctimeNs := now }) w
  | .utimens path mtimeNs =>
    changeAttributes path (fun entry => { entry with mtimeNs := mtimeNs, ctimeNs := now }) w

/-- `apply_namespace_batch_to`: the largest prefix that applies, or all of it
when `atomic`; an error when nothing of it can. -/
def applyNamespaceBatchTo (atomic : Bool) :
    List (Int × NamespaceMutation) → Nat → NamespaceWorkingSet → Except FsError NamespaceWorkingSet
  | [], _, w => .ok w
  | (now, op) :: ops, applied, w =>
    match applyNamespaceMutation legacyFileId now op w with
    | .ok (w, _) => applyNamespaceBatchTo atomic ops (applied + 1) w
    | .error error => if applied = 0 ∨ atomic then .error error else .ok w

structure NamespaceBatch where
  operations : List (Int × NamespaceMutation)
  atomic : Bool := false

/-- The batches of one commit: one that fails is undone and fails alone. -/
def applyNamespaceBatches (batches : List NamespaceBatch) (w : NamespaceWorkingSet) :
    NamespaceWorkingSet :=
  batches.foldl
    (fun w batch =>
      match applyNamespaceBatchTo legacyFileId batch.atomic batch.operations 0 w with
      | .ok w => w
      | .error _ => w)
    w

end

/-! ## What a path holds after an operation -/

namespace NamespaceWorkingSet

variable (w : NamespaceWorkingSet)

theorem get_put (path q : ByteString) (entry : FsEntry) :
    (w.put path entry).get q = if path = q then some entry else w.get q := by
  unfold get put
  rw [OrdMap.getElem?_insert]
  by_cases h : path = q
  · simp [h]
  · simp [h, Ne.symm h]

theorem get_erase (path q : ByteString) :
    (w.erase path).get q = if path = q then none else w.get q := by
  unfold get erase
  rw [getElem?_erase]
  by_cases h : path = q
  · subst h
    simp only [if_true]
    split <;> simp_all
  · have hmem : q ∈ (if path ∈ w.delta.eraseEntries then w.delta.eraseEntries
        else w.delta.eraseEntries ++ [path]) ↔ q ∈ w.delta.eraseEntries := by
      split
      · exact Iff.rfl
      · simp [Ne.symm h]
    simp only [h, if_false, hmem]

theorem get_retire (ids : List ObjectId) (q : ByteString) : (w.retire ids).get q = w.get q := by
  obtain ⟨pending, hdelta⟩ := retireObjects_eq w.delta ids
  unfold get retire
  rw [hdelta]

theorem get_sortErased (q : ByteString) : w.sortErased.get q = w.get q := by
  unfold get sortErased
  simp only [mem_dedup, mem_insertionSort]

end NamespaceWorkingSet

theorem under_refl (path : ByteString) : under path path := by
  simp [under]

theorem under_append (target rest : ByteString) (h : rest = [] ∨ [slash] <+: rest) :
    under (target ++ rest) target := by
  unfold under
  rcases h with rfl | h
  · simp
  · rw [Bool.or_eq_true]
    refine .inr ( isPrefixOf_iff_prefix.2 ?_)
    exact (prefix_append_right_inj target).2 h

theorem under_moved {path source : ByteString} (target : ByteString) (h : under path source) :
    under (target ++ path.drop source.length) target := by
  apply under_append
  rcases Bool.or_eq_true _ _ ▸ h with heq | hprefix
  · left
    rw [beq_iff_eq.1 heq, drop_length]
  · obtain ⟨rest, rfl⟩ := isPrefixOf_iff_prefix.1 hprefix
    right
    rw [append_assoc, drop_left]
    exact prefix_append _ _

theorem NamespaceWorkingSet.under_of_mem_subtree (w : NamespaceWorkingSet)
    {directory path : ByteString} {entry : FsEntry} (hroot : directory ≠ rootPath)
    (h : (path, entry) ∈ (w.subtree directory).toList) : under path directory := by
  rw [OrdMap.mem_toList] at h
  unfold subtree at h
  rw [getElem?_foldl_toList _ _ (fun _ entry _ => some entry)
    (fun _ _ => getElem?_insert_self _ _ _)
    (fun _ _ _ hne => getElem?_insert_of_ne _ _ hne)] at h
  split at h
  · next pending hpending =>
    rw [OrdMap.getElem?_filter, filter_eq_some_iff] at hpending
    exact hpending.2
  · rw [getElem?_insertOption] at h
    split at h
    · next hself => exact hself ▸ under_refl _
    · rw [OrdMap.getElem?_filter, filter_eq_some_iff] at h
      have hprefix := (Bool.and_eq_true_iff.1 h.2).1
      rw [childPrefix, if_neg hroot] at hprefix
      exact Bool.or_eq_true _ _ ▸ .inr hprefix

/-- The operation may leave at the path an entry that is not the one it held,
changed in place. -/
def NamespaceMutation.replaces (path : ByteString) : NamespaceMutation → Bool
  | .rmdir p => p == path
  | .unlink p => p == path
  | .rename source target _ => under path source || under path target
  | _ => false

/-- The entry is the other one, or a later version of it. -/
def Descends (base entry : FsEntry) : Prop :=
  base.version < entry.version ∨
    (entry.version = base.version ∧ entry.size = base.size ∧ entry.extents = base.extents)

theorem Descends.refl (entry : FsEntry) : Descends entry entry := .inr ⟨rfl, rfl, rfl⟩

theorem Descends.trans {a b c : FsEntry} (hab : Descends a b) (hbc : Descends b c) :
    Descends a c := by
  rcases hab with hab | ⟨hv, hs, hx⟩
  · rcases hbc with hbc | ⟨hv', -, -⟩
    · exact .inl (hab.trans hbc)
    · exact .inl (hv' ▸ hab)
  · rcases hbc with hbc | ⟨hv', hs', hx'⟩
    · exact .inl (hv ▸ hbc)
    · exact .inr ⟨hv'.trans hv, hs'.trans hs, hx'.trans hx⟩

section

variable {legacyFileId : ByteString → NodeId} {now : Int} {w w' : NamespaceWorkingSet}
  {path target source : ByteString} {entry : FsEntry} {result : Option FsEntry} {type : EntryType}
  {mode uid gid applied : Nat} {change : FsEntry → FsEntry} {noreplace atomic : Bool}
  {op : NamespaceMutation} {ops : List (Int × NamespaceMutation)}

/-- What operations make of a working set: entries erased or put where they may be
replaced, and elsewhere put over nothing or over what they descend from. -/
inductive NamespaceWorkingSet.Edits (replaced : ByteString → Prop) (w : NamespaceWorkingSet) :
    NamespaceWorkingSet → Prop
  | refl : Edits replaced w w
  | put {w₁ : NamespaceWorkingSet} (h : Edits replaced w w₁) {p : ByteString} {e : FsEntry}
      (hp : replaced p ∨ ∀ held, w₁.get p = some held → Descends held e) :
      Edits replaced w (w₁.put p e)
  | erase {w₁ : NamespaceWorkingSet} (h : Edits replaced w w₁) {p : ByteString}
      (hp : replaced p) : Edits replaced w (w₁.erase p)
  | retire {w₁ : NamespaceWorkingSet} (h : Edits replaced w w₁) (ids : List ObjectId) :
      Edits replaced w (w₁.retire ids)
  | sortErased {w₁ : NamespaceWorkingSet} (h : Edits replaced w w₁) :
      Edits replaced w w₁.sortErased

open NamespaceWorkingSet

variable {replaced : ByteString → Prop}

theorem NamespaceWorkingSet.Edits.trans {w₁ w₂ : NamespaceWorkingSet} (h : w.Edits replaced w₁)
    (h' : w₁.Edits replaced w₂) : w.Edits replaced w₂ := by
  induction h' with
  | refl => exact h
  | put _ hp ih => exact ih.put hp
  | erase _ hp ih => exact ih.erase hp
  | retire _ ids ih => exact ih.retire ids
  | sortErased _ ih => exact ih.sortErased

theorem createEntry_edits {p : ByteString}
    (h : createEntry now type p mode uid gid w = .ok (w', result)) : w.Edits replaced w' := by
  unfold createEntry at h
  cases hparent : requireParent w p with
  | error e => simp [hparent, bind, Except.bind] at h
  | ok u =>
    simp only [hparent, bind, Except.bind] at h
    split at h
    · cases h
    · next hfree =>
      cases h
      refine .put .refl (.inr fun held hheld => ?_)
      simp [NamespaceWorkingSet.contains, hheld] at hfree

theorem changeAttributes_edits {p : ByteString}
    (h : changeAttributes p change w = .ok (w', result)) : w.Edits replaced w' := by
  unfold changeAttributes at h
  split at h
  · cases h
  · next entry hentry =>
    cases h
    refine .put .refl (.inr fun held hheld => .inl ?_)
    rw [some.inj (hheld.symm.trans hentry)]
    exact Nat.lt_succ_self _

theorem replaceTarget_edits {source : FsEntry} (htarget : replaced target)
    (h : replaceTarget source target noreplace w = .ok w') : w.Edits replaced w' := by
  unfold replaceTarget at h
  split at h
  · cases h
    exact .refl
  · split at h <;> [cases h; skip]
    split at h <;> [cases h; skip]
    split at h <;> [cases h; skip]
    split at h
    · split at h
      · cases h
      · cases h
        exact .erase .refl htarget
    · cases h
      exact .erase (.retire .refl _) htarget

theorem foldl_moveEntry_edits (hmoved : ∀ p, under p source ∨ under p target → replaced p)
    (items : List (ByteString × FsEntry)) (hitems : ∀ item ∈ items, under item.1 source)
    (w : NamespaceWorkingSet) :
    w.Edits replaced (items.foldl (moveEntry legacyFileId source target) w) := by
  induction items generalizing w with
  | nil => exact .refl
  | cons item items ih =>
    have hunder := hitems item mem_cons_self
    have hmove : w.Edits replaced (moveEntry legacyFileId source target w item) :=
      .put (.erase .refl (hmoved _ (.inl hunder))) (.inl (hmoved _ (.inr (under_moved _ hunder))))
    exact hmove.trans (ih (fun x hx => hitems x (mem_cons_of_mem _ hx)) _)

theorem renameEntry_edits (hmoved : ∀ p, under p source ∨ under p target → replaced p)
    (h : renameEntry legacyFileId source target noreplace w = .ok (w', result)) :
    w.Edits replaced w' := by
  unfold renameEntry at h
  split at h <;> [cases h; skip]
  next hroot =>
    split at h
    · cases h
      exact .refl
    · split at h <;> [cases h; skip]
      split at h <;> [cases h; skip]
      cases hparent : requireParent w target with
      | error e => simp [hparent, bind, Except.bind] at h
      | ok u =>
        simp only [hparent, bind, Except.bind] at h
        split at h
        · cases h
        · next w₁ hreplaced =>
          cases h
          have hreplace := replaceTarget_edits (hmoved target (.inr (under_refl _))) hreplaced
          refine (hreplace.trans (foldl_moveEntry_edits hmoved _ (fun item hitem => ?_) _)).sortErased
          exact w₁.under_of_mem_subtree (fun heq => hroot (.inl heq)) hitem

theorem applyNamespaceMutation_edits (hop : ∀ p, op.replaces p → replaced p)
    (h : applyNamespaceMutation legacyFileId now op w = .ok (w', result)) :
    w.Edits replaced w' := by
  cases op with
  | mkdir p mode uid gid => exact createEntry_edits h
  | create p mode uid gid => exact createEntry_edits h
  | rmdir p =>
    simp only [applyNamespaceMutation] at h
    split at h <;> [cases h; skip]
    split at h <;> [cases h; skip]
    split at h <;> [cases h; skip]
    split at h
    · cases h
    · cases h
      exact .erase .refl (hop p (beq_self_eq_true p))
  | unlink p =>
    simp only [applyNamespaceMutation] at h
    split at h <;> [cases h; skip]
    split at h
    · cases h
    · cases h
      exact .erase (.retire .refl _) (hop p (beq_self_eq_true p))
  | rename source target noreplace =>
    exact renameEntry_edits (fun p hp => hop p (Bool.or_eq_true_iff.2 hp)) h
  | chmod p mode => exact changeAttributes_edits h
  | chown p uid gid => exact changeAttributes_edits h
  | utimens p mtimeNs => exact changeAttributes_edits h

theorem applyNamespaceBatchTo_edits (hops : ∀ op ∈ ops, ∀ p, op.2.replaces p → replaced p)
    (h : applyNamespaceBatchTo legacyFileId atomic ops applied w = .ok w') :
    w.Edits replaced w' := by
  induction ops generalizing w applied with
  | nil =>
    cases h
    exact .refl
  | cons op ops ih =>
    unfold applyNamespaceBatchTo at h
    split at h
    · next w₁ r hop =>
      exact (applyNamespaceMutation_edits (hops op mem_cons_self) hop).trans
        (ih (fun x hx => hops x (mem_cons_of_mem _ hx)) h)
    · split at h
      · cases h
      · cases h
        exact .refl

theorem applyNamespaceBatches_edits {batches : List NamespaceBatch}
    (hops : ∀ batch ∈ batches, ∀ op ∈ batch.operations, ∀ p, op.2.replaces p → replaced p)
    (w : NamespaceWorkingSet) :
    w.Edits replaced (applyNamespaceBatches legacyFileId batches w) := by
  induction batches generalizing w with
  | nil => exact .refl
  | cons batch batches ih =>
    have hrest := fun b hb => hops b (mem_cons_of_mem _ hb)
    unfold applyNamespaceBatches
    rw [foldl_cons]
    cases hbatch : applyNamespaceBatchTo legacyFileId batch.atomic batch.operations 0 w with
    | error e => exact ih hrest w
    | ok w₁ =>
      exact (applyNamespaceBatchTo_edits (hops batch mem_cons_self) hbatch).trans (ih hrest w₁)

/-- The working set holds at the path an entry that descends from `entry`. -/
def NamespaceWorkingSet.HoldsFrom (w : NamespaceWorkingSet) (path : ByteString) (entry : FsEntry) :
    Prop :=
  ∃ held, w.get path = some held ∧ Descends entry held

theorem NamespaceWorkingSet.Edits.holdsFrom (h : w.Edits replaced w') (hpath : ¬ replaced path)
    (hget : w.get path = some entry) : w'.HoldsFrom path entry := by
  unfold HoldsFrom
  induction h with
  | refl => exact ⟨entry, hget, .refl _⟩
  | put _ hp ih =>
    obtain ⟨held, hheld, hdescends⟩ := ih
    rw [get_put]
    split
    · next heq =>
      subst heq
      exact ⟨_, rfl, hdescends.trans (hp.resolve_left hpath held hheld)⟩
    · exact ⟨held, hheld, hdescends⟩
  | erase _ hp ih =>
    rw [get_erase, if_neg (by rintro rfl; exact hpath hp)]
    exact ih
  | retire _ ids ih =>
    rw [get_retire]
    exact ih
  | sortErased _ ih =>
    rw [get_sortErased]
    exact ih

/-! ## What no operation touches -/

/-- Two working sets over the same namespace, with the same appends. -/
structure NamespaceWorkingSet.SameBase (w w' : NamespaceWorkingSet) : Prop where
  beneath : w'.beneath = w.beneath
  appends : w'.delta.appendEntries = w.delta.appendEntries

theorem NamespaceWorkingSet.Edits.sameBase (h : w.Edits replaced w') : w.SameBase w' := by
  induction h with
  | refl => exact ⟨rfl, rfl⟩
  | put _ _ ih => exact ⟨ih.beneath, ih.appends⟩
  | erase _ _ ih => exact ⟨ih.beneath, ih.appends⟩
  | @retire w₁ _ ids ih =>
    obtain ⟨pending, hdelta⟩ := retireObjects_eq w₁.delta ids
    refine ⟨ih.beneath, ?_⟩
    simp only [NamespaceWorkingSet.retire, hdelta]
    exact ih.appends
  | sortErased _ ih => exact ⟨ih.beneath, ih.appends⟩

end

end Macha
