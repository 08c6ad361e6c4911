import Macha.Metadata.MergeIdentity

/-!
# What re-establishing the parents leaves

`ensure_directory` only ever puts a directory where there is none, and takes it
from the head that holds it. Over two heads whose namespaces are closed it
never fails, and afterwards every entry has its directories.
-/

namespace Macha

open List OrdMap

/-! ## The entries and the log apart -/

/-- The directory one of the heads holds at a path, and the conflicts choosing
it records. -/
def restoreFor (l r : Side) (path : ByteString) : Option (FsEntry × List MetadataConflict) :=
  match l.entries[path]?, r.entries[path]? with
  | some a, some b =>
    if a.isDirectory && b.isDirectory then
      some ((settleValue l r a b false).1, settleLog l r path a b false)
    else if a.isDirectory then some (a, [])
    else if b.isDirectory then some (b, [])
    else none
  | some a, none => if a.isDirectory then some (a, []) else none
  | none, some b => if b.isDirectory then some (b, []) else none
  | none, none => none

def giveWayLog (path : ByteString) (directory : FsEntry) : Option FsEntry → List MetadataConflict
  | some entry => [entryConflict path directory entry]
  | none => []

/-- `ensure_directory` on the entries, with the conflicts it records. -/
def ensureEntries (l r : Side) : Nat → ByteString → NamespaceEntries →
      Except MergeError (NamespaceEntries × List MetadataConflict)
  | 0, path, _ => .error (.lostDirectory path)
  | fuel + 1, path, e =>
    if isDirectoryAt e path then .ok (e, [])
    else
      match if path ≠ rootPath then ensureEntries l r fuel (parentPath path) e else .ok (e, []) with
      | .error err => .error err
      | .ok (e₁, log₁) =>
        match restoreFor l r path with
        | none => .error (.lostDirectory path)
        | some (directory, log₂) =>
          .ok (e₁.insert path directory, log₁ ++ log₂ ++ giveWayLog path directory e[path]?)

section

variable (metadataConflictId : MetadataConflict → ByteString)

/-- A state moved to new entries, recording a log. -/
def MergeState.advance (st : MergeState) (out : NamespaceEntries × List MetadataConflict) :
    MergeState :=
  (emplaceAll metadataConflictId out.2 st).setEntries out.1

theorem directoryFor_eq (l r : Side) (path : ByteString) (st : MergeState) :
    directoryFor metadataConflictId l r path st = (restoreFor l r path).map fun (directory, log) =>
        (directory, emplaceAll metadataConflictId log st) := by
  unfold directoryFor restoreFor
  cases l.entries[path]? with
  | none =>
    cases r.entries[path]? with
    | none => rfl
    | some b => cases hb : b.isDirectory <;> simp [hb]
  | some a =>
    cases r.entries[path]? with
    | none => cases ha : a.isDirectory <;> simp [ha]
    | some b =>
      cases ha : a.isDirectory <;> cases hb : b.isDirectory <;> simp [ha, hb, settle_eq]

theorem ensureDirectory_eq (l r : Side) (fuel : Nat) (path : ByteString) (st : MergeState) :
    ensureDirectory metadataConflictId l r fuel path st =
      (ensureEntries l r fuel path st.entries).map (st.advance metadataConflictId) := by
  induction fuel generalizing path st with
  | zero => rfl
  | succ fuel ih =>
    unfold ensureDirectory ensureEntries
    by_cases hdir : isDirectoryAt st.entries path
    · simp [hdir, Except.map, MergeState.advance]
    by_cases hroot : path = rootPath
    · subst hroot
      simp only [hdir, Bool.false_eq_true, if_false, ne_eq, not_true_eq_false, bind, Except.bind,
        directoryFor_eq]
      cases restoreFor l r rootPath with
      | none => rfl
      | some found =>
        obtain ⟨directory, log⟩ := found
        cases st.entries[rootPath]? <;>
          simp [giveWayLog, MergeState.advance, emplaceAll_append, recordConflict, Except.map] <;>
          rfl
    · simp only [hdir, ih, ne_eq, hroot, not_false_eq_true, if_true]
      cases ensureEntries l r fuel (parentPath path) st.entries with
      | error err => rfl
      | ok out =>
        simp only [Bool.false_eq_true, if_false, bind, Except.bind, Except.map, directoryFor_eq]
        cases restoreFor l r path with
        | none => rfl
        | some found =>
          obtain ⟨directory, log⟩ := found
          cases st.entries[path]? <;>
            simp [giveWayLog, MergeState.advance, emplaceAll_append, emplaceAll_setEntries,
              recordConflict, emplaceConflict_setEntries] <;>
            rfl

end

/-! ## What putting directories back changes -/

/-- A namespace whose entries have their directories. -/
structure Closed (entries : NamespaceEntries) : Prop where
  root : isDirectoryAt entries rootPath
  parent : ∀ p : ByteString, entries[p]?.isSome → isDirectoryAt entries (parentPath p)

/-- The directory one head holds at a path; the left head's if both do. -/
def directoryOf (l r : Side) (path : ByteString) : Option FsEntry :=
  if isDirectoryAt l.entries path then l.entries[path]?
  else if isDirectoryAt r.entries path then r.entries[path]?
  else none

theorem isDirectoryAt_iff (e : NamespaceEntries) (p : ByteString) :
    isDirectoryAt e p ↔ ∃ d, e[p]? = some d ∧ d.isDirectory := by
  unfold isDirectoryAt
  cases e[p]? <;> simp

variable {p : ByteString}

theorem isDirectoryAt_congr {e e' : NamespaceEntries} (h : e[p]? = e'[p]?) :
    isDirectoryAt e p = isDirectoryAt e' p := by
  unfold isDirectoryAt
  rw [h]

theorem directoryOf_isDirectory {l r : Side} {d : FsEntry} (h : directoryOf l r p = some d) :
    d.isDirectory := by
  unfold directoryOf at h
  split at h
  · rename_i hl
    obtain ⟨d', hd, hdir⟩ := (isDirectoryAt_iff _ _).1 hl
    simp_all
  · split at h
    · rename_i hr
      obtain ⟨d', hd, hdir⟩ := (isDirectoryAt_iff _ _).1 hr
      simp_all
    · simp at h

theorem directoryOf_isSome {l r : Side} :
    (directoryOf l r p).isSome ↔ isDirectoryAt l.entries p ∨ isDirectoryAt r.entries p := by
  unfold directoryOf
  by_cases hl : isDirectoryAt l.entries p
  · obtain ⟨d, hd, -⟩ := (isDirectoryAt_iff _ _).1 hl
    simp [hl, hd]
  · by_cases hr : isDirectoryAt r.entries p
    · obtain ⟨d, hd, -⟩ := (isDirectoryAt_iff _ _).1 hr
      simp [hl, hr, hd]
    · simp [hl, hr]

theorem restoreFor_eq {l r : Side} (h : ¬(isDirectoryAt l.entries p ∧ isDirectoryAt r.entries p)) :
    restoreFor l r p = (directoryOf l r p).map fun d => (d, []) := by
  unfold isDirectoryAt at h
  unfold restoreFor directoryOf isDirectoryAt
  cases hl : l.entries[p]? with
  | none =>
    cases hr : r.entries[p]? with
    | none => rfl
    | some b => cases hb : b.isDirectory <;> simp [hb]
  | some a =>
    cases hr : r.entries[p]? with
    | none => cases ha : a.isDirectory <;> simp [ha]
    | some b => cases ha : a.isDirectory <;> cases hb : b.isDirectory <;> simp_all

/-- What a run of `ensure_directory` does: every change puts a head's directory
where there was none, under directories, and a file that gave way is in the
log. -/
structure Restores (l r : Side) (scope : ByteString → Prop) (e e' : NamespaceEntries)
    (log : List MetadataConflict) : Prop where
  change : ∀ q : ByteString, e'[q]? = e[q]? ∨
    (scope q ∧ isDirectoryAt e q = false ∧ e'[q]? = directoryOf l r q ∧ isDirectoryAt e' q)
  parent : ∀ q : ByteString, e'[q]? ≠ e[q]? → isDirectoryAt e' (parentPath q)
  sound : ∀ c ∈ log, ∃ q d f, isDirectoryAt e q = false ∧ e'[q]? = some d ∧ d.isDirectory ∧
    e[q]? = some f ∧ c = entryConflict q d f
  complete : ∀ (q : ByteString) (d f : FsEntry), isDirectoryAt e q = false → e'[q]? = some d →
    d.isDirectory → e[q]? = some f → entryConflict q d f ∈ log

namespace Restores

variable {l r : Side} {scope : ByteString → Prop} {e e' e'' : NamespaceEntries}
  {log log' : List MetadataConflict}

theorem refl (l r : Side) (scope : ByteString → Prop) (e : NamespaceEntries) :
    Restores l r scope e e [] where
  change _ := .inl rfl
  parent _ h := (h rfl).elim
  sound c hc := by simp at hc
  complete q d f hdir hd hd' := by
    simp [isDirectoryAt, hd, hd'] at hdir

section

variable (h : Restores l r scope e e' log)

include h

variable {q : ByteString}

theorem keeps (hq : isDirectoryAt e q) : e'[q]? = e[q]? := by
  rcases h.change q with heq | ⟨-, hdir, -⟩
  · exact heq
  · simp [hq] at hdir

theorem keepsDirectory (hq : isDirectoryAt e q) : isDirectoryAt e' q := by
  rw [isDirectoryAt_congr (h.keeps hq)]
  exact hq

theorem keepsSome (hq : e[q]?.isSome) : e'[q]?.isSome := by
  rcases h.change q with heq | ⟨-, -, -, hdir⟩
  · rwa [heq]
  · obtain ⟨d, hd, -⟩ := (isDirectoryAt_iff _ _).1 hdir
    simp [hd]

theorem mono {scope' : ByteString → Prop} (hs : ∀ q, scope q → scope' q) :
    Restores l r scope' e e' log where
  change q := (h.change q).imp_right fun ⟨hq, hrest⟩ => ⟨hs q hq, hrest⟩
  parent := h.parent
  sound := h.sound
  complete := h.complete

theorem trans (h' : Restores l r scope e' e'' log') : Restores l r scope e e'' (log ++ log') where
  change q := by
    rcases h.change q with heq | ⟨hs, hdir, hval, hdir'⟩
    · rw [← heq, isDirectoryAt_congr heq.symm]
      exact h'.change q
    · refine .inr ⟨hs, hdir, ?_, h'.keepsDirectory hdir'⟩
      rw [h'.keeps hdir', hval]
  parent q hne := by
    by_cases heq : e'[q]? = e[q]?
    · exact h'.parent q (heq ▸ hne)
    · exact h'.keepsDirectory (h.parent q heq)
  sound c hc := by
    rcases mem_append.1 hc with hc | hc
    · obtain ⟨q, d, f, hdir, hd, hd', hf, rfl⟩ := h.sound c hc
      refine ⟨q, d, f, hdir, ?_, hd', hf, rfl⟩
      rw [h'.keeps ((isDirectoryAt_iff _ _).2 ⟨d, hd, hd'⟩), hd]
    · obtain ⟨q, d, f, hdir, hd, hd', hf, rfl⟩ := h'.sound c hc
      rcases h.change q with heq | ⟨-, -, -, hdir'⟩
      · exact ⟨q, d, f, isDirectoryAt_congr heq ▸ hdir, hd, hd', heq ▸ hf, rfl⟩
      · simp [hdir'] at hdir
  complete q d f hdir hd hd' hf := by
    apply mem_append.2
    rcases h.change q with heq | ⟨-, -, -, hdir'⟩
    · exact .inr (h'.complete q d f (isDirectoryAt_congr heq ▸ hdir) hd hd' (heq ▸ hf))
    · exact .inl (h.complete q d f hdir (h'.keeps hdir' ▸ hd) hd' hf)

end

theorem insert {d : FsEntry} (hscope : scope p) (hdir : isDirectoryAt e p = false)
    (hd : directoryOf l r p = some d) (hparent : p ≠ rootPath → isDirectoryAt e (parentPath p)) :
    Restores l r scope e (e.insert p d) (giveWayLog p d e[p]?) := by
  have hd' : d.isDirectory := directoryOf_isDirectory hd
  have hself : (e.insert p d)[p]? = some d := getElem?_insert_self e p d
  have hother : ∀ q : ByteString, p ≠ q → (e.insert p d)[q]? = e[q]? :=
    fun q => getElem?_insert_of_ne e d
  have hdirSelf : isDirectoryAt (e.insert p d) p := (isDirectoryAt_iff _ _).2 ⟨d, hself, hd'⟩
  refine ⟨fun q => ?_, fun q hne => ?_, fun c hc => ?_, fun q d' f hq hq' hdd hf => ?_⟩
  · by_cases hpq : p = q
    · subst hpq
      exact .inr ⟨hscope, hdir, hself.trans hd.symm, hdirSelf⟩
    · exact .inl (hother q hpq)
  · obtain rfl : p = q := by_contra fun hpq => hne (hother q hpq)
    by_cases hroot : p = rootPath
    · rw [hroot, parentPath_rootPath, ← hroot]
      exact hdirSelf
    · by_cases hpq : p = parentPath p
      · rw [← hpq]
        exact hdirSelf
      · rw [isDirectoryAt_congr (hother _ hpq)]
        exact hparent hroot
  · cases hf : e[p]? with
    | none => simp [giveWayLog, hf] at hc
    | some f =>
      simp only [giveWayLog, hf, mem_singleton] at hc
      exact ⟨p, d, f, hdir, hself, hd', hf, hc⟩
  · by_cases hpq : p = q
    · subst hpq
      rw [hself, Option.some.injEq] at hq'
      simp [giveWayLog, hf, hq']
    · rw [hother q hpq] at hq'
      simp [isDirectoryAt, hq', hdd] at hq

end Restores

/-- The path itself and the directories over it. -/
def Upward (p q : ByteString) : Prop := ∃ n, parentPath^[n] p = q

theorem Upward.depth_le {p q : ByteString} (h : Upward p q) : depth q ≤ depth p := by
  obtain ⟨n, rfl⟩ := h
  induction n generalizing p with
  | zero => exact Nat.le_refl _
  | succ n ih =>
    have hstep := ih (p := parentPath p)
    rw [depth_parentPath] at hstep
    rw [Function.iterate_succ_apply]
    omega

theorem Upward.of_parentPath {p q : ByteString} (h : Upward (parentPath p) q) : Upward p q := by
  obtain ⟨n, rfl⟩ := h
  exact ⟨n + 1, Function.iterate_succ_apply _ _ _⟩

/-- The entries hold a directory wherever both heads do. -/
def KeepsCommonDirectories (l r : Side) (e : NamespaceEntries) : Prop :=
  ∀ q, isDirectoryAt l.entries q → isDirectoryAt r.entries q → isDirectoryAt e q

theorem Restores.keepsCommon {l r : Side} {scope : ByteString → Prop} {e e' : NamespaceEntries}
    {log : List MetadataConflict} (h : Restores l r scope e e' log)
    (he : KeepsCommonDirectories l r e) : KeepsCommonDirectories l r e' :=
  fun q hl hr => h.keepsDirectory (he q hl hr)

theorem Closed.parent_of_isDirectoryAt {e : NamespaceEntries} (h : Closed e)
    (hp : isDirectoryAt e p) : isDirectoryAt e (parentPath p) := by
  obtain ⟨d, hd, -⟩ := (isDirectoryAt_iff _ _).1 hp
  exact h.parent p (by simp [hd])

/-- A directory one head holds can be put back with its parents, given fuel for
its depth. -/
theorem ensureEntries_restores {l r : Side} (hl : Closed l.entries) (hr : Closed r.entries)
    {fuel : Nat} {e : NamespaceEntries} (hfuel : depth p < fuel) (hnorm : normalizePath p = p)
    (hheld : isDirectoryAt l.entries p ∨ isDirectoryAt r.entries p)
    (hcommon : KeepsCommonDirectories l r e) :
    ∃ e' log, ensureEntries l r fuel p e = .ok (e', log) ∧
      Restores l r (Upward p) e e' log ∧ isDirectoryAt e' p := by
  induction fuel generalizing p e with
  | zero => omega
  | succ fuel ih =>
    unfold ensureEntries
    by_cases hdir : isDirectoryAt e p
    · exact ⟨e, [], by rw [if_pos hdir], .refl l r _ e, hdir⟩
    · rw [if_neg hdir]
      obtain ⟨d, hd⟩ := Option.isSome_iff_exists.1 (directoryOf_isSome.2 hheld)
      have hone : ¬(isDirectoryAt l.entries p ∧ isDirectoryAt r.entries p) :=
        fun ⟨h₁, h₂⟩ => hdir (hcommon p h₁ h₂)
      rw [restoreFor_eq hone, hd]
      obtain ⟨e₁, log₁, hrun, hrest, hat, hparent⟩ : ∃ e₁ log₁,
          (if p ≠ rootPath then ensureEntries l r fuel (parentPath p) e else .ok (e, [])) =
            .ok (e₁, log₁) ∧ Restores l r (Upward p) e e₁ log₁ ∧ e₁[p]? = e[p]? ∧
            (p ≠ rootPath → isDirectoryAt e₁ (parentPath p)) := by
        by_cases hroot : p = rootPath
        · exact ⟨e, [], by rw [if_neg (not_not.2 hroot)], .refl l r _ e, rfl,
            fun h => (h hroot).elim⟩
        · have hdepth : depth p ≠ 0 := fun h => hroot (eq_rootPath_of_depth_eq_zero hnorm h)
          have hdepth' := depth_parentPath p
          obtain ⟨e₁, log₁, hrun, hrest, hup⟩ := ih (p := parentPath p) (e := e) (by omega)
            (normalizePath_parentPath p)
            (hheld.imp hl.parent_of_isDirectoryAt hr.parent_of_isDirectoryAt) hcommon
          refine ⟨e₁, log₁, by rw [if_pos hroot, hrun], hrest.mono fun _ h => h.of_parentPath,
            ?_, fun _ => hup⟩
          rcases hrest.change p with hsame | ⟨hscope, -⟩
          · exact hsame
          · have := hscope.depth_le
            omega
      have hdir₁ : isDirectoryAt e₁ p = false := by
        rw [isDirectoryAt_congr hat]
        exact Bool.eq_false_iff.2 hdir
      have hins : Restores l r (Upward p) e₁ (e₁.insert p d) (giveWayLog p d e₁[p]?) :=
        Restores.insert ⟨0, rfl⟩ hdir₁ hd hparent
      rw [hat] at hins
      refine ⟨e₁.insert p d, log₁ ++ giveWayLog p d e[p]?, ?_, hrest.trans hins, ?_⟩
      · simp [hrun]
      · exact (isDirectoryAt_iff _ _).2
          ⟨d, getElem?_insert_self e₁ p d, directoryOf_isDirectory hd⟩

section

variable (metadataConflictId : MetadataConflict → ByteString)

/-- The directories over an entry of the namespace. -/
def Needed (e : NamespaceEntries) (q : ByteString) : Prop :=
  ∃ p : ByteString, e[p]?.isSome ∧ Upward (parentPath p) q

variable {l r : Side}

theorem foldlM_ensureParent (hl : Closed l.entries) (hr : Closed r.entries)
    (paths : List ByteString) (hpaths : ∀ p ∈ paths, p ∈ mergePaths l r) (st : MergeState)
    (scope : ByteString → Prop) (hscope : ∀ q, scope q → scope (parentPath q))
    (hst : ∀ p : ByteString, st.entries[p]?.isSome → scope (parentPath p))
    (hcommon : KeepsCommonDirectories l r st.entries) :
    ∃ e log, paths.foldlM (ensureParent metadataConflictId l r) st =
        .ok (st.advance metadataConflictId (e, log)) ∧
      Restores l r scope st.entries e log ∧
      ∀ p ∈ paths, p ≠ rootPath → st.entries[p]?.isSome → isDirectoryAt e (parentPath p) := by
  induction paths generalizing st with
  | nil => exact ⟨st.entries, [], rfl, .refl l r _ _, by simp⟩
  | cons p paths ih =>
    have hup : ∀ n q, scope q → scope (parentPath^[n] q) := by
      intro n
      induction n with
      | zero => exact fun _ h => h
      | succ n ihn => exact fun q h => ihn (parentPath q) (hscope q h)
    obtain ⟨e₁, log₁, hrun, hrest, hdone⟩ : ∃ e₁ log₁,
        ensureParent metadataConflictId l r st p = .ok (st.advance metadataConflictId (e₁, log₁)) ∧
          Restores l r scope st.entries e₁ log₁ ∧
          (p ≠ rootPath → st.entries[p]?.isSome → isDirectoryAt e₁ (parentPath p)) := by
      unfold ensureParent
      by_cases hgo : p ≠ rootPath ∧ st.entries.contains p
      · rw [if_pos hgo, ensureDirectory_eq]
        have hheld : isDirectoryAt l.entries (parentPath p) ∨
            isDirectoryAt r.entries (parentPath p) :=
          ((mem_mergePaths l r p).1 (hpaths p mem_cons_self)).imp (hl.parent p) (hr.parent p)
        have hdepth := depth_parentPath p
        have hfuel : depth (parentPath p) < depth p + 2 := by omega
        obtain ⟨e₁, log₁, hrun, hrest, hdir⟩ := ensureEntries_restores hl hr hfuel
          (normalizePath_parentPath p) hheld hcommon
        refine ⟨e₁, log₁, by rw [hrun]; rfl, hrest.mono ?_, fun _ _ => hdir⟩
        rintro q ⟨n, rfl⟩
        exact hup n _ (hst p ((OrdMap.contains_iff _ _).1 hgo.2))
      · rw [if_neg hgo]
        exact ⟨st.entries, [], rfl, .refl l r _ _, fun hroot hsome =>
          (hgo ⟨hroot, (OrdMap.contains_iff _ _).2 hsome⟩).elim⟩
    have hst₁ : ∀ q : ByteString, e₁[q]?.isSome → scope (parentPath q) := by
      intro q hq
      rcases hrest.change q with hsame | ⟨hq', -⟩
      · exact hst q (hsame ▸ hq)
      · exact hscope q hq'
    obtain ⟨e, log, hrun', hrest', hdone'⟩ := ih
      (fun q hq => hpaths q (mem_cons_of_mem p hq)) (st.advance metadataConflictId (e₁, log₁))
      hst₁ (hrest.keepsCommon hcommon)
    refine ⟨e, log₁ ++ log, ?_, hrest.trans hrest', fun q hq hroot hsome => ?_⟩
    · rw [foldlM_cons, hrun]
      exact hrun'.trans (by simp [MergeState.advance, emplaceAll_append, emplaceAll_setEntries])
    · rcases mem_cons.1 hq with rfl | hq
      · exact hrest'.keepsDirectory (hdone hroot hsome)
      · exact hdone' q hq hroot (hrest.keepsSome hsome)

/-- Over closed heads the parents are put back without a throw, and the
namespace is closed again. -/
theorem ensureParents_restores {l r : Side} (hl : Closed l.entries) (hr : Closed r.entries)
    (st : MergeState) (hkeys : ∀ p : ByteString, st.entries[p]?.isSome → p ∈ mergePaths l r)
    (hcommon : KeepsCommonDirectories l r st.entries) :
    ∃ e log, ensureParents metadataConflictId l r st =
        .ok (st.advance metadataConflictId (e, log)) ∧
      Restores l r (Needed st.entries) st.entries e log ∧ Closed e := by
  obtain ⟨e, log, hrun, hrest, hdone⟩ := foldlM_ensureParent metadataConflictId hl hr
    (mergePaths l r) (fun _ h => h) st (Needed st.entries)
    (fun q ⟨p, hp, n, hn⟩ => ⟨p, hp, n + 1, by rw [Function.iterate_succ_apply', hn]⟩)
    (fun p hp => ⟨p, hp, 0, rfl⟩) hcommon
  have hroot : isDirectoryAt e rootPath := hrest.keepsDirectory (hcommon _ hl.root hr.root)
  refine ⟨e, log, ?_, hrest, hroot, fun p hp => ?_⟩
  · simp only [ensureParents, hrun, bind, Except.bind]
    simp [MergeState.advance, hroot]
  · by_cases hsame : e[p]? = st.entries[p]?
    · by_cases hproot : p = rootPath
      · rw [hproot, parentPath_rootPath]
        exact hroot
      · rw [hsame] at hp
        exact hdone p (hkeys p hp) hproot hp
    · exact hrest.parent p hsame

end

variable {e e' : NamespaceEntries}

theorem Closed.upward (h : Closed e) {p q : ByteString} (hp : isDirectoryAt e p) (hq : Upward p q) :
    isDirectoryAt e q := by
  obtain ⟨n, rfl⟩ := hq
  induction n generalizing p with
  | zero => exact hp
  | succ n ih => exact ih (h.parent_of_isDirectoryAt hp)

variable {q : ByteString} {log : List MetadataConflict}

section

variable (h : Restores l r (Needed e) e e' log)

include h

/-- A directory over an entry is put back where it is missing, and nothing else
changes. -/
theorem Restores.at_needed (hclosed : Closed e') (hneed : Needed e q)
    (hdir : isDirectoryAt e q = false) : e'[q]? = directoryOf l r q ∧ isDirectoryAt e' q := by
  obtain ⟨p, hp, hup⟩ := hneed
  have hdir' : isDirectoryAt e' q := hclosed.upward (hclosed.parent p (h.keepsSome hp)) hup
  rcases h.change q with hsame | ⟨-, -, hval, -⟩
  · rw [isDirectoryAt_congr hsame, hdir] at hdir'
    simp at hdir'
  · exact ⟨hval, hdir'⟩

theorem Restores.at_not_needed (hneed : ¬Needed e q) : e'[q]? = e[q]? := by
  rcases h.change q with hsame | ⟨hq, -⟩
  · exact hsame
  · exact (hneed hq).elim

omit h in
/-- An entry stays, or gives way to a directory and is kept in the log. -/
theorem Restores.at_some {scope : ByteString → Prop} (h : Restores l r scope e e' log) {v : FsEntry}
    (hv : e[q]? = some v) :
    e'[q]? = some v ∨ (v.isDirectory = false ∧ ∃ d, e'[q]? = some d ∧ d.isDirectory ∧
        directoryOf l r q = some d ∧ entryConflict q d v ∈ log) := by
  rcases h.change q with hsame | ⟨-, hdir, hval, hdir'⟩
  · exact .inl (hsame.trans hv)
  · obtain ⟨d, hd, hd'⟩ := (isDirectoryAt_iff _ _).1 hdir'
    refine .inr ⟨by simpa [isDirectoryAt, hv] using hdir, d, hd, hd', hval.symm.trans hd, ?_⟩
    exact h.complete q d v hdir hd hd' hv

theorem Restores.eq_of_closed (hclosed : Closed e) : e' = e ∧ log = [] := by
  have hsame : e' = e := OrdMap.ext fun q => by
    rcases h.change q with hsame | ⟨⟨p, hp, hup⟩, hdir, -⟩
    · exact hsame
    · rw [hclosed.upward (hclosed.parent p hp) hup] at hdir
      simp at hdir
  refine ⟨hsame, eq_nil_iff_forall_not_mem.2 fun c hc => ?_⟩
  obtain ⟨q, d, f, hdir, hd, hd', -⟩ := h.sound c hc
  rw [hsame] at hd
  rw [(isDirectoryAt_iff _ _).2 ⟨d, hd, hd'⟩] at hdir
  simp at hdir

end

end Macha
