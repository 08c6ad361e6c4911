import Macha.Service.PathTable

/-!
# The path table follows the tree

A table shows some files and some directories: the files with their own facts, each
directory with the sums of the files beneath it. Every operation on a table is the
operation on the files and directories it shows, so that filling a table and
updating one end at the files and directories of the namespace.
-/

namespace Macha

open List Option OrdMap

open AvailabilityPaths

/-! ## What a table shows -/

abbrev FileTable := OrdMap ByteString PathAvailability

def partAbove (a : ByteString) (item : ByteString × PathAvailability) : Option PathCounts :=
  if a ∈ ancestorsOf item.1 then some item.2.toPathCounts else none

def sumsBeneath (files : FileTable) (a : ByteString) : PathCounts :=
  (files.toList.filterMap (partAbove a)).sum

def directoryFacts (files : FileTable) (a : ByteString) : PathAvailability :=
  { toPathCounts := sumsBeneath files a, directory := true }

/-- The table lists exactly these files and directories. -/
structure Shows (out : AvailabilityPaths) (files : FileTable) (directories : ByteString → Prop) :
    Prop where
  file : ∀ (p : ByteString) (f : PathAvailability), files[p]? = some f → out.paths[p]? = some f
  directory : ∀ p, directories p → out.paths[p]? = some (directoryFacts files p)
  only : ∀ p : ByteString, out.paths[p]?.isSome → files[p]?.isSome ∨ directories p
  apart : ∀ p, directories p → files[p]? = none
  above : ∀ (p : ByteString) (f : PathAvailability), files[p]? = some f → ∀ a ∈ ancestorsOf p, directories a
  plain : ∀ (p : ByteString) (f : PathAvailability), files[p]? = some f → f.directory = false
  byHash : out.byHash.Perm (files.toList.map fun item => (item.2.hash, item.1))

variable {out other : AvailabilityPaths} {files : FileTable} {directories : ByteString → Prop}
  {path a : ByteString} {file : PathAvailability}

theorem Shows.not_listed (h : Shows out files directories) {p : ByteString}
    (hfile : files[p]? = none) (hdir : ¬ directories p) : out.paths[p]? = none := by
  by_contra hne
  rcases h.only p (isSome_iff_ne_none.2 hne) with hsome | hdir'
  · rw [hfile] at hsome
    cases hsome
  · exact hdir hdir'

theorem Shows.unique (h : Shows out files directories) (h' : Shows other files directories) :
    out.paths = other.paths ∧ out.byHash.Perm other.byHash := by
  refine ⟨OrdMap.ext fun p => ?_, h.byHash.trans h'.byHash.symm⟩
  cases hf : files[p]? with
  | some f => rw [h.file p f hf, h'.file p f hf]
  | none =>
    by_cases hd : directories p
    · rw [h.directory p hd, h'.directory p hd]
    · rw [h.not_listed hf hd, h'.not_listed hf hd]

theorem Shows.congr (h : Shows out files directories) {others : ByteString → Prop}
    (hsame : ∀ p, directories p ↔ others p) : Shows out files others := by
  have heq : directories = others := funext fun p => propext (hsame p)
  exact heq ▸ h

theorem sumsBeneath_of_some (h : files[path]? = some file) :
    sumsBeneath files a = (if a ∈ ancestorsOf path then file.toPathCounts else 0) +
      sumsBeneath (files.erase path) a := by
  have hperm := filterMap_toList_erase (partAbove a) files path
  unfold sumsBeneath
  rw [hperm.sum_eq, h]
  unfold partAbove
  by_cases ha : a ∈ ancestorsOf path
  · simp [ha]
  · simp [ha]

theorem sumsBeneath_insert (h : files[path]? = none) : sumsBeneath (files.insert path file) a =
      (if a ∈ ancestorsOf path then file.toPathCounts else 0) + sumsBeneath files a := by
  rw [sumsBeneath_of_some (getElem?_insert_self files path file), erase_insert, erase_eq_self h]

theorem sumsBeneath_eq_zero
    (h : ∀ p f, files[p]? = some f → a ∉ ancestorsOf p) :
    sumsBeneath files a = 0 := by
  have hnil : files.toList.filterMap (partAbove a) = [] := by
    refine filterMap_eq_nil_iff.2 fun item hitem => if_neg ?_
    exact h item.1 item.2 ((OrdMap.mem_toList _ _ _).1 hitem)
  unfold sumsBeneath
  rw [hnil]
  rfl

section

variable (h : Shows out files directories)

include h

theorem Shows.sums_of_not (ha : ¬ directories a) : sumsBeneath files a = 0 :=
  sumsBeneath_eq_zero fun p f hf hmem => ha (h.above p f hf a hmem)

section

variable (habsolute : Absolute path)

include habsolute

omit h in
theorem getElem?_addFile (p : ByteString) :
    (p ∈ ancestorsOf path → (out.addFile path file).paths[p]? =
      some ((out.paths.getD p {}).plus file)) ∧
    (p = path → (out.addFile path file).paths[p]? = some file) ∧
    (p ∉ ancestorsOf path → p ≠ path → (out.addFile path file).paths[p]? = out.paths[p]?) := by
  have hfold := getElem?_foldl_keys (g := addAbove file)
    (f := fun v => some ((v.getD {}).plus file))
    (fun m k => by
      unfold addAbove
      rw [getElem?_insert_self, getD_eq])
    (fun m k a hne => getElem?_insert_of_ne m _ hne)
    (.inl (nodup_ancestorsOf habsolute)) (out.paths.insert path file) p
  have hself := notMem_ancestorsOf habsolute
  refine ⟨fun hmem => ?_, fun heq => ?_, fun hnot hne => ?_⟩
  · have hne : path ≠ p := fun heq => hself (heq ▸ hmem)
    refine (hfold.trans (if_pos hmem)).trans ?_
    rw [getElem?_insert_of_ne _ _ hne, getD_eq]
  · subst heq
    refine (hfold.trans (if_neg hself)).trans ?_
    rw [getElem?_insert_self]
  · refine (hfold.trans (if_neg hnot)).trans ?_
    rw [getElem?_insert_of_ne _ _ (Ne.symm hne)]

theorem Shows.addFile (hplain : file.directory = false) (hnew : files[path]? = none)
    (hbelow : ∀ p f, files[p]? = some f → path ∉ ancestorsOf p)
    (habove : ∀ a ∈ ancestorsOf path, files[a]? = none) :
    Shows (out.addFile path file) (files.insert path file)
      fun p => directories p ∧ p ≠ path ∨ p ∈ ancestorsOf path := by
  have hself := notMem_ancestorsOf habsolute
  refine ⟨fun p f hf => ?_, fun p hd => ?_, fun p hp => ?_, fun p hd => ?_, fun p f hf a ha => ?_,
    fun p f hf => ?_, ?_⟩
  · rcases getElem?_insert_eq_some hf with ⟨rfl, rfl⟩ | ⟨hne, hf⟩
    · exact (getElem?_addFile habsolute _).2.1 rfl
    · have hnot : p ∉ ancestorsOf path := fun hmem => by
        rw [habove p hmem] at hf
        cases hf
      rw [(getElem?_addFile habsolute p).2.2 hnot (Ne.symm hne), h.file p f hf]
  · unfold directoryFacts
    rw [sumsBeneath_insert hnew]
    by_cases hmem : p ∈ ancestorsOf path
    · rw [(getElem?_addFile habsolute p).1 hmem, if_pos hmem, getD_eq]
      by_cases hdir : directories p
      · rw [h.directory p hdir, add_comm]
        rfl
      · rw [h.not_listed (habove p hmem) hdir, h.sums_of_not hdir, add_comm]
        rfl
    · obtain ⟨hdir, hne⟩ := hd.resolve_right hmem
      rw [(getElem?_addFile habsolute p).2.2 hmem hne, if_neg hmem, zero_add, h.directory p hdir]
      rfl
  · rw [OrdMap.getElem?_insert]
    by_cases hmem : p ∈ ancestorsOf path
    · exact .inr (.inr hmem)
    · by_cases heq : path = p
      · rw [if_pos heq]
        exact .inl rfl
      · rw [(getElem?_addFile habsolute p).2.2 hmem (Ne.symm heq)] at hp
        rw [if_neg heq]
        exact (h.only p hp).imp_right fun hd => .inl ⟨hd, Ne.symm heq⟩
  · rcases hd with ⟨hd, hne⟩ | hmem
    · rw [getElem?_insert_of_ne _ _ (Ne.symm hne), h.apart p hd]
    · have hne : path ≠ p := fun heq => hself (heq ▸ hmem)
      rw [getElem?_insert_of_ne _ _ hne, habove p hmem]
  · rcases getElem?_insert_eq_some hf with ⟨rfl, rfl⟩ | ⟨-, hf⟩
    · exact .inr ha
    · exact .inl ⟨h.above p f hf a ha, fun heq => hbelow p f hf (heq ▸ ha)⟩
  · rcases getElem?_insert_eq_some hf with ⟨rfl, rfl⟩ | ⟨-, hf⟩
    · exact hplain
    · exact h.plain p f hf
  · have hperm := toList_perm_erase (getElem?_insert_self files path file)
    rw [erase_insert, erase_eq_self hnew] at hperm
    refine (perm_append_comm.trans ?_).trans (hperm.map _).symm
    exact h.byHash.cons _

omit h in
theorem getElem?_removeFile (p : ByteString) :
    (p ∈ ancestorsOf path → (out.removeFile path file).paths[p]? =
      out.paths[p]?.map fun above => above.minus file) ∧
    (p = path → (out.removeFile path file).paths[p]? = none) ∧
    (p ∉ ancestorsOf path → p ≠ path → (out.removeFile path file).paths[p]? = out.paths[p]?) := by
  have hfold := getElem?_foldl_keys (g := removeAbove file)
    (f := fun v => v.map fun above => above.minus file)
    (fun m k => by
      unfold removeAbove
      cases hk : m[k]? with
      | none => exact hk
      | some above => exact getElem?_insert_self _ _ _)
    (fun m k a hne => by
      unfold removeAbove
      cases m[k]? with
      | none => rfl
      | some above => exact getElem?_insert_of_ne m _ hne)
    (.inl (nodup_ancestorsOf habsolute)) (out.paths.erase path) p
  have hself := notMem_ancestorsOf habsolute
  refine ⟨fun hmem => ?_, fun heq => ?_, fun hnot hne => ?_⟩
  · have hne : path ≠ p := fun heq => hself (heq ▸ hmem)
    refine (hfold.trans (if_pos hmem)).trans ?_
    rw [getElem?_erase_of_ne _ hne]
  · subst heq
    refine (hfold.trans (if_neg hself)).trans ?_
    rw [getElem?_erase, if_pos rfl]
  · refine (hfold.trans (if_neg hnot)).trans ?_
    rw [getElem?_erase_of_ne _ (Ne.symm hne)]

theorem Shows.removeFile (hfile : files[path]? = some file) :
    Shows (out.removeFile path file) (files.erase path) directories := by
  have habove := h.above path file hfile
  refine ⟨fun p f hf => ?_, fun p hd => ?_, fun p hp => ?_, fun p hd => ?_, fun p f hf a ha => ?_,
    fun p f hf => ?_, ?_⟩
  · obtain ⟨hne, hf⟩ := getElem?_erase_eq_some hf
    have hnot : p ∉ ancestorsOf path := fun hmem => by
      rw [h.apart p (habove p hmem)] at hf
      cases hf
    rw [(getElem?_removeFile habsolute p).2.2 hnot (Ne.symm hne), h.file p f hf]
  · have hsums := sumsBeneath_of_some (a := p) hfile
    have hlisted := h.directory p hd
    unfold directoryFacts at hlisted ⊢
    by_cases hmem : p ∈ ancestorsOf path
    · rw [if_pos hmem] at hsums
      rw [(getElem?_removeFile habsolute p).1 hmem, hlisted, hsums]
      show some (PathAvailability.mk (file.toPathCounts + sumsBeneath (files.erase path) p -
        file.toPathCounts) true []) = _
      rw [add_sub_cancel_left]
    · rw [if_neg hmem, zero_add] at hsums
      have hne : p ≠ path := fun heq => by
        rw [← heq, h.apart p hd] at hfile
        cases hfile
      rw [(getElem?_removeFile habsolute p).2.2 hmem hne, hlisted, hsums]
  · by_cases hmem : p ∈ ancestorsOf path
    · exact .inr (habove p hmem)
    · by_cases heq : p = path
      · rw [(getElem?_removeFile habsolute p).2.1 heq] at hp
        cases hp
      · rw [(getElem?_removeFile habsolute p).2.2 hmem heq] at hp
        rw [getElem?_erase_of_ne _ (Ne.symm heq)]
        exact h.only p hp
  · rw [getElem?_erase]
    split
    · rfl
    · exact h.apart p hd
  · exact h.above p f (getElem?_erase_eq_some hf).2 a ha
  · exact h.plain p f (getElem?_erase_eq_some hf).2
  · have hperm := (toList_perm_erase hfile).map fun item => (item.2.hash, item.1)
    have herase := (h.byHash.trans hperm).erase (file.hash, path)
    rw [map_cons, erase_cons_head] at herase
    exact herase

end

theorem Shows.addDirectory (hnew : files[path]? = none) :
    Shows (out.addDirectory path) files fun p => directories p ∨ p = path := by
  have hsame : (out.addDirectory path).paths[path]? =
      some { out.paths.getD path {} with directory := true } := getElem?_insert_self _ _ _
  have hother {p : ByteString} (hne : path ≠ p) :
      (out.addDirectory path).paths[p]? = out.paths[p]? := getElem?_insert_of_ne _ _ hne
  refine ⟨fun p f hf => ?_, fun p hd => ?_, fun p hp => ?_, fun p hd => ?_,
    fun p f hf a ha => .inl (h.above p f hf a ha), h.plain, h.byHash⟩
  · have hne : path ≠ p := fun heq => by
      rw [← heq, hnew] at hf
      cases hf
    rw [hother hne, h.file p f hf]
  · by_cases heq : path = p
    · subst heq
      rw [hsame, getD_eq]
      by_cases hdir : directories path
      · rw [h.directory path hdir]
        rfl
      · unfold directoryFacts
        rw [h.not_listed hnew hdir, h.sums_of_not hdir]
        rfl
    · rw [hother heq, h.directory p (hd.resolve_right (Ne.symm heq))]
  · by_cases heq : path = p
    · exact .inr (.inr heq.symm)
    · rw [hother heq] at hp
      exact (h.only p hp).imp_right .inl
  · rcases hd with hd | rfl
    · exact h.apart p hd
    · exact hnew

theorem Shows.dropDirectory (hdir : directories path)
    (hempty : ∀ p f, files[p]? = some f → path ∉ ancestorsOf p) :
    Shows { out with paths := out.paths.erase path } files
      fun p => directories p ∧ p ≠ path := by
  refine ⟨fun p f hf => ?_, fun p hd => ?_, fun p hp => ?_, fun p hd => h.apart p hd.1,
    fun p f hf a ha => ⟨h.above p f hf a ha, fun heq => hempty p f hf (heq ▸ ha)⟩, h.plain,
    h.byHash⟩
  · have hne : path ≠ p := fun heq => by
      rw [← heq, h.apart path hdir] at hf
      cases hf
    rw [getElem?_erase_of_ne _ hne, h.file p f hf]
  · rw [getElem?_erase_of_ne _ (Ne.symm hd.2), h.directory p hd.1]
  · have hp : (out.paths.erase path)[p]?.isSome = true := hp
    rw [getElem?_erase] at hp
    split at hp
    · cases hp
    · next hne => exact (h.only p hp).imp_right fun hd => ⟨hd, Ne.symm hne⟩

end

/-! ## The files of a namespace -/

section

variable (fileMediaId : FsEntry → ByteString) (answers : ExtentAnswers)

theorem countExtent_unknown {answers : ExtentAnswers} (h : ∀ id, answers.unknown id = false)
    (facts : PathCounts) (extents : List ExtentRef) :
    (extents.foldl (countExtent answers) facts).extentsUnknown = facts.extentsUnknown := by
  induction extents generalizing facts with
  | nil => rfl
  | cons extent extents ih =>
    rw [foldl_cons, ih]
    unfold countExtent
    rw [h]
    split
    · rfl
    · split
      · rfl
      · split <;> rfl

theorem fileFacts_lastKnown {answers : ExtentAnswers} (h : ∀ id, answers.unknown id = false)
    (entry : FsEntry) (lastKnown : Option AvailabilityPaths) :
    fileFacts fileMediaId answers entry lastKnown = fileFacts fileMediaId answers entry none := by
  have hzero := countExtent_unknown h { size := UInt64.ofNat entry.size } entry.extents
  unfold fileFacts
  rw [if_pos hzero, if_pos hzero]

theorem fileFacts_directory (entry : FsEntry) (lastKnown : Option AvailabilityPaths) :
    (fileFacts fileMediaId answers entry lastKnown).directory = false := by
  unfold fileFacts
  dsimp only
  split
  · rfl
  · split <;> rfl

/-- How an entry that is a file is listed. -/
def fileOf (entry : FsEntry) : Option PathAvailability :=
  if entry.type = .file then some (fileFacts fileMediaId answers entry none) else none

def filesOf (entries : NamespaceEntries) : FileTable :=
  tabulate entries.keys fun p => entries[p]?.bind (fileOf fileMediaId answers)

theorem getElem?_filesOf (entries : NamespaceEntries) (p : ByteString) :
    (filesOf fileMediaId answers entries)[p]? = entries[p]?.bind (fileOf fileMediaId answers) := by
  refine getElem?_tabulate_of_support (fun p hsome => ?_) p
  rw [OrdMap.mem_keys]
  cases hp : entries[p]? with
  | none =>
    rw [hp] at hsome
    cases hsome
  | some entry => rfl

variable {fileMediaId answers} {entries : NamespaceEntries} {p : ByteString}

theorem filesOf_of_directory (h : isDirectoryAt entries p) :
    (filesOf fileMediaId answers entries)[p]? = none := by
  obtain ⟨entry, hentry, hdir⟩ := (isDirectoryAt_iff _ _).1 h
  rw [getElem?_filesOf, hentry]
  refine if_neg fun hfile => ?_
  unfold FsEntry.isDirectory at hdir
  rw [hfile] at hdir
  cases hdir

theorem not_directory (h : entries[p]? = none) (hd : isDirectoryAt entries p) : False := by
  have hpresent := PathNamespace.isSome_of_directory hd
  rw [h] at hpresent
  cases hpresent

theorem isSome_of_filesOf {f : PathAvailability}
    (h : (filesOf fileMediaId answers entries)[p]? = some f) : entries[p]?.isSome = true := by
  rw [getElem?_filesOf] at h
  obtain ⟨entry, hentry, -⟩ := bind_eq_some_iff.1 h
  rw [hentry]
  rfl

theorem PathNamespace.not_above (h : PathNamespace entries) {q : ByteString}
    {f g : PathAvailability} (hf : (filesOf fileMediaId answers entries)[p]? = some f)
    (hg : (filesOf fileMediaId answers entries)[q]? = some g) : p ∉ ancestorsOf q := by
  intro hmem
  rw [filesOf_of_directory (h.ancestor (isSome_of_filesOf hg) hmem)] at hf
  cases hf

end

/-! ## Listing entries -/

section

variable {fileMediaId : FsEntry → ByteString} {answers : ExtentAnswers} {entries : NamespaceEntries}
  {lastKnown : Option AvailabilityPaths}

/-- On the way to a namespace: the files that are not still to come, the directories that are
not still to come, and perhaps others within bounds. -/
structure Nearing (fileMediaId : FsEntry → ByteString) (answers : ExtentAnswers)
    (entries : NamespaceEntries) (bound : ByteString → Prop) (left : List ByteString)
    (files : FileTable) (directories : ByteString → Prop) : Prop where
  coming : ∀ p ∈ left, files[p]? = none
  files : ∀ p ∉ left, files[p]? = (filesOf fileMediaId answers entries)[p]?
  bounded : ∀ p, directories p → bound p
  replaced : ∀ p, directories p → (filesOf fileMediaId answers entries)[p]?.isSome → p ∈ left
  listed : ∀ p, isDirectoryAt entries p → p ∉ left → directories p

/-- One entry to list, if there is one at the path. -/
def listEntry (fileMediaId : FsEntry → ByteString) (answers : ExtentAnswers)
    (lastKnown : Option AvailabilityPaths) (out : AvailabilityPaths)
    (item : ByteString × Option FsEntry) : AvailabilityPaths :=
  match item.2 with
  | none => out
  | some entry => fillEntry fileMediaId answers lastKnown out (item.1, entry)

theorem directory_of_not_file {entry : FsEntry} (hentry : entries[path]? = some entry)
    (hfile : entry.type ≠ .file) : isDirectoryAt entries path := by
  refine (isDirectoryAt_iff _ _).2 ⟨entry, hentry, ?_⟩
  unfold FsEntry.isDirectory
  cases htype : entry.type with
  | directory => rfl
  | file => exact absurd htype hfile

variable {bound : ByteString → Prop} {left : List ByteString}

theorem Nearing.known (h : Nearing fileMediaId answers entries bound left files directories)
    {q : ByteString} {f : PathAvailability} (hf : files[q]? = some f) :
    (filesOf fileMediaId answers entries)[q]? = some f := by
  by_cases hq : q ∈ left
  · rw [h.coming q hq] at hf
    cases hf
  · rw [← h.files q hq, hf]

theorem shows_empty : Shows {} ∅ fun _ => False := by
  refine ⟨fun p f hf => ?_, nofun, fun p hp => ?_, nofun, fun p f hf => ?_, fun p f hf => ?_, ?_⟩
  · exact elim_empty hf
  · have hp : (∅ : OrdMap ByteString PathAvailability)[p]?.isSome = true := hp
    cases hp
  · exact elim_empty hf
  · exact elim_empty hf
  · have hnil : (∅ : FileTable).toList = [] := rfl
    exact List.Perm.nil

theorem toList_eq_keys (entries : NamespaceEntries) :
    entries.toList.map (fun item => (item.1, some item.2)) =
      entries.keys.map fun p => (p, entries[p]?) := by
  rw [← Std.ExtTreeMap.map_fst_toList_eq_keys, List.map_map]
  refine map_congr_left fun item hitem => ?_
  rw [Function.comp_apply, (OrdMap.mem_toList _ _ _).1 hitem]

variable (hN : PathNamespace entries) (hunknown : ∀ id, answers.unknown id = false)
  (hbound : ∀ p, isDirectoryAt entries p → bound p)

section

variable (hfresh : path ∉ left)
  (h : Nearing fileMediaId answers entries bound (path :: left) files directories)

include h

theorem Nearing.absent (hentry : entries[path]? = none) :
    Nearing fileMediaId answers entries bound left files directories := by
  have hgone : (filesOf fileMediaId answers entries)[path]? = none := by
    rw [getElem?_filesOf, hentry]
    rfl
  refine ⟨fun p hp => h.coming p (mem_cons_of_mem _ hp), fun p hp => ?_, h.bounded,
    fun p hd hf => ?_, fun p hd hp => ?_⟩
  · by_cases heq : p = path
    · rw [heq, h.coming path mem_cons_self, hgone]
    · exact h.files p (not_mem_cons_of_ne_of_not_mem heq hp)
  · refine (mem_cons.1 (h.replaced p hd hf)).resolve_left fun heq => ?_
    rw [heq, hgone] at hf
    cases hf
  · refine h.listed p hd (not_mem_cons_of_ne_of_not_mem (fun heq => ?_) hp)
    exact not_directory hentry (heq ▸ hd)

include hbound

theorem Nearing.add_directory (hdir : isDirectoryAt entries path) :
    Nearing fileMediaId answers entries bound left files fun p => directories p ∨ p = path := by
  have hnone : (filesOf fileMediaId answers entries)[path]? = none := filesOf_of_directory hdir
  refine ⟨fun p hp => h.coming p (mem_cons_of_mem _ hp), fun p hp => ?_, fun p hd => ?_,
    fun p hd hf => ?_, fun p hd hp => ?_⟩
  · by_cases heq : p = path
    · rw [heq, h.coming path mem_cons_self, hnone]
    · exact h.files p (not_mem_cons_of_ne_of_not_mem heq hp)
  · rcases hd with hd | rfl
    · exact h.bounded p hd
    · exact hbound p hdir
  · have hne : p ≠ path := fun heq => by
      rw [heq, hnone] at hf
      cases hf
    exact (mem_cons.1 (h.replaced p (hd.resolve_right hne) hf)).resolve_left hne
  · by_cases heq : p = path
    · exact .inr heq
    · exact .inl (h.listed p hd (not_mem_cons_of_ne_of_not_mem heq hp))

include hN hfresh

theorem Nearing.add_file {facts : PathAvailability}
    (hfacts : (filesOf fileMediaId answers entries)[path]? = some facts) :
    Nearing fileMediaId answers entries bound left (files.insert path facts)
      fun p => directories p ∧ p ≠ path ∨ p ∈ ancestorsOf path := by
  have hpresent := isSome_of_filesOf hfacts
  refine ⟨fun p hp => ?_, fun p hp => ?_, fun p hd => ?_, fun p hd hf => ?_, fun p hd hp => ?_⟩
  · have hne : path ≠ p := fun heq => hfresh (heq ▸ hp)
    rw [getElem?_insert_of_ne _ _ hne]
    exact h.coming p (mem_cons_of_mem _ hp)
  · by_cases heq : path = p
    · rw [← heq, getElem?_insert_self, hfacts]
    · rw [getElem?_insert_of_ne _ _ heq, h.files p (not_mem_cons_of_ne_of_not_mem (Ne.symm heq) hp)]
  · rcases hd with ⟨hd, -⟩ | hmem
    · exact h.bounded p hd
    · exact hbound p (hN.ancestor hpresent hmem)
  · rcases hd with ⟨hd, hne⟩ | hmem
    · exact (mem_cons.1 (h.replaced p hd hf)).resolve_left hne
    · rw [filesOf_of_directory (hN.ancestor hpresent hmem)] at hf
      cases hf
  · have hne : p ≠ path := fun heq => by
      rw [filesOf_of_directory (heq ▸ hd)] at hfacts
      cases hfacts
    exact .inl ⟨h.listed p hd (not_mem_cons_of_ne_of_not_mem hne hp), hne⟩

include hunknown in
theorem Nearing.step (hshows : Shows out files directories) (lastKnown : Option AvailabilityPaths) :
    ∃ files' directories', Nearing fileMediaId answers entries bound left files' directories' ∧
      Shows (listEntry fileMediaId answers lastKnown out (path, entries[path]?)) files'
        directories' := by
  have hnone : files[path]? = none := h.coming path mem_cons_self
  cases hentry : entries[path]? with
  | none => exact ⟨files, directories, h.absent hentry, hshows⟩
  | some entry =>
    have hpresent : entries[path]?.isSome = true := by rw [hentry]; rfl
    by_cases hfile : entry.type = .file
    · have hfacts : (filesOf fileMediaId answers entries)[path]? =
          some (fileFacts fileMediaId answers entry lastKnown) := by
        rw [getElem?_filesOf, hentry, fileFacts_lastKnown fileMediaId hunknown]
        exact if_pos hfile
      have habove a (ha : a ∈ ancestorsOf path) : files[a]? = none := by
        by_contra hne
        obtain ⟨f, hf⟩ := ne_none_iff_exists'.1 hne
        have hknown := h.known hf
        rw [filesOf_of_directory (hN.ancestor hpresent ha)] at hknown
        cases hknown
      have hadd := hshows.addFile (hN.absolute hpresent)
        (fileFacts_directory fileMediaId answers entry lastKnown) hnone
        (fun q f hf => hN.not_above hfacts (h.known hf)) habove
      refine ⟨_, _, h.add_file hN hbound hfresh hfacts, ?_⟩
      show Shows (fillEntry fileMediaId answers lastKnown out (path, entry)) _ _
      unfold fillEntry
      rw [if_pos hfile]
      exact hadd
    · refine ⟨_, _, h.add_directory hbound (directory_of_not_file hentry hfile), ?_⟩
      show Shows (fillEntry fileMediaId answers lastKnown out (path, entry)) _ _
      unfold fillEntry
      rw [if_neg hfile]
      exact hshows.addDirectory hnone

end

include hN hunknown

include hbound in
theorem Nearing.fold (hleft : left.Nodup)
    (h : Nearing fileMediaId answers entries bound left files directories)
    (hshows : Shows out files directories) (lastKnown : Option AvailabilityPaths) :
    ∃ directories', (∀ p, directories' p → bound p) ∧
      (∀ p, isDirectoryAt entries p → directories' p) ∧
      Shows ((left.map fun p => (p, entries[p]?)).foldl
        (listEntry fileMediaId answers lastKnown) out) (filesOf fileMediaId answers entries)
        directories' := by
  induction left generalizing out files directories with
  | nil =>
    have hsame : files = filesOf fileMediaId answers entries :=
      OrdMap.ext fun p => h.files p not_mem_nil
    exact ⟨directories, h.bounded, fun p hd => h.listed p hd not_mem_nil, hsame ▸ hshows⟩
  | cons path left ih =>
    obtain ⟨hfresh, hleft⟩ := nodup_cons.1 hleft
    obtain ⟨files', directories', hnear, hshows'⟩ :=
      h.step hN hunknown hbound hfresh hshows lastKnown
    exact ih hleft hnear hshows'

theorem shows_fillPathTable :
    Shows (fillPathTable fileMediaId answers entries lastKnown)
      (filesOf fileMediaId answers entries) fun p => isDirectoryAt entries p := by
  have hstart : Nearing fileMediaId answers entries (fun p => isDirectoryAt entries p)
      entries.keys ∅ fun _ => False := by
    have habsent {p : ByteString} (hp : p ∉ entries.keys) : entries[p]? = none := by
      rw [OrdMap.mem_keys] at hp
      exact not_isSome_iff_eq_none.1 hp
    refine ⟨fun p _ => Std.ExtTreeMap.getElem?_empty, fun p hp => ?_, nofun, nofun,
      fun p hd hp => ?_⟩
    · rw [getElem?_filesOf, habsent hp, Std.ExtTreeMap.getElem?_empty]
      rfl
    · exact (not_directory (habsent hp) hd).elim
  have hnodup : entries.keys.Nodup := by
    rw [← Std.ExtTreeMap.map_fst_toList_eq_keys]
    exact pairwise_map.2 (toList_pairwise_ne entries)
  obtain ⟨directories', hbound, hlisted, hshows⟩ :=
    hstart.fold hN hunknown (fun p hd => hd) hnodup shows_empty lastKnown
  have hfold : fillPathTable fileMediaId answers entries lastKnown =
      (entries.keys.map fun p => (p, entries[p]?)).foldl
        (listEntry fileMediaId answers lastKnown) {} := by
    rw [← toList_eq_keys, foldl_map]
    rfl
  rw [hfold]
  exact hshows.congr fun p => ⟨hbound p, hlisted p⟩

end

/-! ## Following the differences -/

/-- The differences name every path whose entry is another, with both entries. -/
def ExactDifferences (before after : NamespaceEntries) (changes : NamespaceDifferences) : Prop :=
  ∀ p : ByteString, changes[p]? =
    if before[p]? = after[p]? then none else some ⟨before[p]?, after[p]?⟩

section

variable {fileMediaId : FsEntry → ByteString} {answers : ExtentAnswers}
  {before after : NamespaceEntries} {changes : NamespaceDifferences}

theorem ExactDifferences.mem_keys (h : ExactDifferences before after changes) {p : ByteString} :
    p ∈ changes.keys ↔ before[p]? ≠ after[p]? := by
  rw [OrdMap.mem_keys, h]
  by_cases heq : before[p]? = after[p]?
  · simp [heq]
  · simp [heq]

theorem ExactDifferences.toList_eq (h : ExactDifferences before after changes) :
    changes.toList = changes.keys.map fun p => (p, ⟨before[p]?, after[p]?⟩) := by
  rw [← Std.ExtTreeMap.map_fst_toList_eq_keys, List.map_map]
  conv_lhs => rw [← List.map_id changes.toList]
  refine map_congr_left fun item hitem => ?_
  have hget := (OrdMap.mem_toList _ _ _).1 hitem
  rw [h item.1] at hget
  split at hget
  · cases hget
  · obtain ⟨p, change⟩ := item
    rw [id, Function.comp_apply, some_inj.1 hget]

/-- On the way from a namespace: the files not yet taken out, and the directories noted. -/
structure Leaving (fileMediaId : FsEntry → ByteString) (answers : ExtentAnswers)
    (before after : NamespaceEntries) (left : List ByteString) (files : FileTable)
    (emptied : List ByteString) : Prop where
  kept : ∀ p : ByteString, p ∈ left ∨ before[p]? = after[p]? →
    files[p]? = (filesOf fileMediaId answers before)[p]?
  gone : ∀ p : ByteString, p ∉ left → before[p]? ≠ after[p]? → files[p]? = none
  noted : ∀ p : ByteString, isDirectoryAt before p → after[p]? = none → p ∈ emptied ∨ p ∈ left

variable {left emptied : List ByteString}

theorem Leaving.pass (h : Leaving fileMediaId answers before after (path :: left) files emptied)
    (hfile : (filesOf fileMediaId answers before)[path]? = none) {emptied' : List ByteString}
    (hmore : ∀ p ∈ emptied, p ∈ emptied')
    (hnoted : isDirectoryAt before path → after[path]? = none → path ∈ emptied') :
    Leaving fileMediaId answers before after left files emptied' := by
  refine ⟨fun p hp => h.kept p (hp.imp_left (mem_cons_of_mem _)), fun p hp hne => ?_,
    fun p hd hnone => ?_⟩
  · by_cases heq : p = path
    · rw [heq, h.kept path (.inl mem_cons_self), hfile]
    · exact h.gone p (not_mem_cons_of_ne_of_not_mem heq hp) hne
  · rcases h.noted p hd hnone with hmem | hmem
    · exact .inl (hmore p hmem)
    · rcases mem_cons.1 hmem with rfl | hmem
      · exact .inl (hnoted hd hnone)
      · exact .inr hmem

theorem Leaving.step (hM : PathNamespace before) (hfresh : path ∉ left)
    (h : Leaving fileMediaId answers before after (path :: left) files emptied)
    (hne : before[path]? ≠ after[path]?)
    (hshows : Shows out files fun p => isDirectoryAt before p) :
    ∃ files', Leaving fileMediaId answers before after left files'
        (dropBefore (out, emptied) (path, ⟨before[path]?, after[path]?⟩)).2 ∧
      Shows (dropBefore (out, emptied) (path, ⟨before[path]?, after[path]?⟩)).1 files'
        fun p => isDirectoryAt before p := by
  have hkept := h.kept path (.inl mem_cons_self)
  have hfiles := getElem?_filesOf fileMediaId answers before path
  unfold dropBefore
  cases hentry : before[path]? with
  | none =>
    rw [hentry] at hfiles
    exact ⟨files, h.pass hfiles (fun p hp => hp) fun hd _ => (not_directory hentry hd).elim,
      hshows⟩
  | some entry =>
    have hpresent : before[path]?.isSome = true := by rw [hentry]; rfl
    dsimp only
    by_cases hfile : entry.type = .file
    · obtain ⟨f, hf⟩ : ∃ f, files[path]? = some f := by
        rw [hkept, hfiles, hentry]
        exact ⟨_, if_pos hfile⟩
      rw [if_pos hfile, hshows.file path f hf]
      refine ⟨files.erase path, ⟨fun p hp => ?_, fun p hp hne => ?_, fun p hd hnone => ?_⟩,
        hshows.removeFile (hM.absolute hpresent) hf⟩
      · have hne' : path ≠ p := by
          rintro rfl
          exact hp.elim hfresh hne
        rw [getElem?_erase_of_ne _ hne']
        exact h.kept p (hp.imp_left (mem_cons_of_mem _))
      · rw [getElem?_erase]
        split
        · rfl
        · next hne' => exact h.gone p (not_mem_cons_of_ne_of_not_mem (Ne.symm hne') hp) hne
      · rcases h.noted p hd hnone with hmem | hmem
        · exact .inl (mem_append_right _ hmem)
        · refine .inr ((mem_cons.1 hmem).resolve_left fun heq => ?_)
          rw [heq] at hd
          have hnofile : (filesOf fileMediaId answers before)[path]? = none :=
            filesOf_of_directory hd
          rw [← hkept, hf] at hnofile
          cases hnofile
    · have hdir := directory_of_not_file hentry hfile
      have hnofile : (filesOf fileMediaId answers before)[path]? = none :=
        filesOf_of_directory hdir
      rw [if_neg hfile]
      by_cases hafter : after[path]? = none
      · rw [if_pos hafter]
        exact ⟨files, h.pass hnofile (fun p hp => mem_cons_of_mem _ hp)
          fun _ _ => mem_cons_self, hshows⟩
      · rw [if_neg hafter]
        exact ⟨files, h.pass hnofile (fun p hp => hp) fun _ hnone => absurd hnone hafter, hshows⟩

theorem Leaving.fold (hM : PathNamespace before) (hleft : left.Nodup)
    (hchanged : ∀ p ∈ left, before[p]? ≠ after[p]?)
    (h : Leaving fileMediaId answers before after left files emptied)
    (hshows : Shows out files fun p => isDirectoryAt before p) :
    ∃ files', Leaving fileMediaId answers before after [] files'
        ((left.map fun p => (p, (⟨before[p]?, after[p]?⟩ : NamespaceDifference))).foldl dropBefore
          (out, emptied)).2 ∧
      Shows ((left.map fun p => (p, (⟨before[p]?, after[p]?⟩ : NamespaceDifference))).foldl
        dropBefore (out, emptied)).1 files' fun p => isDirectoryAt before p := by
  induction left generalizing out files emptied with
  | nil => exact ⟨files, h, hshows⟩
  | cons path left ih =>
    obtain ⟨hfresh, hleft⟩ := nodup_cons.1 hleft
    obtain ⟨files', hnext, hshows'⟩ := h.step hM hfresh (hchanged path mem_cons_self) hshows
    exact ih hleft (fun p hp => hchanged p (mem_cons_of_mem _ hp)) hnext hshows'

/-! ## Directories that are listed no more -/

theorem fileBeneath_eq_false (hshows : Shows out files directories) (habsolute : Absolute path)
    (hroot : path ≠ rootPath)
    (hempty : ∀ p f, files[p]? = some f →
      path ∉ ancestorsOf p) : out.fileBeneath path = false := by
  unfold fileBeneath
  rw [if_neg hroot, List.any_eq_false]
  intro item hitem
  have hbeneath := mem_takeWhile_imp hitem
  have hlisted := (dropWhile_sublist _).subset ((takeWhile_sublist _).subset hitem)
  have hget := (OrdMap.mem_toList _ item.1 item.2).1 hlisted
  rw [Bool.not_eq_true, Bool.not_eq_false']
  rcases hshows.only item.1 (by rw [hget]; rfl) with hfile | hdir
  · obtain ⟨f, hf⟩ := isSome_iff_exists.1 hfile
    exact absurd (mem_ancestorsOf_beneath habsolute ( isPrefixOf_iff_prefix.1 hbeneath))
      (hempty item.1 f hf)
  · rw [hshows.directory item.1 hdir] at hget
    rw [← some_inj.1 hget]
    rfl

/-- The directories of the namespace, and those still to be taken out. -/
structure Emptying (entries : NamespaceEntries) (left : List ByteString)
    (directories : ByteString → Prop) : Prop where
  absolute : ∀ p, directories p → Absolute p
  listed : ∀ p, isDirectoryAt entries p → directories p
  extra : ∀ p, directories p → isDirectoryAt entries p ∨ entries[p]? = none ∧ p ∈ left

variable {entries : NamespaceEntries}

theorem Emptying.step (hN : PathNamespace entries) (h : Emptying entries (path :: left) directories)
    (hshows : Shows out (filesOf fileMediaId answers entries) directories) :
    ∃ directories', Emptying entries left directories' ∧
      Shows (dropEmptied entries out path) (filesOf fileMediaId answers entries) directories' := by
  have hstay (hnot : directories path → isDirectoryAt entries path) :
      Emptying entries left directories := by
    refine ⟨h.absolute, h.listed, fun p hd => ?_⟩
    rcases h.extra p hd with hdir | ⟨hnone, hmem⟩
    · exact .inl hdir
    · rcases mem_cons.1 hmem with rfl | hmem
      · exact .inl (hnot hd)
      · exact .inr ⟨hnone, hmem⟩
  unfold dropEmptied
  cases hfound : out.paths[path]? with
  | none =>
    refine ⟨directories, hstay fun hd => ?_, hshows⟩
    rw [hshows.directory path hd] at hfound
    cases hfound
  | some found =>
    dsimp only
    split
    · next hkeep =>
      refine ⟨directories, hstay fun hd => ?_, hshows⟩
      rcases hkeep with hplain | hcontains
      · rw [hshows.directory path hd] at hfound
        rw [← some_inj.1 hfound] at hplain
        cases hplain
      · rw [OrdMap.contains_iff] at hcontains
        rcases h.extra path hd with hdir | ⟨hnone, -⟩
        · exact hdir
        · rw [hnone] at hcontains
          cases hcontains
    · next hdrop =>
      obtain ⟨hlisted, habsent⟩ := not_or.1 hdrop
      rw [OrdMap.contains_iff, Bool.not_eq_true, isSome_eq_false_iff, isNone_iff_eq_none] at habsent
      have hd : directories path := by
        rcases hshows.only path (by rw [hfound]; rfl) with hfile | hd
        · obtain ⟨f, hf⟩ := isSome_iff_exists.1 hfile
          rw [hshows.file path f hf] at hfound
          rw [← some_inj.1 hfound] at hlisted
          exact absurd (hshows.plain path f hf) hlisted
        · exact hd
      have hroot : path ≠ rootPath := fun heq => not_directory habsent (heq ▸ hN.root)
      have hempty p f
          (hf : (filesOf fileMediaId answers entries)[p]? = some f) :
          path ∉ ancestorsOf p :=
        fun hmem => not_directory habsent (hN.ancestor (isSome_of_filesOf hf) hmem)
      rw [fileBeneath_eq_false hshows (h.absolute path hd) hroot hempty, if_neg Bool.false_ne_true]
      refine ⟨fun p => directories p ∧ p ≠ path, ⟨fun p hp => h.absolute p hp.1,
        fun p hp => ⟨h.listed p hp, ?_⟩, fun p hp => ?_⟩, hshows.dropDirectory hd hempty⟩
      · rintro rfl
        exact not_directory habsent hp
      · rcases h.extra p hp.1 with hdir | ⟨hnone, hmem⟩
        · exact .inl hdir
        · exact .inr ⟨hnone, (mem_cons.1 hmem).resolve_left hp.2⟩

theorem Emptying.fold (hN : PathNamespace entries) (h : Emptying entries left directories)
    (hshows : Shows out (filesOf fileMediaId answers entries) directories) :
    Shows (left.foldl (dropEmptied entries) out) (filesOf fileMediaId answers entries)
      fun p => isDirectoryAt entries p := by
  induction left generalizing out directories with
  | nil =>
    refine hshows.congr fun p => ⟨fun hd => ?_, h.listed p⟩
    exact (h.extra p hd).resolve_right fun hextra => not_mem_nil hextra.2
  | cons path left ih =>
    obtain ⟨directories', hnext, hshows'⟩ := h.step hN hshows
    exact ih hnext hshows'

theorem nodup_keys (changes : NamespaceDifferences) : changes.keys.Nodup := by
  rw [← Std.ExtTreeMap.map_fst_toList_eq_keys]
  exact pairwise_map.2 (toList_pairwise_ne changes)

theorem shows_updatePathTable (hM : PathNamespace before) (hN : PathNamespace after)
    (hunknown : ∀ id, answers.unknown id = false)
    (hchanges : ExactDifferences before after changes)
    (hshows : Shows out (filesOf fileMediaId answers before) fun p => isDirectoryAt before p) :
    Shows (updatePathTable fileMediaId answers out changes after)
      (filesOf fileMediaId answers after) fun p => isDirectoryAt after p := by
  have hstart : Leaving fileMediaId answers before after changes.keys
      (filesOf fileMediaId answers before) [] := by
    refine ⟨fun _ _ => rfl, fun p hp hne => absurd (hchanges.mem_keys.2 hne) hp,
      fun p hd hnone => .inr (hchanges.mem_keys.2 fun heq => ?_)⟩
    exact not_directory (heq.trans hnone) hd
  obtain ⟨files, hleaving, hdropped⟩ := hstart.fold hM (nodup_keys changes)
    (fun p hp => hchanges.mem_keys.1 hp) hshows
  rw [← hchanges.toList_eq] at hleaving hdropped
  have hfiles p (hp : p ∉ changes.keys) : before[p]? = after[p]? :=
    not_not.1 fun hne => hp (hchanges.mem_keys.2 hne)
  have hnear : Nearing fileMediaId answers after
      (fun p => isDirectoryAt before p ∨ isDirectoryAt after p) changes.keys files
      fun p => isDirectoryAt before p := by
    refine ⟨fun p hp => hleaving.gone p not_mem_nil (hchanges.mem_keys.1 hp), fun p hp => ?_,
      fun p hd => .inl hd, fun p hd hf => ?_, fun p hd hp => ?_⟩
    · rw [hleaving.kept p (.inr (hfiles p hp)), getElem?_filesOf, getElem?_filesOf, hfiles p hp]
    · by_contra hp
      rw [getElem?_filesOf, ← hfiles p hp, ← getElem?_filesOf, filesOf_of_directory hd] at hf
      cases hf
    · rwa [isDirectoryAt_congr (hfiles p hp)]
  obtain ⟨directories, hbound, hlisted, hadded⟩ := hnear.fold hN hunknown (fun p hd => .inr hd)
    (nodup_keys changes) hdropped none
  have hfold x : changes.toList.foldl (addAfter fileMediaId answers) x =
      (changes.keys.map fun p => (p, after[p]?)).foldl (listEntry fileMediaId answers none) x := by
    rw [hchanges.toList_eq, foldl_map, foldl_map]
    rfl
  rw [← hfold] at hadded
  refine Emptying.fold hN ⟨fun p hd => ?_, hlisted, fun p hd => ?_⟩ hadded
  · rcases hbound p hd with hd | hd
    · exact hM.absolute (PathNamespace.isSome_of_directory hd)
    · exact hN.absolute (PathNamespace.isSome_of_directory hd)
  · cases hentry : after[p]? with
    | none =>
      have hold : isDirectoryAt before p := (hbound p hd).resolve_right (not_directory hentry)
      refine .inr ⟨rfl, ?_⟩
      rw [mem_dedup, mem_insertionSort]
      exact (hleaving.noted p hold hentry).resolve_right not_mem_nil
    | some entry =>
      refine .inl (directory_of_not_file hentry fun hfile => ?_)
      have hnofile := hadded.apart p hd
      rw [getElem?_filesOf, hentry] at hnofile
      exact absurd (hnofile.symm.trans (if_pos hfile)) (by simp)

end

/-- The table of a namespace, brought to another namespace by what differs, is the table
that is filled for that one. -/
theorem update_path_table_follows (fileMediaId : FsEntry → ByteString) (answers : ExtentAnswers)
    (hunknown : ∀ id, answers.unknown id = false) {before after : NamespaceEntries}
    (hM : PathNamespace before) (hN : PathNamespace after) {changes : NamespaceDifferences}
    (hchanges : ExactDifferences before after changes)
    (lastBefore lastAfter : Option AvailabilityPaths) :
    let followed := updatePathTable fileMediaId answers
      (fillPathTable fileMediaId answers before lastBefore) changes after
    let filled := fillPathTable fileMediaId answers after lastAfter
    followed.paths = filled.paths ∧ followed.byHash.Perm filled.byHash :=
  (shows_updatePathTable hM hN hunknown hchanges (shows_fillPathTable hM hunknown)).unique
    (shows_fillPathTable hN hunknown)

namespace TwoPathNamespaces

def before : NamespaceEntries :=
  ((((∅ : NamespaceEntries).insert rootPath { type := .directory }).insert (bytes "/a")
    { type := .directory }).insert (bytes "/a/x") { size := 3, extents := [{ length := 3 }] }).insert
      (bytes "/a-b") { size := 2 }

/-- The directory has become a file, and its file is gone. -/
def after : NamespaceEntries :=
  ((∅ : NamespaceEntries).insert rootPath { type := .directory }).insert (bytes "/a") { size := 7 }

def answers : ExtentAnswers := ⟨fun _ => false, fun _ => true, fun _ => false⟩

def changes : NamespaceDifferences :=
  tabulate (before.keys ++ after.keys) fun p =>
    if before[p]? = after[p]? then none else some ⟨before[p]?, after[p]?⟩

theorem changes_exact : ExactDifferences before after changes := by
  refine fun p => getElem?_tabulate_of_support (fun p hsome => ?_) p
  rw [mem_append, OrdMap.mem_keys, OrdMap.mem_keys]
  by_contra hnot
  rw [not_or, not_isSome_iff_eq_none, not_isSome_iff_eq_none] at hnot
  rw [hnot.1, hnot.2] at hsome
  cases hsome

theorem pathNamespace_of_check {entries : NamespaceEntries} (hroot : isDirectoryAt entries rootPath)
    (h : ∀ p ∈ entries.keys, normalizePath p = p ∧ isDirectoryAt entries (parentPath p) = true) :
    PathNamespace entries :=
  ⟨⟨hroot, fun p hp => (h p ((OrdMap.mem_keys _ _).2 hp)).2⟩,
    fun p hp => (h p ((OrdMap.mem_keys _ _).2 hp)).1⟩

theorem table_follows :
    let followed := updatePathTable (fun entry => [entry.size]) answers
      (fillPathTable (fun entry => [entry.size]) answers before none) changes after
    let filled := fillPathTable (fun entry => [entry.size]) answers after none
    followed.paths = filled.paths ∧ followed.byHash.Perm filled.byHash :=
  update_path_table_follows _ answers (fun _ => rfl)
    (pathNamespace_of_check (by decide +kernel) (by decide +kernel))
    (pathNamespace_of_check (by decide +kernel) (by decide +kernel)) changes_exact none none

end TwoPathNamespaces

end Macha
