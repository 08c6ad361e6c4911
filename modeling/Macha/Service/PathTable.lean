import Macha.Metadata.MergeParents

/-!
# The availability of every path

`fill_path_table` lists every file and directory of a namespace with what is known
of its extents, a directory with the sums of the files beneath it;
`update_path_table` brings the table of one namespace to another from what differs.
-/

namespace Macha

open List

/-- What two namespaces hold at a path they differ at. -/
structure NamespaceDifference where
  before : Option FsEntry := none
  after : Option FsEntry := none
deriving DecidableEq

abbrev NamespaceDifferences := OrdMap ByteString NamespaceDifference

/-- What is added up along the directories above a file. -/
structure PathCounts where
  size : UInt64 := 0
  extents : UInt64 := 0
  extentsLocal : UInt64 := 0
  extentsUnavailable : UInt64 := 0
  extentsUnknown : UInt64 := 0
deriving DecidableEq

namespace PathCounts

instance : Zero PathCounts := ⟨{}⟩

instance : Add PathCounts :=
  ⟨fun a b => ⟨a.size + b.size, a.extents + b.extents, a.extentsLocal + b.extentsLocal,
    a.extentsUnavailable + b.extentsUnavailable, a.extentsUnknown + b.extentsUnknown⟩⟩

instance : Neg PathCounts :=
  ⟨fun a => ⟨-a.size, -a.extents, -a.extentsLocal, -a.extentsUnavailable, -a.extentsUnknown⟩⟩

instance : Sub PathCounts :=
  ⟨fun a b => ⟨a.size - b.size, a.extents - b.extents, a.extentsLocal - b.extentsLocal,
    a.extentsUnavailable - b.extentsUnavailable, a.extentsUnknown - b.extentsUnknown⟩⟩

instance : SMul ℕ PathCounts :=
  ⟨fun n a => ⟨n • a.size, n • a.extents, n • a.extentsLocal, n • a.extentsUnavailable,
    n • a.extentsUnknown⟩⟩

instance : SMul ℤ PathCounts :=
  ⟨fun n a => ⟨n • a.size, n • a.extents, n • a.extentsLocal, n • a.extentsUnavailable,
    n • a.extentsUnknown⟩⟩

def fields (a : PathCounts) : UInt64 × UInt64 × UInt64 × UInt64 × UInt64 :=
  (a.size, a.extents, a.extentsLocal, a.extentsUnavailable, a.extentsUnknown)

theorem fields_injective : Function.Injective fields := by
  intro a b h
  cases a
  cases b
  simpa [fields] using h

/-- The sums wrap, so that what was added can be taken off again. -/
instance : AddCommGroup PathCounts :=
  fields_injective.addCommGroup fields rfl (fun _ _ => rfl) (fun _ => rfl) (fun _ _ => rfl)
    (fun _ _ => rfl) (fun _ _ => rfl)

end PathCounts

structure PathAvailability extends PathCounts where
  directory : Bool := false
  hash : ByteString := []
deriving DecidableEq

/-- A file's part added to a directory above it. -/
def PathAvailability.plus (above file : PathAvailability) : PathAvailability :=
  { above with directory := true, toPathCounts := above.toPathCounts + file.toPathCounts }

/-- A file's part taken off a directory above it. -/
def PathAvailability.minus (above file : PathAvailability) : PathAvailability :=
  { above with toPathCounts := above.toPathCounts - file.toPathCounts }

/-- `parent_of`. Where there is no slash `rfind` finds none, and the path is its own parent. -/
def parentOf (path : ByteString) : ByteString :=
  if path.length ≤ 1 then []
  else if slash ∈ path then
    if rfind slash path = 0 then path.take 1 else path.take (rfind slash path)
  else path

def ancestorsFrom : Nat → ByteString → List ByteString
  | 0, _ => []
  | fuel + 1, path => if parentOf path = [] then [] else parentOf path ::
      ancestorsFrom fuel (parentOf path)

/-- The paths the loops over `parent_of` visit. -/
def ancestorsOf (path : ByteString) : List ByteString := ancestorsFrom path.length path

/-- `AvailabilitySnapshot`: the paths, and each file's path by its content. -/
structure AvailabilityPaths where
  paths : OrdMap ByteString PathAvailability := ∅
  byHash : List (ByteString × ByteString) := []

/-- What a survey and this node's holdings say of an extent. -/
structure ExtentAnswers where
  held : ObjectId → Bool
  unavailable : ObjectId → Bool
  unknown : ObjectId → Bool

def countExtent (answers : ExtentAnswers) (facts : PathCounts) (extent : ExtentRef) : PathCounts :=
  if extent.hole = true then facts
  else
    let facts := { facts with extents := facts.extents + 1 }
    if answers.held extent.id = true then { facts with extentsLocal := facts.extentsLocal + 1 }
    else if answers.unavailable extent.id = true then
      { facts with extentsUnavailable := facts.extentsUnavailable + 1 }
    else if answers.unknown extent.id = true then
      { facts with extentsUnknown := facts.extentsUnknown + 1 }
    else facts

/-- What `last_known` decided of a file with the same content. -/
def lastFacts (lastKnown : AvailabilityPaths) (facts : PathAvailability) :
    Option PathAvailability := do
  let known ← lastKnown.byHash.find? fun item => item.1 = facts.hash
  let was ← lastKnown.paths[known.2]?
  guard (was.hash = facts.hash ∧ was.extents = facts.extents ∧ was.extentsUnknown = 0)
  some was

section

variable (fileMediaId : FsEntry → ByteString) (answers : ExtentAnswers)

def fileFacts (entry : FsEntry) (lastKnown : Option AvailabilityPaths) : PathAvailability :=
  let counts := entry.extents.foldl (countExtent answers) { size := UInt64.ofNat entry.size }
  let facts : PathAvailability := { toPathCounts := counts, hash := fileMediaId entry }
  if facts.extentsUnknown = 0 then facts
  else
    match lastKnown.bind fun lastKnown => lastFacts lastKnown facts with
    | none => facts
    | some was =>
      { facts with
        extentsUnavailable := max facts.extentsUnavailable
          (min was.extentsUnavailable (facts.extents - facts.extentsLocal))
        extentsUnknown := 0 }

end

namespace AvailabilityPaths

/-- A file's part added to one directory above it, which is listed for it. -/
def addAbove (file : PathAvailability) (paths : OrdMap ByteString PathAvailability)
    (parent : ByteString) : OrdMap ByteString PathAvailability :=
  paths.insert parent ((paths.getD parent {}).plus file)

def addFile (out : AvailabilityPaths) (path : ByteString) (file : PathAvailability) :
    AvailabilityPaths where
  paths := (ancestorsOf path).foldl (addAbove file) (out.paths.insert path file)
  byHash := out.byHash ++ [(file.hash, path)]

/-- `out.paths[path].directory = true`. -/
def addDirectory (out : AvailabilityPaths) (path : ByteString) : AvailabilityPaths :=
  { out with paths := out.paths.insert path { out.paths.getD path {} with directory := true } }

/-- A file's part taken off one directory above it, if that is listed. -/
def removeAbove (file : PathAvailability) (paths : OrdMap ByteString PathAvailability)
    (parent : ByteString) : OrdMap ByteString PathAvailability :=
  match paths[parent]? with
  | some above => paths.insert parent (above.minus file)
  | none => paths

def removeFile (out : AvailabilityPaths) (path : ByteString) (file : PathAvailability) :
    AvailabilityPaths where
  paths := (ancestorsOf path).foldl (removeAbove file) (out.paths.erase path)
  byHash := out.byHash.erase (file.hash, path)

section

variable (fileMediaId : FsEntry → ByteString) (answers : ExtentAnswers)

/-- One entry of the walk of `fill_path_table`. -/
def fillEntry (lastKnown : Option AvailabilityPaths) (out : AvailabilityPaths)
    (item : ByteString × FsEntry) : AvailabilityPaths :=
  if item.2.type = .file then
    out.addFile item.1 (fileFacts fileMediaId answers item.2 lastKnown)
  else out.addDirectory item.1

/-- `fill_path_table`, into an empty table. -/
def fillPathTable (entries : OrdMap ByteString FsEntry) (lastKnown : Option AvailabilityPaths) :
    AvailabilityPaths :=
  entries.toList.foldl (fillEntry fileMediaId answers lastKnown) {}

/-- One change of the first loop of `update_path_table`, with the directories that may
have lost their reason to be listed. -/
def dropBefore (state : AvailabilityPaths × List ByteString)
    (item : ByteString × NamespaceDifference) : AvailabilityPaths × List ByteString :=
  match item.2.before with
  | none => state
  | some before =>
    if before.type = .file then
      match state.1.paths[item.1]? with
      | none => state
      | some file =>
        -- only the directories that are listed are noted
        (state.1.removeFile item.1 file, (ancestorsOf item.1).filter (fun parent =>
          (state.1.paths.erase item.1).contains parent) ++ state.2)
    else if item.2.after = none then (state.1, item.1 :: state.2) else state

def addAfter (out : AvailabilityPaths) (item : ByteString × NamespaceDifference) :
    AvailabilityPaths :=
  match item.2.after with
  | none => out
  | some after => fillEntry fileMediaId answers none out (item.1, after)

/-- Some file is listed right behind the path and beneath it. -/
def fileBeneath (out : AvailabilityPaths) (path : ByteString) : Bool :=
  let beneath := if path = rootPath then path else path ++ [slash]
  ((out.paths.toList.dropWhile fun item => decide (item.1 ≤ path)).takeWhile fun item =>
    beneath.isPrefixOf item.1).any fun item => !item.2.directory

/-- One directory of the last loop. -/
def dropEmptied (entries : OrdMap ByteString FsEntry) (out : AvailabilityPaths)
    (path : ByteString) : AvailabilityPaths :=
  match out.paths[path]? with
  | none => out
  | some found =>
    if found.directory = false ∨ entries.contains path = true then out
    else if out.fileBeneath path = true then out
    else { out with paths := out.paths.erase path }

/-- `update_path_table`, for the namespace the changes lead to. -/
def updatePathTable (previous : AvailabilityPaths) (changes : NamespaceDifferences)
    (entries : OrdMap ByteString FsEntry) : AvailabilityPaths :=
  let (out, emptied) := changes.toList.foldl dropBefore (previous, [])
  let out := changes.toList.foldl (addAfter fileMediaId answers) out
  ((emptied.insertionSort (· ≥ ·)).dedup).foldl (dropEmptied entries) out

end

end AvailabilityPaths

def Absolute (path : ByteString) : Prop := path.head? = some slash

theorem Absolute.exists {path : ByteString} (h : Absolute path) : ∃ rest, path = slash :: rest := by
  cases path with
  | nil => cases h
  | cons c rest =>
    cases h
    exact ⟨rest, rfl⟩

theorem rfind_lt {path : ByteString} (h : path ≠ []) : rfind slash path < path.length := by
  have hlength := length_pos_iff.2 h
  unfold rfind
  omega

theorem parentOf_absolute {path : ByteString} (h : Absolute path) (hne : parentOf path ≠ []) :
    Absolute (parentOf path) ∧ (parentOf path).length < path.length ∧ parentOf path <+: path := by
  obtain ⟨rest, rfl⟩ := h.exists
  unfold parentOf at hne ⊢
  split at hne
  · exact absurd rfl hne
  · next hlong =>
    have hmem : slash ∈ slash :: rest := mem_cons_self
    have hlt := rfind_lt (cons_ne_nil slash rest)
    rw [if_neg hlong, if_pos hmem]
    by_cases hzero : rfind slash (slash :: rest) = 0
    · rw [if_pos hzero]
      refine ⟨rfl, ?_, take_prefix _ _⟩
      rw [length_take]
      omega
    · rw [if_neg hzero]
      obtain ⟨n, hn⟩ := Nat.exists_eq_succ_of_ne_zero hzero
      refine ⟨?_, ?_, take_prefix _ _⟩
      · rw [hn]
        rfl
      · rw [length_take]
        omega

theorem mem_ancestorsFrom {path a : ByteString} (h : Absolute path) {fuel : Nat}
    (ha : a ∈ ancestorsFrom fuel path) : Absolute a ∧ a.length < path.length := by
  induction fuel generalizing path with
  | zero => cases ha
  | succ fuel ih =>
    unfold ancestorsFrom at ha
    split at ha
    · cases ha
    · next hne =>
      obtain ⟨habsolute, hshorter, -⟩ := parentOf_absolute h hne
      rcases mem_cons.1 ha with rfl | ha
      · exact ⟨habsolute, hshorter⟩
      · obtain ⟨ha, hlt⟩ := ih habsolute ha
        exact ⟨ha, hlt.trans hshorter⟩

theorem nodup_ancestorsFrom {path : ByteString} (h : Absolute path) (fuel : Nat) :
    (ancestorsFrom fuel path).Nodup := by
  induction fuel generalizing path with
  | zero => exact nodup_nil
  | succ fuel ih =>
    unfold ancestorsFrom
    split
    · exact nodup_nil
    · next hne =>
      obtain ⟨habsolute, -⟩ := parentOf_absolute h hne
      refine nodup_cons.2 ⟨fun hmem => ?_, ih habsolute⟩
      exact lt_irrefl _ (mem_ancestorsFrom habsolute hmem).2

theorem nodup_ancestorsOf {path : ByteString} (h : Absolute path) : (ancestorsOf path).Nodup :=
  nodup_ancestorsFrom h _

theorem notMem_ancestorsOf {path : ByteString} (h : Absolute path) : path ∉ ancestorsOf path :=
  fun hmem => lt_irrefl _ (mem_ancestorsFrom h hmem).2

theorem parentOf_append {front last : ByteString} (hfront : front ≠ []) (hlast : slash ∉ last) :
    parentOf (front ++ slash :: last) = front := by
  have hrfind := rfind_append_slash front last hlast
  have hlength : front.length ≠ 0 := fun h => hfront (length_eq_zero_iff.1 h)
  have hlong : ¬ (front ++ slash :: last).length ≤ 1 := by
    rw [length_append, length_cons]
    omega
  have hmem : slash ∈ front ++ slash :: last := mem_append_right _ mem_cons_self
  unfold parentOf
  rw [if_neg hlong, if_pos hmem, hrfind, if_neg hlength, take_left]

theorem exists_last_slash {path : ByteString} (h : slash ∈ path) :
    ∃ front last, path = front ++ slash :: last ∧ slash ∉ last := by
  obtain ⟨last, front, heq, hlast⟩ := eq_append_cons_of_mem (mem_reverse.2 h)
  refine ⟨front.reverse, last.reverse, ?_, fun hmem => hlast (mem_reverse.1 hmem)⟩
  have hreverse := congrArg reverse heq
  simpa using hreverse

/-- A path above another by its bytes is one the loop visits. -/
theorem mem_ancestorsOf_beneath {a path : ByteString} (ha : Absolute a)
    (h : a ++ [slash] <+: path) : a ∈ ancestorsOf path := by
  have hne : a ≠ [] := by
    obtain ⟨b, rfl⟩ := ha.exists
    exact cons_ne_nil _ _
  suffices key : ∀ fuel rest, (a ++ slash :: rest).length ≤ fuel →
      a ∈ ancestorsFrom fuel (a ++ slash :: rest) by
    obtain ⟨rest, rfl⟩ := h
    rw [append_assoc, singleton_append]
    exact key _ rest le_rfl
  intro fuel
  induction fuel with
  | zero =>
    intro rest hle
    rw [length_append, length_cons] at hle
    omega
  | succ fuel ih =>
    intro rest hle
    unfold ancestorsFrom
    by_cases hrest : slash ∈ rest
    · obtain ⟨front, last, rfl, hlast⟩ := exists_last_slash hrest
      have hsplit : a ++ slash :: (front ++ slash :: last) =
          (a ++ slash :: front) ++ slash :: last := by simp
      have hparent := parentOf_append (show a ++ slash :: front ≠ [] by simp) hlast
      rw [hsplit, hparent, if_neg (by simp)]
      refine mem_cons_of_mem _ (ih front ?_)
      simp only [length_append, length_cons] at hle ⊢
      omega
    · rw [parentOf_append hne hrest, if_neg hne]
      exact mem_cons_self

/-- A namespace: its paths are normalised, and its entries have their directories. -/
structure PathNamespace (entries : NamespaceEntries) : Prop extends Closed entries where
  normal : ∀ p : ByteString, entries[p]?.isSome → normalizePath p = p

theorem absolute_of_normal {path : ByteString} (h : normalizePath path = path) : Absolute path := by
  rw [← h, normalizePath, renderPath]
  split
  · rfl
  · next hne =>
    cases hv : components path with
    | nil => exact absurd hv hne
    | cons x v => rfl

theorem parentOf_rootPath : parentOf rootPath = [] := by decide

theorem parentOf_normal {path : ByteString} (h : normalizePath path = path)
    (hroot : path ≠ rootPath) : parentOf path = parentPath path := by
  obtain ⟨rest, hrest⟩ := (absolute_of_normal h).exists
  have hlong : ¬ path.length ≤ 1 := by
    intro hle
    rw [hrest, length_cons] at hle
    have hnil : rest = [] := length_eq_zero_iff.1 (by omega)
    exact hroot (by rw [hrest, hnil]; rfl)
  have hmem : slash ∈ path := by
    rw [hrest]
    exact mem_cons_self
  unfold parentOf parentPath
  rw [if_neg hlong, if_pos hmem, h, if_neg hroot]
  by_cases hzero : rfind slash path = 0
  · rw [if_pos hzero, if_neg (not_not.2 hzero), hrest]
    rfl
  · rw [if_neg hzero, if_pos hzero]

namespace PathNamespace

variable {entries : NamespaceEntries} {path a : ByteString}

theorem absolute (h : PathNamespace entries) (hpath : entries[path]?.isSome) : Absolute path :=
  absolute_of_normal (h.normal path hpath)

theorem isSome_of_directory (h : isDirectoryAt entries path) : entries[path]?.isSome = true := by
  obtain ⟨d, hd, -⟩ := (isDirectoryAt_iff _ _).1 h
  rw [hd]
  rfl

theorem ancestor (h : PathNamespace entries) (hpath : entries[path]?.isSome)
    (ha : a ∈ ancestorsOf path) : isDirectoryAt entries a := by
  have key : ∀ fuel path, entries[path]?.isSome = true → a ∈ ancestorsFrom fuel path →
      isDirectoryAt entries a := by
    intro fuel
    induction fuel with
    | zero =>
      intro path _ hmem
      cases hmem
    | succ fuel ih =>
      intro path hpath hmem
      unfold ancestorsFrom at hmem
      split at hmem
      · cases hmem
      · next hne =>
        have hroot : path ≠ rootPath := fun heq => hne (heq ▸ parentOf_rootPath)
        rw [parentOf_normal (h.normal path hpath) hroot] at hmem
        have hparent := h.parent path hpath
        rcases mem_cons.1 hmem with rfl | hmem
        · exact hparent
        · exact ih _ (isSome_of_directory hparent) hmem
  exact key _ path hpath ha

end PathNamespace

end Macha
