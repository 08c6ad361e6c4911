import Macha.Metadata.Types

/-!
# Namespace paths

`normalize_path`, `parent_path` and `base_name`. A normalised path is its list of
components, so the facts used elsewhere (a parent is normalised and has one
component less) are facts about lists.
-/

namespace Macha

open List

def slash : Nat := 47

def rootPath : ByteString := [slash]

/-- The maximal runs of bytes other than `'/'`; `run` is the one being read. -/
def segmentsFrom (run : ByteString) : ByteString → List ByteString
  | [] => if run = [] then [] else [run]
  | c :: rest =>
    if c = slash then
      (if run = [] then segmentsFrom [] rest else run :: segmentsFrom [] rest)
    else segmentsFrom (run ++ [c]) rest

/-- One segment of the source path onto the components read so far. -/
def pushSegment (v : List ByteString) (x : ByteString) : List ByteString :=
  if x = bytes "." then v else if x = bytes ".." then v.dropLast else v ++ [x]

def components (p : ByteString) : List ByteString := (segmentsFrom [] p).foldl pushSegment []

/-- `"/"` for no components, otherwise each component behind a slash. -/
def renderPath (v : List ByteString) : ByteString :=
  if v = [] then rootPath else v.flatMap (fun x => slash :: x)

def normalizePath (p : ByteString) : ByteString := renderPath (components p)

/-- The index of the last occurrence of `c`, as `std::string::rfind`. -/
def rfind (c : Nat) (s : ByteString) : Nat := s.length - 1 - s.reverse.idxOf c

def parentPath (p : ByteString) : ByteString :=
  let n := normalizePath p
  if n = rootPath then rootPath
  else
    let i := rfind slash n
    if i ≠ 0 then n.take i else rootPath

def baseName (p : ByteString) : ByteString :=
  let n := normalizePath p
  if n = rootPath then rootPath else n.drop (rfind slash n + 1)

/-- A component as a normalised path holds it. -/
def IsComponent (x : ByteString) : Prop := x ≠ [] ∧ slash ∉ x ∧ x ≠ bytes "." ∧ x ≠ bytes ".."

theorem segmentsFrom_append (run x rest : ByteString) (h : slash ∉ x) :
    segmentsFrom run (x ++ rest) = segmentsFrom (run ++ x) rest := by
  induction x generalizing run with
  | nil => simp
  | cons c x ih =>
    have hc : c ≠ slash := fun hc => h (by simp [hc])
    have hx : slash ∉ x := fun hx => h (mem_cons_of_mem c hx)
    simp only [cons_append, segmentsFrom, if_neg hc]
    rw [ih (run ++ [c]) hx, append_assoc, singleton_append]

theorem segmentsFrom_slash (run p q : ByteString) :
    segmentsFrom run (p ++ slash :: q) = segmentsFrom run p ++ segmentsFrom [] q := by
  induction p generalizing run with
  | nil => by_cases hrun : run = [] <;> simp [segmentsFrom, hrun]
  | cons c p ih =>
    simp only [cons_append, segmentsFrom, ih]
    split
    · split <;> rfl
    · rfl

theorem segmentsFrom_render (run : ByteString) (v : List ByteString)
    (hv : ∀ x ∈ v, x ≠ [] ∧ slash ∉ x) :
    segmentsFrom run (v.flatMap (fun x => slash :: x)) = (if run = [] then [] else [run]) ++ v := by
  induction v generalizing run with
  | nil => simp [segmentsFrom]
  | cons x v ih =>
    obtain ⟨hne, hx⟩ := hv x mem_cons_self
    have htail := ih x fun y hy => hv y (mem_cons_of_mem x hy)
    have hstep : segmentsFrom [] (x ++ v.flatMap (fun x => slash :: x)) = x :: v := by
      rw [segmentsFrom_append [] x _ hx, nil_append, htail]
      simp [hne]
    simp only [flatMap_cons, cons_append, segmentsFrom, if_pos]
    by_cases hrun : run = []
    · simp [hrun, hstep]
    · simp [hrun, hstep]

theorem segmentsFrom_isSegment (run p : ByteString) (hrun : slash ∉ run) :
    ∀ x ∈ segmentsFrom run p, x ≠ [] ∧ slash ∉ x := by
  induction p generalizing run with
  | nil =>
    intro x hx
    by_cases h : run = []
    · simp [segmentsFrom, h] at hx
    · simp only [segmentsFrom, if_neg h, mem_singleton] at hx
      exact hx ▸ ⟨h, hrun⟩
  | cons c p ih =>
    intro x hx
    by_cases hc : c = slash
    · by_cases h : run = []
      · simp only [segmentsFrom, if_pos hc, if_pos h] at hx
        exact ih [] (by simp) x hx
      · simp only [segmentsFrom, if_pos hc, if_neg h, mem_cons] at hx
        rcases hx with rfl | hx
        · exact ⟨h, hrun⟩
        · exact ih [] (by simp) x hx
    · simp only [segmentsFrom, if_neg hc] at hx
      have hrun' : slash ∉ run ++ [c] := by
        simp [hrun, Ne.symm hc]
      exact ih (run ++ [c]) hrun' x hx

theorem foldl_pushSegment_of_isComponent (v w : List ByteString) (hw : ∀ x ∈ w, IsComponent x) :
    w.foldl pushSegment v = v ++ w := by
  induction w generalizing v with
  | nil => simp
  | cons x w ih =>
    obtain ⟨-, -, hdot, hdots⟩ := hw x mem_cons_self
    have hpush : pushSegment v x = v ++ [x] := by simp [pushSegment, hdot, hdots]
    rw [foldl_cons, hpush, ih _ fun y hy => hw y (mem_cons_of_mem x hy)]
    simp

variable {v : List ByteString}

theorem pushSegment_isComponent {x : ByteString} (hv : ∀ y ∈ v, IsComponent y)
    (hx : x ≠ [] ∧ slash ∉ x) :
    ∀ y ∈ pushSegment v x, IsComponent y := by
  intro y hy
  unfold pushSegment at hy
  split at hy
  · exact hv y hy
  · split at hy
    · exact hv y (mem_of_mem_dropLast hy)
    · rename_i hdot hdots
      rcases mem_append.1 hy with hy | hy
      · exact hv y hy
      · rw [mem_singleton.1 hy]
        exact ⟨hx.1, hx.2, hdot, hdots⟩

theorem components_isComponent (p : ByteString) : ∀ x ∈ components p, IsComponent x := by
  have key : ∀ (w v : List ByteString), (∀ x ∈ w, x ≠ [] ∧ slash ∉ x) →
      (∀ y ∈ v, IsComponent y) → ∀ y ∈ w.foldl pushSegment v, IsComponent y := by
    intro w
    induction w with
    | nil => exact fun v _ hv => hv
    | cons x w ih =>
      intro v hw hv
      exact ih _ (fun y hy => hw y (mem_cons_of_mem x hy))
        (pushSegment_isComponent hv (hw x mem_cons_self))
  exact key _ [] (segmentsFrom_isSegment [] p (by simp)) (by simp)

@[simp] theorem components_rootPath : components rootPath = [] := by decide

theorem components_renderPath (hv : ∀ x ∈ v, IsComponent x) : components (renderPath v) = v := by
  by_cases h : v = []
  · simp [renderPath, h]
  · have hsegs := segmentsFrom_render [] v fun x hx => ⟨(hv x hx).1, (hv x hx).2.1⟩
    simp only [components, renderPath, if_neg h, hsegs]
    simpa using foldl_pushSegment_of_isComponent [] v hv

@[simp] theorem components_normalizePath (p : ByteString) :
    components (normalizePath p) = components p :=
  components_renderPath (components_isComponent p)

@[simp] theorem normalizePath_normalizePath (p : ByteString) :
    normalizePath (normalizePath p) = normalizePath p := by
  rw [normalizePath, components_normalizePath, normalizePath]

theorem rfind_append_slash (front x : ByteString) (hx : slash ∉ x) :
    rfind slash (front ++ slash :: x) = front.length := by
  have hidx : (x.reverse ++ slash :: front.reverse).idxOf slash = x.length := by
    rw [idxOf_append_of_notMem (by simpa using hx)]
    simp
  simp only [rfind, reverse_append, reverse_cons, append_assoc,
    singleton_append, hidx, length_append, length_cons]
  omega

theorem flatMap_slash_ne_nil (h : v ≠ []) : v.flatMap (fun x => slash :: x) ≠ [] := by
  cases v with
  | nil => exact absurd rfl h
  | cons x v => simp

theorem normalizePath_eq_rootPath_iff {p : ByteString} :
    normalizePath p = rootPath ↔ components p = [] := by
  constructor
  · intro h
    rw [← components_normalizePath, h, components_rootPath]
  · intro h
    rw [normalizePath, h, renderPath, if_pos rfl]

variable {front : List ByteString} {x : ByteString}

theorem normalizePath_concat {p : ByteString} (h : components p = front ++ [x]) :
    normalizePath p = front.flatMap (fun x => slash :: x) ++ slash :: x := by
  simp [normalizePath, renderPath, h]

theorem rfind_normalizePath {p : ByteString} (h : components p = front ++ [x]) :
    rfind slash (normalizePath p) = (front.flatMap fun x => slash :: x).length := by
  rw [normalizePath_concat h]
  exact rfind_append_slash _ _ (components_isComponent p x (by simp [h])).2.1

theorem parentPath_eq (p : ByteString) : parentPath p = renderPath (components p).dropLast := by
  unfold parentPath
  by_cases hnil : components p = []
  · simp [normalizePath, hnil, renderPath]
  · obtain ⟨front, x, hv⟩ := (eq_nil_or_concat (components p)).resolve_left hnil
    rw [concat_eq_append] at hv
    simp only [mt normalizePath_eq_rootPath_iff.1 hnil, if_false]
    rw [rfind_normalizePath hv, normalizePath_concat hv, hv, dropLast_concat]
    by_cases hfront : front = []
    · simp [hfront, renderPath]
    · have hlen : (front.flatMap (fun x => slash :: x)).length ≠ 0 := fun h =>
        flatMap_slash_ne_nil hfront (eq_nil_of_length_eq_zero h)
      rw [if_pos hlen, take_left, renderPath, if_neg hfront]

theorem baseName_eq {p : ByteString} (h : components p = front ++ [x]) : baseName p = x := by
  have hne : normalizePath p ≠ rootPath := by simp [normalizePath_eq_rootPath_iff, h]
  unfold baseName
  simp only [hne, if_false]
  rw [rfind_normalizePath h, normalizePath_concat h, drop_length_add_append]
  rfl

theorem components_parentPath (p : ByteString) :
    components (parentPath p) = (components p).dropLast := by
  rw [parentPath_eq]
  exact components_renderPath fun x hx =>
    components_isComponent p x (mem_of_mem_dropLast hx)

theorem components_join (p q : ByteString) :
    components (p ++ slash :: q) = (segmentsFrom [] q).foldl pushSegment (components p) := by
  rw [components, segmentsFrom_slash, foldl_append, components]

theorem normalizePath_join_baseName {p : ByteString} (h : components p ≠ []) :
    normalizePath (parentPath p ++ slash :: baseName p) = normalizePath p := by
  obtain ⟨front, x, hv⟩ := (eq_nil_or_concat (components p)).resolve_left h
  rw [concat_eq_append] at hv
  have hx := components_isComponent p x (by simp [hv])
  have hsegments : segmentsFrom [] x = [x] := by
    simpa [segmentsFrom, hx.1] using segmentsFrom_append [] x [] hx.2.1
  rw [normalizePath, components_join, components_parentPath, baseName_eq hv, hsegments,
    foldl_pushSegment_of_isComponent _ _ (by simpa using hx), hv, dropLast_concat, ← hv,
    normalizePath]

/-- Of all byte strings `p` and `q`; a path that is not the root is its parent joined with its
base name. -/
theorem path_normalisation (p q : ByteString) :
    normalizePath (p ++ slash :: q) = normalizePath (normalizePath p ++ slash :: q) ∧
    (normalizePath p = rootPath ∨ ∃ v ≠ [], normalizePath p = v.flatMap (fun x => slash :: x) ∧
      ∀ x ∈ v, IsComponent x) ∧
    (normalizePath p ≠ rootPath →
      normalizePath (parentPath p ++ slash :: baseName p) = normalizePath p) := by
  refine ⟨?_, ?_, fun hne => ?_⟩
  · simp only [normalizePath, components_join]
    rw [← normalizePath, components_normalizePath]
  · by_cases hnil : components p = []
    · exact .inl (normalizePath_eq_rootPath_iff.2 hnil)
    · refine .inr ⟨components p, hnil, ?_, components_isComponent p⟩
      rw [normalizePath, renderPath, if_neg hnil]
  · exact normalizePath_join_baseName (mt normalizePath_eq_rootPath_iff.2 hne)

theorem joined_base_name :
    normalizePath (parentPath (bytes "a/b//..//c") ++ slash :: baseName (bytes "a/b//..//c")) =
      bytes "/a/c" :=
  ((path_normalisation (bytes "a/b//..//c") []).2.2 (by decide)).trans (by decide)

@[simp] theorem normalizePath_parentPath (p : ByteString) :
    normalizePath (parentPath p) = parentPath p := by
  rw [normalizePath, components_parentPath, parentPath_eq]

@[simp] theorem parentPath_rootPath : parentPath rootPath = rootPath := by decide

def depth (p : ByteString) : Nat := (components p).length

theorem depth_parentPath (p : ByteString) : depth (parentPath p) = depth p - 1 := by
  simp [depth, components_parentPath]

theorem eq_rootPath_of_depth_eq_zero {p : ByteString} (hp : normalizePath p = p)
    (h : depth p = 0) : p = rootPath := by
  have hnil : components p = [] := eq_nil_of_length_eq_zero h
  rw [← hp, normalizePath, hnil, renderPath, if_pos rfl]

end Macha
