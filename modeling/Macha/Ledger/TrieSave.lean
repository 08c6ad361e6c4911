import Macha.Ledger.TrieCanon

/-!
# Saving a trie

A subtree saved reads back in its shape, down to the leaves of whole ids, which
are written and refused when read. Where no prefix a byte short of an id has more
records below it than a leaf holds there are none of these, and a checkpoint or a
rewrite leaves the trie as it was.
-/

namespace Macha

open List

namespace Trie

/-! ## Frames read back -/

def ValuesFit (records : List TrieRecord) : Prop :=
  ∀ record ∈ records, record.2.length ≤ valueMax

theorem ValuesFit.ofKey {records : List TrieRecord} (h : ValuesFit records) (depth : Nat)
    (x : Fin 256) : ValuesFit (ofKey (slot depth) x records) :=
  fun record hrecord => h record (mem_filter.1 hrecord).1

theorem decode_leaf {depth : Nat} {records : List TrieRecord} (hdepth : depth < 32)
    (hne : records ≠ []) (hfew : records.length ≤ leafMax) (hfit : ValuesFit records)
    (hsorted : SortedRecords records) :
    decode (.leaf depth records) = some (.leaf depth records) := by
  have hcount : records.length ≠ 0 := by simpa using hne
  have hvalues : ∀ record ∈ records, record.2.length ≤ valueMax := hfit
  have hascends : records.Pairwise fun a b => a.1 < b.1 := hsorted
  rw [decode, guard_of hdepth, guard_of ⟨hcount, hfew⟩, guard_of hvalues, guard_of hascends]
  rfl

theorem decode_leaf_whole (records : List TrieRecord) : decode (.leaf 32 records) = none :=
  rfl

/-- A child as it is read back with its parent. -/
def restored (child : Child) : Child := decodeChild (savedChild child)

theorem decode_interior {depth : Nat} {children : Fin 256 → Child} (hdepth : depth < 32)
    (hcounts : ∀ x, (restored (children x)).count = (children x).count)
    (hmany : leafMax < ((finRange 256).map fun x => (children x).count).sum) :
    decode (.interior depth fun x => savedChild (children x)) =
      some (.interior depth fun x => restored (children x)) := by
  have hsum : leafMax <
      ((finRange 256).map fun x => (decodeChild (savedChild (children x))).count).sum := by
    have hsame : ((finRange 256).map fun x => (decodeChild (savedChild (children x))).count) =
        (finRange 256).map fun x => (children x).count :=
      map_congr_left fun x _ => hcounts x
    rw [hsame]
    exact hmany
  have hslots x : savedChild (children x) = none ∨
      (decodeChild (savedChild (children x))).count ≠ 0 := by
    by_cases hcount : (children x).count = 0
    · exact .inl (if_pos hcount)
    · refine .inr fun hzero => hcount ?_
      rw [← hcounts]
      exact hzero
  rw [decode, guard_of hdepth, guard_of hslots, guard_of hsum]
  rfl

section

variable {sha256 : HashInput → Hash256} {file more : NodeFile} {cut : Prop} {level : Nat}
  {records : List TrieRecord} {child : Child} {path : TriePrefix} {node : Node}
  {children : Fin 256 → Child} {below : Child → NodeFile → Option (Child × NodeFile)}

theorem load_appended {image : NodeImage} {summary : Summary} (hdecode : decode image = some node)
    (hsummary : node.summary sha256 = summary) (hcount : summary.count ≠ 0) :
    load sha256 (file ++ [some image]) (.mk (some file.length) summary.count summary.hash none) =
      some node := by
  have hfound : (file ++ [some image])[file.length]? = some (some image) := by simp
  show (do guard (summary.count ≠ 0)
           let image ← (file ++ [some image])[file.length]?.join
           let node ← decode image
           guard (node.summary sha256 = summary)
           some node) = some node
  rw [guard_of hcount, hfound, Option.join_some]
  show ((decode image).bind fun node => do
    guard (node.summary sha256 = summary)
    some node) = some node
  rw [hdecode, Option.bind_some, guard_of hsummary]
  rfl

/-- A saved subtree: its child says where it is. -/
structure Saved (sha256 : HashInput → Hash256) (file : NodeFile) (level : Nat)
    (records : List TrieRecord) (child : Child) : Prop where
  canon : Canon sha256 file True level records child
  tidy : Tidy child
  offset : child.count ≠ 0 → child.offset.isSome = true

theorem Saved.append (h : Saved sha256 file level records child) :
    Saved sha256 (file ++ more) level records child :=
  ⟨h.canon.append, h.tidy, h.offset⟩

theorem canon_nil (h : child.count = 0) (hcanon : Canon sha256 file cut level records child)
    (hplaced : Placed path level records) (file' : NodeFile) (cut' : Prop) {other : Child}
    (hother : other.summary = child.summary) : Canon sha256 file' cut' level records other := by
  have hnil : records = [] := by
    rw [hcanon.count hplaced] at h
    exact length_eq_zero_iff.1 h
  subst hnil
  have hsummary := hother.trans hcanon.summary
  cases level with
  | zero => exact ⟨hsummary, fun hne => (hne rfl).elim⟩
  | succ level => exact ⟨hsummary, fun hne => (hne rfl).elim, fun hmany => by simp at hmany⟩

theorem Saved.restored (h : Saved sha256 file level records child)
    (hplaced : Placed path level records) :
    Canon sha256 file True level records (restored child) ∧ Tidy (restored child) ∧
      (restored child).summary = child.summary := by
  unfold Trie.restored savedChild
  by_cases hcount : child.count = 0
  · have hempty : Child.empty.summary = child.summary := by
      have hnil : records = [] := by
        rw [h.canon.count hplaced] at hcount
        exact length_eq_zero_iff.1 hcount
      rw [h.canon.summary, hnil, summaryOf_nil]
      rfl
    rw [if_pos hcount]
    exact ⟨canon_nil hcount h.canon hplaced _ _ hempty, tidy_of_unsaved rfl, hempty⟩
  · obtain ⟨offset, hoffset⟩ := Option.isSome_iff_exists.1 (h.offset hcount)
    have hnode : child.node = none := h.tidy (h.offset hcount)
    have hsame : Child.mk (some offset) child.count child.hash none = child := by
      rw [← hoffset, ← hnode]
      cases child
      rfl
    rw [if_neg hcount, hoffset]
    show Canon sha256 file True level records (Child.mk (some offset) child.count child.hash none) ∧
      Tidy (Child.mk (some offset) child.count child.hash none) ∧
      (Child.mk (some offset) child.count child.hash none).summary = child.summary
    rw [hsame]
    exact ⟨h.canon, h.tidy, rfl⟩

theorem saveChildren_fold (ready kept : NodeFile → Fin 256 → Child → Prop)
    (hready : ∀ {file more x child}, ready file x child → ready (file ++ more) x child)
    (hkept : ∀ {file more x child}, kept file x child → kept (file ++ more) x child)
    (hbelow : ∀ {file x child}, ready file x child → ∃ saved more,
      below child file = some (saved, file ++ more) ∧ kept (file ++ more) x saved.unloaded)
    {slots : List (Fin 256)} (hnodup : slots.Nodup) (h : ∀ x ∈ slots, ready file x (children x)) :
    ∃ after more, slots.foldlM (fun (children, file) x => do
        let (saved, file) ← below (children x) file
        some (Function.update children x saved.unloaded, file))
      (children, file) = some (after, file ++ more) ∧
      (∀ x ∈ slots, kept (file ++ more) x (after x)) ∧ ∀ x ∉ slots, after x = children x := by
  induction slots generalizing children file with
  | nil => exact ⟨children, [], by simp, by simp, by simp⟩
  | cons x slots ih =>
    obtain ⟨hx, hslots⟩ := nodup_cons.1 hnodup
    obtain ⟨saved, more, hsave, hkeep⟩ := hbelow (h x mem_cons_self)
    have hother y (hy : y ∈ slots) :
        ready (file ++ more) y (Function.update children x saved.unloaded y) := by
      have hne : y ≠ x := fun heq => hx (heq ▸ hy)
      rw [Function.update_of_ne hne]
      exact hready (h y (mem_cons_of_mem x hy))
    obtain ⟨after, rest, hfold, hsaved, hsame⟩ := ih hslots hother
    refine ⟨after, more ++ rest, ?_, ?_, ?_⟩
    · show ((below (children x) file).bind fun (saved, file) =>
        some (Function.update children x saved.unloaded, file)).bind _ = _
      rw [hsave, Option.bind_some, Option.bind_some, ← append_assoc]
      exact hfold
    · intro y hy
      rw [← append_assoc]
      rcases mem_cons.1 hy with rfl | hy
      · rw [hsame y hx, Function.update_self]
        exact hkept hkeep
      · exact hsaved y hy
    · intro y hy
      rw [hsame y fun hmem => hy (mem_cons_of_mem x hmem), Function.update_of_ne]
      exact fun heq => hy (heq ▸ mem_cons_self)

theorem node_of_load (hoffset : child.offset = none) (h : load sha256 file child = some node) :
    child.node = some node := by
  unfold load at h
  split at h
  · next hnode => rw [hnode, h]
  · obtain ⟨-, h⟩ := guard_bind_eq_some h
    rw [hoffset] at h
    cases h

theorem save_node (hcount : child.count ≠ 0) (hoffset : child.offset = none)
    (hload : load sha256 file child = some node) :
    save sha256 level child file = saveNode sha256 (match level with
        | 0 => fun _ _ => none
        | level + 1 => save sha256 level) file node := by
  have hnot : ¬ (child.count = 0 ∨ child.offset.isSome = true) := by simp [hcount, hoffset]
  have hnode := node_of_load hoffset hload
  cases level with
  | zero => rw [save, if_neg hnot, hnode, Option.bind_some]
  | succ level => rw [save, if_neg hnot, hnode, Option.bind_some]

theorem save_kept (h : child.count = 0 ∨ child.offset.isSome = true) :
    save sha256 level child file = some (child, file) := by
  cases level with
  | zero => rw [save, if_pos h]
  | succ level => rw [save, if_pos h]

theorem saved_leaf (hplaced : Placed path level records) (hne : records ≠ [])
    (hfew : records.length ≤ leafMax) (hfit : ValuesFit records) :
    Saved sha256 (file ++ [some (.leaf (32 - level) records)]) level records
      (.mk (some file.length) (leafSummary sha256 records).count (leafSummary sha256 records).hash
        none) := by
  have hsummary : (Child.mk (some file.length) (leafSummary sha256 records).count
      (leafSummary sha256 records).hash none).summary = summaryOf sha256 level records := by
    rw [summaryOf_leaf hfew]
    rfl
  refine ⟨?_, fun _ => rfl, fun _ => rfl⟩
  cases level with
  | zero =>
    have hunreadable : Unreadable (file ++ [some (.leaf 32 records)])
        (.mk (some file.length) (leafSummary sha256 records).count
          (leafSummary sha256 records).hash none) :=
      ⟨rfl, file.length, .leaf 32 records, rfl, by simp, decode_leaf_whole records⟩
    exact ⟨hsummary, fun _ => .inr ⟨trivial, hunreadable⟩⟩
  | succ level =>
    refine ⟨hsummary, fun _ _ => ?_, fun hmany => by omega⟩
    have hdepth : 32 - (level + 1) = 31 - level := by omega
    have hcount : (leafSummary sha256 records).count ≠ 0 := by
      show records.length ≠ 0
      simpa using hne
    rw [hdepth]
    exact load_appended (decode_leaf (by omega) hne hfew hfit hplaced.sorted) rfl hcount

theorem summary_interior {depth : Nat} {summaries : Fin 256 → Summary}
    (h : ∀ x, (children x).summary = summaries x) :
    (Node.interior depth children).summary sha256 = interiorSummary sha256 summaries :=
  congrArg (interiorSummary sha256) (funext h)

theorem saved_interior (hplaced : Placed path (level + 1) records)
    (hmany : leafMax < records.length)
    (h : ∀ x, Saved sha256 file level (ofKey (slot (31 - level)) x records) (children x)) :
    ∃ saved more, append sha256 (.interior (31 - level) children) file =
        some (saved, file ++ more) ∧
      Saved sha256 (file ++ more) (level + 1) records saved.unloaded := by
  have hrestored x := (h x).restored (hplaced.child x)
  have hsum := sum_count hplaced fun x => (h x).canon
  have hcounts x : (restored (children x)).count = (children x).count :=
    congrArg Summary.count (hrestored x).2.2
  have hdecode := decode_interior (show 31 - level < 32 by omega) hcounts (hsum ▸ hmany)
  have hsame : (Node.interior (31 - level) fun x => restored (children x)).summary sha256 =
      (Node.interior (31 - level) children).summary sha256 :=
    summary_interior fun x => (hrestored x).2.2
  have hsummary : (Node.interior (31 - level) children).summary sha256 =
      summaryOf sha256 (level + 1) records := by
    rw [summaryOf_interior hmany]
    exact summary_interior fun x => (h x).canon.summary
  have hcount : ((Node.interior (31 - level) children).summary sha256).count ≠ 0 := by
    rw [hsummary, hplaced.count]
    omega
  have happend : append sha256 (.interior (31 - level) children) file =
      some (.mk (some file.length) ((Node.interior (31 - level) children).summary sha256).count
        ((Node.interior (31 - level) children).summary sha256).hash none,
        file ++ [some (.interior (31 - level) fun x => savedChild (children x))]) := by
    rw [append, encode, guard_of fun x hx => (h x).offset hx]
    rfl
  refine ⟨_, _, happend, ⟨hsummary, fun _ hfew => by omega, fun _ => ?_⟩, fun _ => rfl,
    fun _ => rfl⟩
  refine ⟨_, load_appended hdecode hsame hcount, fun x => (hrestored x).2.1, fun x => ?_⟩
  exact (hrestored x).1.append

theorem saveNode_leaf (hplaced : Placed path level records) (hne : records ≠ [])
    (hfew : records.length ≤ leafMax) (hfit : ValuesFit records) :
    ∃ saved more, saveNode sha256 below file (.leaf (32 - level) records) =
        some (saved, file ++ more) ∧
      Saved sha256 (file ++ more) level records saved.unloaded :=
  ⟨_, _, rfl, saved_leaf hplaced hne hfew hfit⟩

theorem unloaded_of_tidy (h : Tidy child) : child.unloaded = child := by
  obtain ⟨offset, count, hash, node⟩ := child
  cases offset with
  | none => rfl
  | some offset =>
    have hnode : node = none := h rfl
    rw [hnode]
    rfl

theorem summary_unloaded (child : Child) : child.unloaded.summary = child.summary := by
  obtain ⟨offset, count, hash, node⟩ := child
  cases offset <;> rfl

theorem tidy_unloaded (child : Child) : Tidy child.unloaded := by
  obtain ⟨offset, count, hash, node⟩ := child
  cases offset with
  | none => exact tidy_of_unsaved rfl
  | some offset => exact fun _ => rfl

section

variable (h : Canon sha256 file False level records child)

include h

theorem saved_of_tidy (htidy : Tidy child) (hoffset : child.offset.isSome = true) :
    Saved sha256 file level records child.unloaded := by
  rw [unloaded_of_tidy htidy]
  exact ⟨h.weaken False.elim, htidy, fun _ => hoffset⟩

omit h in
theorem saved_empty (h : Canon sha256 file cut level records child)
    (hplaced : Placed path level records) (hcount : child.count = 0) :
    Saved sha256 file level records child.unloaded := by
  have hsummary := summary_unloaded child
  refine ⟨canon_nil hcount h hplaced file True hsummary, tidy_unloaded child, fun hne => ?_⟩
  exact (hne ((congrArg Summary.count hsummary).trans hcount)).elim

/-- What a save of a child gives: a saved subtree, after the frames it appended. -/
def Saves (sha256 : HashInput → Hash256) (level : Nat) (records : List TrieRecord) (child : Child)
    (file : NodeFile) : Prop :=
  ∃ saved more, save sha256 level child file = some (saved, file ++ more) ∧
    Saved sha256 (file ++ more) level records saved.unloaded

omit h in
theorem unsettled (h : ¬ (child.count = 0 ∨ child.offset.isSome = true)) :
    child.count ≠ 0 ∧ child.offset = none := by
  simpa using h

omit h in
theorem Canon.ne_nil (h : Canon sha256 file cut level records child) (hcount : child.count ≠ 0) :
    records ≠ [] := by
  intro hnil
  subst hnil
  exact hcount h.count_eq_zero

section

variable (hkept : child.offset.isSome = true → Saved sha256 file level records child.unloaded)

include hkept

theorem save_settled (hplaced : Placed path level records)
    (hdone : child.count = 0 ∨ child.offset.isSome = true) :
    Saves sha256 level records child file := by
  refine ⟨child, [], ?_, ?_⟩
  · rw [save_kept hdone, append_nil]
  · rw [append_nil]
    rcases hdone with hcount | hoffset
    · exact saved_empty h hplaced hcount
    · exact hkept hoffset

omit hkept in
omit h in
theorem save_interior (hplaced : Placed path (level + 1) records) (hmany : leafMax < records.length)
    (htidy : ∀ x, Tidy (children x))
    (hchildren : ∀ x, Canon sha256 file False level (ofKey (slot (31 - level)) x records)
      (children x)) (hbelow : ∀ {file : NodeFile} {x : Fin 256} {child : Child},
      Canon sha256 file False level (ofKey (slot (31 - level)) x records) child ∧ Tidy child →
      Saves sha256 level (ofKey (slot (31 - level)) x records) child file) :
    ∃ saved more, saveNode sha256 (save sha256 level) file (.interior (31 - level) children) =
        some (saved, file ++ more) ∧
      Saved sha256 (file ++ more) (level + 1) records saved.unloaded := by
  obtain ⟨after, more, hfold, hsaved, -⟩ := saveChildren_fold
    (fun file x child =>
      Canon sha256 file False level (ofKey (slot (31 - level)) x records) child ∧ Tidy child)
    (fun file x child => Saved sha256 file level (ofKey (slot (31 - level)) x records) child)
    (fun h => ⟨h.1.append, h.2⟩) (fun h => h.append) hbelow (nodup_finRange 256)
    fun x _ => ⟨hchildren x, htidy x⟩
  obtain ⟨saved, rest, happend, hdone⟩ := saved_interior hplaced hmany
    fun x => hsaved x (mem_finRange x)
  refine ⟨saved, more ++ rest, ?_, ?_⟩
  · show (saveChildren (save sha256 level) children file).bind _ = _
    rw [saveChildren, hfold, Option.bind_some, ← append_assoc]
    exact happend
  · rw [← append_assoc]
    exact hdone

theorem save_canon (hplaced : Placed path level records) (hfit : ValuesFit records) :
    Saves sha256 level records child file := by
  induction level generalizing path records child file with
  | zero =>
    by_cases hdone : child.count = 0 ∨ child.offset.isSome = true
    · exact save_settled h hkept hplaced hdone
    obtain ⟨hcount, hoffset⟩ := unsettled hdone
    have hne := h.ne_nil hcount
    rcases h.2 hne with hload | ⟨hcut, -⟩
    · have hone := hplaced.length_le_one
      rw [Saves, save_node hcount hoffset hload]
      exact saveNode_leaf hplaced hne (hone.trans (by decide)) hfit
    · exact hcut.elim
  | succ level ih =>
    by_cases hdone : child.count = 0 ∨ child.offset.isSome = true
    · exact save_settled h hkept hplaced hdone
    obtain ⟨hcount, hoffset⟩ := unsettled hdone
    have hne := h.ne_nil hcount
    by_cases hfew : records.length ≤ leafMax
    · have hdepth : 32 - (level + 1) = 31 - level := by omega
      rw [Saves, save_node hcount hoffset (h.2.1 hne hfew), ← hdepth]
      exact saveNode_leaf hplaced hne hfew hfit
    obtain ⟨children, hload, htidy, hchildren⟩ := h.2.2 (not_le.1 hfew)
    rw [Saves, save_node hcount hoffset hload]
    refine save_interior hplaced (not_le.1 hfew) htidy hchildren fun {_ x _} hready => ?_
    exact ih hready.1 (saved_of_tidy hready.1 hready.2) (hplaced.child x) (hfit.ofKey _ x)

end

omit h in
theorem Canon.exists_load (h : Canon sha256 file cut (level + 1) records child)
    (hne : records ≠ []) : ∃ node, load sha256 file child = some node := by
  by_cases hfew : records.length ≤ leafMax
  · exact ⟨_, h.2.1 hne hfew⟩
  · obtain ⟨children, hload, -⟩ := h.2.2 (not_le.1 hfew)
    exact ⟨_, hload⟩

omit h in
theorem Canon.of_load {other : Child} (h : Canon sha256 file cut (level + 1) records child)
    (hsummary : other.summary = child.summary)
    (hload : load sha256 file other = load sha256 file child) :
    Canon sha256 file cut (level + 1) records other := by
  refine ⟨hsummary.trans h.1, fun hne hfew => ?_, fun hmany => ?_⟩
  · rw [hload]
    exact h.2.1 hne hfew
  · rw [hload]
    exact h.2.2 hmany

omit h in
theorem unloaded_loaded
    (h : (Child.mk child.offset child.count child.hash (some node)).offset.isSome = true) :
    (Child.mk child.offset child.count child.hash (some node)).unloaded = child.unloaded := by
  obtain ⟨offset, count, hash, held⟩ := child
  cases offset with
  | none => cases h
  | some offset => rfl

theorem copy_canon (hplaced : Placed path level records) (into : NodeFile) :
    ∃ copied, copy sha256 file level child = some copied ∧ copied.offset = none ∧
      Canon sha256 into False level records copied := by
  induction h, hplaced using Canon.readInduction with
  | empty level _ _ hcount =>
    refine ⟨.empty, ?_, rfl, canon_empty level⟩
    cases level <;> exact visit_empty hcount
  | leaf level _ _ hfew hcount hload =>
    refine ⟨_, ?_, rfl, canon_leaf hfew⟩
    cases level <;> exact visit_loaded hcount hload
  | @interior level _ child _ _ _ _ hmany hcount hload _ _ ih =>
    choose value hcopy hunsaved hcanon using ih
    have hcopies := foldlM_update_eq hcopy (finRange 256) (fun _ => .empty)
      fun x hx => (hx (mem_finRange x)).elim
    have hwhole : copy sha256 file (level + 1) child =
        some (childOf sha256 (.interior (31 - level) value)) := by
      refine (visit_loaded hcount hload).trans ?_
      rw [copyNode, hcopies]
      rfl
    exact ⟨_, hwhole, rfl, canon_interior hmany (fun x => tidy_of_unsaved (hunsaved x)) hcanon⟩

end

end

end Trie

/-! ## The trie -/

namespace ObjectTrie

open Trie

section

variable {sha256 : HashInput → Hash256}

/-- A trie holds the records, in their shape, and can read all of it. -/
structure Holds (sha256 : HashInput → Hash256) (trie : ObjectTrie) (records : List TrieRecord) :
    Prop where
  sorted : SortedRecords records
  canon : Canon sha256 trie.nodes False 32 records trie.root
  kept : trie.root.offset.isSome = true → Saved sha256 trie.nodes 32 records trie.root.unloaded

/-- Records a trie can save and read back. -/
structure Savable (records : List TrieRecord) : Prop where
  fit : ValuesFit records
  shallow : Shallow records

variable {trie : ObjectTrie} {records : List TrieRecord}

theorem reload_holds {saved : Child} {nodes : NodeFile} (hsorted : SortedRecords records)
    (h : Saved sha256 nodes 32 records saved.unloaded) (hshallow : Shallow records) :
    ∃ after, reload sha256 saved nodes = some after ∧ after.Holds sha256 records := by
  have hplaced := placed_root hsorted
  have hcanon := h.canon.of_shallow hplaced hshallow
  have hsummary := summary_unloaded saved
  by_cases hcount : saved.count = 0
  · have hunloaded : saved.unloaded.count = 0 :=
      (congrArg Summary.count hsummary).trans hcount
    have hsame : Canon sha256 nodes False 32 records saved :=
      canon_nil hunloaded hcanon hplaced _ _ hsummary.symm
    exact ⟨_, if_pos hcount, hsorted, hsame, fun _ => h⟩
  · have hne : records ≠ [] := hcanon.ne_nil fun hzero =>
      hcount ((congrArg Summary.count hsummary).symm.trans hzero)
    obtain ⟨node, hload⟩ := hcanon.exists_load hne
    have hreload : reload sha256 saved nodes =
        some ⟨.mk saved.offset saved.count saved.hash (some node), nodes⟩ := by
      rw [reload, if_neg hcount, hload]
      rfl
    refine ⟨_, hreload, hsorted, hcanon.of_load hsummary.symm hload.symm, fun hoffset => ?_⟩
    rw [unloaded_loaded hoffset]
    exact h

section

variable (h : trie.Holds sha256 records)

include h

theorem rewrite_holds (hsavable : Savable records) :
    ∃ after, trie.rewrite sha256 = some after ∧ after.Holds sha256 records := by
  have hplaced := placed_root h.sorted
  obtain ⟨copied, hcopy, hunsaved, hcanon⟩ := copy_canon h.canon hplaced []
  have hkept : copied.offset.isSome = true → Saved sha256 [] 32 records copied.unloaded := by
    rw [hunsaved]
    intro hsome
    cases hsome
  obtain ⟨saved, more, hsave, hsaved⟩ := save_canon hcanon hkept hplaced hsavable.fit
  obtain ⟨after, hreload, hholds⟩ := reload_holds h.sorted hsaved hsavable.shallow
  refine ⟨after, ?_, hholds⟩
  rw [rewrite, hcopy, Option.bind_eq_bind, Option.bind_some, hsave]
  exact hreload

theorem checkpoint_holds (hsavable : Savable records) (rewrites : Bool) :
    ∃ after, trie.checkpoint sha256 rewrites = some after ∧ after.Holds sha256 records := by
  obtain ⟨saved, more, hsave, hsaved⟩ :=
    save_canon h.canon h.kept (placed_root h.sorted) hsavable.fit
  obtain ⟨after, hreload, hholds⟩ := reload_holds h.sorted hsaved hsavable.shallow
  have hcheckpoint : trie.checkpoint sha256 rewrites =
      if rewrites then after.rewrite sha256 else some after := by
    rw [checkpoint, hsave, Option.bind_eq_bind, Option.bind_some]
    show (reload sha256 saved (trie.nodes ++ more)).bind _ = _
    rw [hreload]
    rfl
  rw [hcheckpoint]
  cases rewrites with
  | false => exact ⟨after, rfl, hholds⟩
  | true => exact rewrite_holds hholds hsavable

theorem checkpointIf_holds (due : Due) (hsavable : due ≠ .nothing → Savable records) :
    ∃ after, trie.checkpointIf sha256 due = some after ∧ after.Holds sha256 records := by
  cases due with
  | nothing => exact ⟨trie, rfl, h⟩
  | checkpoint rewrites => exact checkpoint_holds h (hsavable (by simp)) rewrites

theorem install_holds {changes : List LedgerChange} (hchanges : Ledger.SortedUnique changes)
    (due : Due) (hsavable : changes ≠ [] → due ≠ .nothing → Savable (mergeChanges records changes)) :
    ∃ after, trie.install sha256 changes due = some after ∧
      after.Holds sha256 (mergeChanges records changes) := by
  by_cases hnone : changes = []
  · subst hnone
    exact ⟨trie, rfl, h⟩
  have hplaced := placed_root h.sorted
  obtain ⟨root, hmutate, hchanged, hcanon⟩ :=
    mutate_canon h.canon hplaced ⟨hchanges, fun _ _ => nil_prefix⟩
  have hholds : ({ trie with root := root } : ObjectTrie).Holds sha256
      (mergeChanges records changes) := by
    refine ⟨sorted_mergeChanges h.sorted hchanges, hcanon, fun hoffset => ?_⟩
    have hunsaved : root.offset = none := hchanged.unsaved hnone
    rw [show ({ trie with root := root } : ObjectTrie).root.offset = root.offset from rfl,
      hunsaved] at hoffset
    cases hoffset
  obtain ⟨after, hcheckpoint, hafter⟩ := checkpointIf_holds hholds due (hsavable hnone)
  refine ⟨after, ?_, hafter⟩
  rw [install, if_neg (by simpa using hnone), hmutate]
  exact hcheckpoint

end

theorem build_holds (hsorted : SortedRecords records) (nodes : NodeFile) :
    ∃ root, build sha256 32 records = some root ∧
      (ObjectTrie.mk root nodes).Holds sha256 records := by
  obtain ⟨root, hbuild, hunsaved, hcanon⟩ := build_canon (placed_root hsorted)
  refine ⟨root, hbuild, hsorted, hcanon, fun hoffset => ?_⟩
  rw [show (ObjectTrie.mk root nodes).root.offset = root.offset from rfl, hunsaved] at hoffset
  cases hoffset

theorem replaceAll_holds (trie : ObjectTrie) (hsorted : SortedRecords records)
    (hsavable : Savable records) (rewrites : Bool) :
    ∃ after, trie.replaceAll sha256 records rewrites = some after ∧ after.Holds sha256 records := by
  obtain ⟨root, hbuild, hholds⟩ := build_holds hsorted trie.nodes
  obtain ⟨after, hcheckpoint, hafter⟩ := checkpoint_holds hholds hsavable rewrites
  refine ⟨after, ?_, hafter⟩
  rw [replaceAll, hbuild]
  exact hcheckpoint

end

end ObjectTrie

end Macha
