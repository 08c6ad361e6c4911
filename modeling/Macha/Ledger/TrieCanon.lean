import Macha.Library.Collect
import Macha.Ledger.ObjectTrie

/-!
# Subtrees in their one shape

A child stands for records in the shape they alone decide: its summary is theirs,
and what it loads is their leaf, or the interior node over their groups. Building
gives such a child, and changing one gives such a child of the changed records.

A saved leaf of a whole id cannot be read back; where that may have happened the
shape is known down to the level above.
-/

namespace Macha

open List Option

namespace Trie

/-! ## Sorted records -/

theorem SortedRecords.ext {records others : List TrieRecord} (h : SortedRecords records)
    (h' : SortedRecords others) (hmem : ∀ record, record ∈ records ↔ record ∈ others) :
    records = others := by
  have hnodup {list : List TrieRecord} (hlist : SortedRecords list) : list.Nodup :=
    hlist.imp fun hlt heq => by
      rw [heq] at hlt
      exact lt_irrefl _ hlt
  have hperm := (perm_ext_iff_of_nodup (hnodup h) (hnodup h')).2 hmem
  exact hperm.eq_of_pairwise (fun a b _ _ hab hba => (lt_asymm hab hba).elim) h h'

/-- The records of a subtree: sorted, below its prefix. -/
structure Placed (path : TriePrefix) (level : Nat) (records : List TrieRecord) : Prop where
  sorted : SortedRecords records
  below : AllBelow path records
  deep : path.length + level = 32

namespace Placed

variable {path : TriePrefix} {level : Nat} {records : List TrieRecord}

section

variable (h : Placed path (level + 1) records)

include h

theorem depth : 31 - level = path.length := by
  have := h.deep
  omega

theorem short : path.length < 32 := by
  have := h.deep
  omega

theorem child (x : Fin 256) : Placed (path ++ [x]) level (ofKey (slot (31 - level)) x records) where
  sorted := h.sorted.ofKey _ _
  below := by
    rw [h.depth]
    exact h.below.ofKey h.short x
  deep := by
    have := h.deep
    rw [length_append, length_singleton]
    omega

theorem ascending : Ascending (slot (31 - level)) records := by
  rw [h.depth]
  exact h.sorted.ascending h.below h.short

theorem flatMap :
    ((finRange 256).flatMap fun x => ofKey (slot (31 - level)) x records) = records := by
  rw [h.depth]
  exact flatMap_slots h.sorted h.below h.short

end

theorem count (h : Placed path level records) (sha256 : HashInput → Hash256) :
    (summaryOf sha256 level records).count = records.length :=
  count_summaryOf h.deep h.sorted h.below

theorem length_le_one (h : Placed path 0 records) : records.length ≤ 1 :=
  Trie.length_le_one h.sorted h.below h.deep

end Placed

theorem placed_root {records : List TrieRecord} (h : SortedRecords records) :
    Placed [] 32 records :=
  ⟨h, allBelow_nil records, rfl⟩

/-! ## Changes among sorted records -/

section

variable {old : List TrieRecord} {changes : List LedgerChange}

/-- The records left of a leaf once it is read up to an id. -/
def pastId (id : LedgerId) (old : List TrieRecord) : List TrieRecord :=
  let rest := old.dropWhile fun record => record.1 < id
  if (rest.head?.map (·.1)) = some id then rest.tail else rest

theorem mergeChanges_cons (old : List TrieRecord) (change : LedgerChange)
    (changes : List LedgerChange) : mergeChanges old (change :: changes) =
      old.takeWhile (fun record => record.1 < change.id) ++
        (change.value.map fun value => (change.id, value)).toList ++
        mergeChanges (pastId change.id old) changes := rfl

theorem takeWhile_lt_eq_filter (h : SortedRecords old) (id : LedgerId) :
    (old.takeWhile fun record => record.1 < id) = old.filter fun record => record.1 < id := by
  induction old with
  | nil => rfl
  | cons a old ih =>
    obtain ⟨ha, hold⟩ := pairwise_cons.1 h
    by_cases hid : a.1 < id
    · simp [hid, ih hold]
    · have hnone : old.filter (fun record => record.1 < id) = [] := by
        rw [filter_eq_nil_iff]
        intro b hb
        have hlt := ha b hb
        simp only [decide_eq_true_eq]
        exact fun hb' => hid (hlt.trans hb')
      simp [hid, hnone]

theorem pastId_eq_filter (h : SortedRecords old) (id : LedgerId) :
    pastId id old = old.filter fun record => id < record.1 := by
  induction old with
  | nil => rfl
  | cons a old ih =>
    obtain ⟨ha, hold⟩ := pairwise_cons.1 h
    by_cases hlt : a.1 < id
    · have hdrop : pastId id (a :: old) = pastId id old := by
        unfold pastId
        rw [dropWhile_cons_of_pos (by simpa using hlt)]
      rw [hdrop, ih hold, filter_cons_of_neg (by simpa using hlt.le)]
    · have hrest : (old.filter fun record => id < record.1) = old := by
        rw [filter_eq_self]
        intro b hb
        simp only [decide_eq_true_eq]
        exact lt_of_le_of_lt (not_lt.1 hlt) (ha b hb)
      unfold pastId
      rw [dropWhile_cons_of_neg (by simpa using hlt)]
      by_cases heq : a.1 = id
      · rw [filter_cons_of_neg (by simp [heq]), hrest]
        simp [heq]
      · have hgt : id < a.1 := lt_of_le_of_ne (not_lt.1 hlt) (Ne.symm heq)
        rw [filter_cons_of_pos (by simpa using hgt), hrest]
        simp [heq]

theorem SortedRecords.pastId (h : SortedRecords old) (id : LedgerId) :
    SortedRecords (pastId id old) := by
  rw [pastId_eq_filter h]
  exact h.sublist filter_sublist

theorem sortedUnique_ofKey (hchanges : Ledger.SortedUnique changes) (depth : Nat) (x : Fin 256) :
    Ledger.SortedUnique (ofKey (changeSlot depth) x changes) :=
  List.Pairwise.sublist filter_sublist hchanges

variable (hold : SortedRecords old) (hchanges : Ledger.SortedUnique changes)

include hold hchanges

theorem mem_mergeChanges {record : TrieRecord} : record ∈ mergeChanges old changes ↔
      (∃ change ∈ changes, change.id = record.1 ∧ change.value = some record.2) ∨
        (∀ change ∈ changes, change.id ≠ record.1) ∧ record ∈ old := by
  induction changes generalizing old with
  | nil => simp [mergeChanges]
  | cons change changes ih =>
    obtain ⟨hfirst, hrest⟩ := pairwise_cons.1 hchanges
    have hpast := hold.pastId change.id
    rw [mergeChanges_cons, mem_append, mem_append, ih hpast hrest,
      takeWhile_lt_eq_filter hold, pastId_eq_filter hold]
    simp only [mem_filter, decide_eq_true_eq, Option.mem_toList, map_eq_some_iff,
      mem_cons, exists_eq_or_imp, forall_eq_or_imp]
    constructor
    · rintro ((⟨hmem, hlt⟩ | ⟨value, hvalue, rfl⟩) | ⟨other, hother, hid, hvalue⟩ |
        ⟨hnone, hmem, hgt⟩)
      · exact .inr ⟨⟨hlt.ne', fun other hother heq =>
          absurd (hfirst other hother) (not_lt.2 (heq ▸ hlt.le))⟩, hmem⟩
      · exact .inl (.inl ⟨rfl, hvalue⟩)
      · exact .inl (.inr ⟨other, hother, hid, hvalue⟩)
      · exact .inr ⟨⟨hgt.ne, hnone⟩, hmem⟩
    · rintro ((⟨hid, hvalue⟩ | ⟨other, hother, hid, hvalue⟩) | ⟨⟨hne, hnone⟩, hmem⟩)
      · exact .inl (.inr ⟨record.2, hvalue, by rw [hid]⟩)
      · exact .inr (.inl ⟨other, hother, hid, hvalue⟩)
      · rcases lt_or_gt_of_ne hne with hgt | hlt
        · exact .inr (.inr ⟨hnone, hmem, hgt⟩)
        · exact .inl (.inl ⟨hmem, hlt⟩)

theorem mergeChanges_bound {P : LedgerId → Prop} (holdP : ∀ record ∈ old, P record.1)
    (hchangeP : ∀ change ∈ changes, P change.id) :
    ∀ record ∈ mergeChanges old changes, P record.1 := by
  intro record hrecord
  rcases (mem_mergeChanges hold hchanges).1 hrecord with ⟨change, hmem, hid, -⟩ | ⟨-, hmem⟩
  · exact hid ▸ hchangeP change hmem
  · exact holdP record hmem

theorem sorted_mergeChanges : SortedRecords (mergeChanges old changes) := by
  induction changes generalizing old with
  | nil => exact hold
  | cons change changes ih =>
    obtain ⟨hfirst, hrest⟩ := pairwise_cons.1 hchanges
    have hpast := hold.pastId change.id
    have habove : ∀ record ∈ mergeChanges (pastId change.id old) changes, change.id < record.1 := by
      refine mergeChanges_bound hpast hrest ?_ hfirst
      intro record hrecord
      rw [pastId_eq_filter hold, mem_filter, decide_eq_true_eq] at hrecord
      exact hrecord.2
    have hbelow : ∀ record ∈ old.takeWhile fun record => record.1 < change.id,
        record.1 < change.id := by
      intro record hrecord
      simpa using mem_takeWhile_imp hrecord
    rw [mergeChanges_cons]
    unfold SortedRecords
    rw [pairwise_append, pairwise_append]
    refine ⟨⟨hold.sublist (takeWhile_sublist _), ?_, ?_⟩, ih hpast hrest, ?_⟩
    · cases change.value <;> simp
    · intro a ha b hb
      obtain ⟨value, -, rfl⟩ := map_eq_some_iff.1 (Option.mem_toList.1 hb)
      exact hbelow a ha
    · intro a ha b hb
      rcases mem_append.1 ha with ha | ha
      · exact (hbelow a ha).trans (habove b hb)
      · obtain ⟨value, -, rfl⟩ := map_eq_some_iff.1 (Option.mem_toList.1 ha)
        exact habove b hb

theorem ofKey_mergeChanges (depth : Nat) (x : Fin 256) :
    ofKey (slot depth) x (mergeChanges old changes) =
      mergeChanges (ofKey (slot depth) x old) (ofKey (changeSlot depth) x changes) := by
  have hgroup := sortedUnique_ofKey hchanges depth x
  refine ((sorted_mergeChanges hold hchanges).ofKey depth x).ext
    (sorted_mergeChanges (hold.ofKey depth x) hgroup) ?_
  intro record
  rw [mem_mergeChanges (hold.ofKey depth x) hgroup]
  unfold ofKey
  simp only [mem_filter, mem_mergeChanges hold hchanges, decide_eq_true_iff]
  constructor
  · rintro ⟨⟨change, hmem, hid, hvalue⟩ | ⟨hnone, hmem⟩, hslot⟩
    · refine .inl ⟨change, ⟨hmem, ?_⟩, hid, hvalue⟩
      rw [changeSlot, hid]
      exact hslot
    · exact .inr ⟨fun change hchange => hnone change hchange.1, hmem, hslot⟩
  · rintro (⟨change, ⟨hmem, hchange⟩, hid, hvalue⟩ | ⟨hnone, hmem, hslot⟩)
    · refine ⟨.inl ⟨change, hmem, hid, hvalue⟩, ?_⟩
      rw [slot, ← hid]
      exact hchange
    · refine ⟨.inr ⟨fun change hchange heq => ?_, hmem⟩, hslot⟩
      refine hnone change ⟨hchange, ?_⟩ heq
      rw [changeSlot, heq]
      exact hslot

end

section

variable (sha256 : HashInput → Hash256)

/-- A child whose saved node is not accepted when it is read back. -/
def Unreadable (file : NodeFile) (child : Child) : Prop :=
  child.node = none ∧ ∃ offset image, child.offset = some offset ∧
    file[offset]? = some (some image) ∧ decode image = none

/-- A saved child keeps no node. -/
def Tidy (child : Child) : Prop := child.offset.isSome = true → child.node = none

/-- A child stands for the records, in their shape. Where `cut` holds the leaf of
a whole id may be unreadable. -/
def Canon (file : NodeFile) (cut : Prop) : Nat → List TrieRecord → Child → Prop
  | 0, records, child => child.summary = summaryOf sha256 0 records ∧
    (records ≠ [] → load sha256 file child = some (.leaf 32 records) ∨ cut ∧ Unreadable file child)
  | level + 1, records, child => child.summary = summaryOf sha256 (level + 1) records ∧
    (records ≠ [] → records.length ≤ leafMax →
      load sha256 file child = some (.leaf (31 - level) records)) ∧
    (leafMax < records.length →
      ∃ children, load sha256 file child = some (.interior (31 - level) children) ∧
        (∀ x, Tidy (children x)) ∧
        ∀ x, Canon file cut level (ofKey (slot (31 - level)) x records) (children x))

end

section

variable {sha256 : HashInput → Hash256} {file more : NodeFile} {cut cut' : Prop} {level : Nat}
  {records : List TrieRecord} {child : Child} {path : TriePrefix}

section

variable (h : Canon sha256 file cut level records child)

include h

theorem Canon.summary : child.summary = summaryOf sha256 level records := by
  cases level with
  | zero => exact h.1
  | succ level => exact h.1

theorem Canon.count (hplaced : Placed path level records) : child.count = records.length := by
  have hcount := congrArg Summary.count h.summary
  rw [hplaced.count] at hcount
  exact hcount

theorem Canon.weaken (hcut : cut → cut') : Canon sha256 file cut' level records child := by
  induction level generalizing records child with
  | zero =>
    refine ⟨h.1, fun hne => ?_⟩
    rcases h.2 hne with hload | ⟨hnow, hunreadable⟩
    · exact .inl hload
    · exact .inr ⟨hcut hnow, hunreadable⟩
  | succ level ih =>
    refine ⟨h.1, h.2.1, fun hmany => ?_⟩
    obtain ⟨children, hload, htidy, hchildren⟩ := h.2.2 hmany
    exact ⟨children, hload, htidy, fun x => ih (hchildren x)⟩

omit h in
theorem load_append {node : Node} (h : load sha256 file child = some node) :
    load sha256 (file ++ more) child = some node := by
  unfold load at h ⊢
  split at h
  · exact h
  · obtain ⟨hcount, h⟩ := guard_bind_eq_some h
    obtain ⟨offset, hoffset, h⟩ := bind_eq_some_iff.1 h
    obtain ⟨image, himage, h⟩ := bind_eq_some_iff.1 h
    have hfound := join_eq_some_iff.1 himage
    have hmore : (file ++ more)[offset]? = some (some image) := by
      rw [getElem?_append_left (List.getElem?_eq_some_iff.1 hfound).1]
      exact hfound
    rw [guard_of hcount, hoffset]
    show ((file ++ more)[offset]?.join).bind _ = _
    rw [hmore]
    exact h

omit h in
theorem Unreadable.append (h : Unreadable file child) : Unreadable (file ++ more) child := by
  obtain ⟨hnode, offset, image, hoffset, himage, hdecode⟩ := h
  refine ⟨hnode, offset, image, hoffset, ?_, hdecode⟩
  rw [getElem?_append_left (List.getElem?_eq_some_iff.1 himage).1]
  exact himage

theorem Canon.append : Canon sha256 (file ++ more) cut level records child := by
  induction level generalizing records child with
  | zero =>
    refine ⟨h.1, fun hne => ?_⟩
    rcases h.2 hne with hload | ⟨hnow, hunreadable⟩
    · exact .inl (load_append hload)
    · exact .inr ⟨hnow, hunreadable.append⟩
  | succ level ih =>
    refine ⟨h.1, fun hne hfew => load_append (h.2.1 hne hfew), fun hmany => ?_⟩
    obtain ⟨children, hload, htidy, hchildren⟩ := h.2.2 hmany
    exact ⟨children, load_append hload, htidy, fun x => ih (hchildren x)⟩

end

/-- No prefix a byte short of an id has more records below than a leaf holds. -/
def Shallow (records : List TrieRecord) : Prop :=
  ∀ path : TriePrefix, path.length = 31 → (below path records).length ≤ leafMax

theorem Shallow.sublist {others : List TrieRecord} (h : Shallow others)
    (hsub : records.Sublist others) : Shallow records := by
  intro path hpath
  exact le_trans (hsub.filter _).length_le (h path hpath)

theorem Canon.of_shallow (h : Canon sha256 file cut (level + 1) records child)
    (hplaced : Placed path (level + 1) records) (hshallow : Shallow records) :
    Canon sha256 file False (level + 1) records child := by
  induction level generalizing records child path with
  | zero =>
    refine ⟨h.1, h.2.1, fun hmany => ?_⟩
    have hfew := hshallow path (by have := hplaced.deep; omega)
    rw [below_eq_self hplaced.below] at hfew
    omega
  | succ level ih =>
    refine ⟨h.1, h.2.1, fun hmany => ?_⟩
    obtain ⟨children, hload, htidy, hchildren⟩ := h.2.2 hmany
    exact ⟨children, hload, htidy, fun x => ih (hchildren x) (hplaced.child x)
      (hshallow.sublist filter_sublist)⟩

theorem load_childOf (node : Node) : load sha256 file (childOf sha256 node) = some node := rfl

theorem summary_childOf (node : Node) : (childOf sha256 node).summary = node.summary sha256 := rfl

theorem canon_empty (level : Nat) : Canon sha256 file cut level [] .empty := by
  cases level with
  | zero => exact ⟨(summaryOf_nil 0).symm, fun h => (h rfl).elim⟩
  | succ level =>
    refine ⟨(summaryOf_nil _).symm, fun h => (h rfl).elim, fun h => ?_⟩
    simp at h

theorem canon_leaf (hfew : records.length ≤ leafMax) :
    Canon sha256 file cut level records (childOf sha256 (.leaf (32 - level) records)) := by
  have hsummary : (childOf sha256 (.leaf (32 - level) records)).summary =
      summaryOf sha256 level records := by
    rw [summaryOf_leaf hfew]
    rfl
  cases level with
  | zero => exact ⟨hsummary, fun _ => .inl rfl⟩
  | succ level =>
    refine ⟨hsummary, fun _ _ => ?_, fun hmany => by omega⟩
    rw [load_childOf]
    congr 2
    omega

variable {children : Fin 256 → Child} {changes : List LedgerChange}

theorem canon_interior (hmany : leafMax < records.length) (htidy : ∀ x, Tidy (children x))
    (h : ∀ x, Canon sha256 file cut level (ofKey (slot (31 - level)) x records) (children x)) :
    Canon sha256 file cut (level + 1) records
      (childOf sha256 (.interior (31 - level) children)) := by
  refine ⟨?_, fun _ hfew => by omega, fun _ => ⟨children, rfl, htidy, h⟩⟩
  rw [summaryOf_interior hmany, summary_childOf]
  show interiorSummary sha256 (fun x => (children x).summary) = _
  congr 1
  funext x
  exact (h x).summary

theorem tidy_of_unsaved (h : child.offset = none) : Tidy child := by
  intro hsome
  rw [h] at hsome
  cases hsome

theorem build_canon (hplaced : Placed path level records) :
    ∃ child, build sha256 level records = some child ∧ child.offset = none ∧
      Canon sha256 file cut level records child := by
  induction level generalizing path records with
  | zero =>
    have hone := hplaced.length_le_one
    have hfew : records.length ≤ leafMax := hone.trans (by decide)
    cases records with
    | nil => exact ⟨_, rfl, rfl, canon_empty 0⟩
    | cons record rest =>
      have hleaf : Canon sha256 file cut 0 (record :: rest)
          (childOf sha256 (.leaf (32 - 0) (record :: rest))) := canon_leaf hfew
      exact ⟨_, if_pos hfew, rfl, hleaf⟩
  | succ level ih =>
    by_cases hempty : records = []
    · subst hempty
      exact ⟨_, rfl, rfl, canon_empty _⟩
    have hnot : ¬ records.isEmpty = true := by simpa using hempty
    by_cases hfew : records.length ≤ leafMax
    · refine ⟨_, ?_, rfl, canon_leaf hfew⟩
      unfold build
      rw [if_neg hnot, if_pos hfew]
      congr 3
      omega
    · choose value hbuild hunsaved hcanon using fun x => ih (hplaced.child x)
      have hassign := assignRuns_runs (fun _ _ group => build sha256 level group)
        (fun _ => Child.empty) value hplaced.ascending fun x _ => hbuild x
      have hbuilt : build sha256 (level + 1) records = some (childOf sha256
          (.interior (31 - level) fun x =>
            if ofKey (slot (31 - level)) x records = [] then .empty else value x)) := by
        unfold build
        rw [if_neg hnot, if_neg hfew, hassign]
        rfl
      refine ⟨_, hbuilt, rfl, canon_interior (not_le.1 hfew) (fun x => ?_) fun x => ?_⟩
      · refine tidy_of_unsaved ?_
        split
        · rfl
        · exact hunsaved x
      · split
        · next hnone =>
          rw [hnone]
          exact canon_empty level
        · exact hcanon x

/-! ## Gathering and changing -/

theorem visit_empty {α : Type} {nothing : α} {read : Node → Option α} (hcount : child.count = 0) :
    visit sha256 file child nothing read = some nothing :=
  if_pos hcount

theorem visit_loaded {α : Type} {nothing : α} {read : Node → Option α} {node : Node}
    (hcount : child.count ≠ 0) (hload : load sha256 file child = some node) :
    visit sha256 file child nothing read = read node := by
  unfold visit
  rw [if_neg hcount, hload]
  rfl

theorem Canon.count_eq_zero (h : Canon sha256 file cut level [] child) : child.count = 0 := by
  have hcount := congrArg Summary.count h.summary
  rw [summaryOf_nil] at hcount
  exact hcount

theorem Canon.count_ne_zero (h : Canon sha256 file cut level records child)
    (hplaced : Placed path level records) (hne : records ≠ []) : child.count ≠ 0 := by
  rw [h.count hplaced]
  simpa using hne

/-- Induction over a readable subtree: nothing, a leaf, or an interior node over its slots. -/
@[elab_as_elim]
theorem Canon.readInduction {motive : ∀ level records child path,
      Canon sha256 file False level records child → Placed path level records → Prop}
    (empty : ∀ level {child path} h hplaced, child.count = 0 →
      motive level [] child path h hplaced)
    (leaf : ∀ level {records child path} h hplaced, records.length ≤ leafMax →
      child.count ≠ 0 → load sha256 file child = some (.leaf (32 - level) records) →
      motive level records child path h hplaced)
    (interior : ∀ level {records child path} children h hplaced, leafMax < records.length →
      child.count ≠ 0 → load sha256 file child = some (.interior (31 - level) children) →
      (∀ x, Tidy (children x)) → ∀ hchildren : ∀ x,
        Canon sha256 file False level (ofKey (slot (31 - level)) x records) (children x),
      (∀ x, motive level _ (children x) (path ++ [x]) (hchildren x) (hplaced.child x)) →
      motive (level + 1) records child path h hplaced)
    (h : Canon sha256 file False level records child) (hplaced : Placed path level records) :
    motive level records child path h hplaced := by
  induction level generalizing path records child with
  | zero =>
    rcases eq_or_ne records [] with rfl | hne
    · exact empty _ h hplaced h.count_eq_zero
    rcases h.2 hne with hload | ⟨hcut, -⟩
    · exact leaf _ h hplaced (hplaced.length_le_one.trans (by decide))
        (h.count_ne_zero hplaced hne) hload
    · exact hcut.elim
  | succ level ih =>
    rcases eq_or_ne records [] with rfl | hne
    · exact empty _ h hplaced h.count_eq_zero
    have hcount := h.count_ne_zero hplaced hne
    by_cases hfew : records.length ≤ leafMax
    · have hdepth : 31 - level = 32 - (level + 1) := by omega
      exact leaf _ h hplaced hfew hcount (hdepth ▸ h.2.1 hne hfew)
    · obtain ⟨children, hload, htidy, hchildren⟩ := h.2.2 (not_le.1 hfew)
      exact interior _ _ h hplaced (not_le.1 hfew) hcount hload htidy hchildren fun _ => ih _ _

theorem gather_canon (h : Canon sha256 file False level records child)
    (hplaced : Placed path level records) :
    gather sha256 file level child = some records := by
  induction h, hplaced using Canon.readInduction with
  | empty level _ _ hcount => cases level <;> exact visit_empty hcount
  | leaf level _ _ _ hcount hload => cases level <;> exact visit_loaded hcount hload
  | interior level children _ hplaced _ hcount hload _ _ ih =>
    refine (visit_loaded hcount hload).trans ?_
    show (finRange 256).foldlM
      (fun out x => do some (out ++ (← gather sha256 file level (children x)))) [] = _
    rw [foldlM_append_eq fun x _ => ih x, nil_append, hplaced.flatMap]

theorem mutate_none (child : Child) : mutate sha256 file level child [] = some child := by
  cases level <;> rfl

theorem mutate_empty (hchanges : changes ≠ []) (hcount : child.count = 0) :
    mutate sha256 file level child changes = build sha256 level (mergeChanges [] changes) := by
  have hsome : ¬ changes.isEmpty = true := by simpa using hchanges
  cases level with
  | zero => rw [mutate, if_neg hsome, if_pos hcount]
  | succ level => rw [mutate, if_neg hsome, if_pos hcount]

theorem mutate_leaf {depth : Nat} (hchanges : changes ≠ []) (hcount : child.count ≠ 0)
    (hload : load sha256 file child = some (.leaf depth records)) :
    mutate sha256 file level child changes = build sha256 level (mergeChanges records changes) := by
  have hsome : ¬ changes.isEmpty = true := by simpa using hchanges
  cases level with
  | zero =>
    rw [mutate, if_neg hsome, if_neg hcount, hload]
    rfl
  | succ level =>
    rw [mutate, if_neg hsome, if_neg hcount, hload]
    rfl

theorem mutate_interior {depth : Nat} (hchanges : changes ≠ []) (hcount : child.count ≠ 0)
    (hload : load sha256 file child = some (.interior depth children)) :
    mutate sha256 file (level + 1) child changes = mutateInterior sha256 (level + 1)
      (mutate sha256 file level) (gather sha256 file level) children changes := by
  have hsome : ¬ changes.isEmpty = true := by simpa using hchanges
  rw [mutate, if_neg hsome, if_neg hcount, hload]
  rfl

theorem mutateInterior_eq {below : Child → List LedgerChange → Option Child}
    {gathered : Child → Option (List TrieRecord)} {children after : Fin 256 → Child}
    (hassign : assignRuns (fun _ child group => below child group) children
      (runs (changeSlot (31 - level)) changes) = some after) :
    mutateInterior sha256 (level + 1) below gathered children changes =
      if ((finRange 256).map fun x => (after x).count).sum ≤ leafMax then do
        let all ← (finRange 256).foldlM
          (fun out x => do some (out ++ (← gathered (after x)))) []
        build sha256 (level + 1) all
      else some (childOf sha256 (.interior (31 - level) after)) := by
  have hdepth : 32 - (level + 1) = 31 - level := by omega
  unfold mutateInterior
  rw [hdepth, hassign, bind_eq_bind, bind_some]

structure PlacedChanges (path : TriePrefix) (changes : List LedgerChange) : Prop where
  sorted : Ledger.SortedUnique changes
  below : ∀ change ∈ changes, path <+: change.id.val

theorem PlacedChanges.inSlot (h : PlacedChanges path changes)
    (hplaced : Placed path (level + 1) records) (x : Fin 256) :
    PlacedChanges (path ++ [x]) (ofKey (changeSlot (31 - level)) x changes) where
  sorted := sortedUnique_ofKey h.sorted _ x
  below := by
    intro change hchange
    rw [hplaced.depth] at hchange
    simp only [ofKey, mem_filter, decide_eq_true_iff] at hchange
    exact (covered_concat_iff hplaced.short x).2 ⟨h.below change hchange.1, hchange.2⟩

theorem PlacedChanges.ascending (h : PlacedChanges path changes)
    (hplaced : Placed path (level + 1) records) :
    Ascending (changeSlot (31 - level)) changes := by
  rw [hplaced.depth]
  refine List.Pairwise.imp_of_mem ?_ h.sorted
  intro a b ha hb hlt
  exact byteAt_le_of_lt hplaced.short (h.below a ha) (h.below b hb) hlt

theorem Placed.merge (hplaced : Placed path level records) (h : PlacedChanges path changes) :
    Placed path level (mergeChanges records changes) where
  sorted := sorted_mergeChanges hplaced.sorted h.sorted
  below := mergeChanges_bound hplaced.sorted h.sorted (P := fun id => path <+: id.val)
    hplaced.below h.below
  deep := hplaced.deep

theorem sum_count (hplaced : Placed path (level + 1) records)
    (h : ∀ x, Canon sha256 file cut level (ofKey (slot (31 - level)) x records) (children x)) :
    ((finRange 256).map fun x => (children x).count).sum = records.length := by
  have hsum : ((finRange 256).map fun x => (children x).count) =
      (finRange 256).map fun x => (ofKey (slot (31 - level)) x records).length :=
    map_congr_left fun x _ => (h x).count (hplaced.child x)
  rw [hsum, hplaced.depth]
  exact sum_slots hplaced.sorted hplaced.below hplaced.short

/-- A changed child: itself when nothing changes, and not saved when something does. -/
structure Changed (child : Child) (changes : List LedgerChange) (after : Child) : Prop where
  kept : changes = [] → after = child
  unsaved : changes ≠ [] → after.offset = none

theorem Changed.tidy {after : Child} (h : Changed child changes after) (htidy : Tidy child) :
    Tidy after := by
  by_cases hnone : changes = []
  · rw [h.kept hnone]
    exact htidy
  · exact tidy_of_unsaved (h.unsaved hnone)

theorem build_merged (hplaced : Placed path level records) (hchanges : PlacedChanges path changes)
    (hsome : changes ≠ []) :
    ∃ after, build sha256 level (mergeChanges records changes) = some after ∧
      Changed child changes after ∧
      Canon sha256 file cut level (mergeChanges records changes) after := by
  obtain ⟨after, hbuild, hunsaved, hcanon⟩ := build_canon (hplaced.merge hchanges)
  exact ⟨after, hbuild, ⟨fun hnone => (hsome hnone).elim, fun _ => hunsaved⟩, hcanon⟩

theorem changed_of_changes (h : Canon sha256 file False level records child)
    (hmutate : changes ≠ [] → ∃ after, mutate sha256 file level child changes = some after ∧
      Changed child changes after ∧
      Canon sha256 file False level (mergeChanges records changes) after) :
    ∃ after, mutate sha256 file level child changes = some after ∧ Changed child changes after ∧
      Canon sha256 file False level (mergeChanges records changes) after := by
  by_cases hnone : changes = []
  · subst hnone
    exact ⟨child, mutate_none child, ⟨fun _ => rfl, fun hsome => (hsome rfl).elim⟩, h⟩
  · exact hmutate hnone

theorem mutate_canon (h : Canon sha256 file False level records child)
    (hplaced : Placed path level records) (hchanges : PlacedChanges path changes) :
    ∃ after, mutate sha256 file level child changes = some after ∧ Changed child changes after ∧
      Canon sha256 file False level (mergeChanges records changes) after := by
  induction h, hplaced using Canon.readInduction generalizing changes with
  | empty _ h hplaced hcount =>
    refine changed_of_changes h fun hnone => ?_
    rw [mutate_empty hnone hcount]
    exact build_merged hplaced hchanges hnone
  | leaf _ h hplaced _ hcount hload =>
    refine changed_of_changes h fun hnone => ?_
    rw [mutate_leaf hnone hcount hload]
    exact build_merged hplaced hchanges hnone
  | @interior level records _ _ children h hplaced _ hcount hload htidy hchildren ih =>
    refine changed_of_changes h fun hnone => ?_
    choose value hmutate hchanged hcanon using fun x => ih x (hchanges.inSlot hplaced x)
    have hassign := assignRuns_runs (fun _ child group => mutate sha256 file level child group)
      children value (hchanges.ascending hplaced) fun x _ => hmutate x
    have hafter x : Canon sha256 file False level
        (ofKey (slot (31 - level)) x (mergeChanges records changes))
        (if ofKey (changeSlot (31 - level)) x changes = [] then children x else value x) := by
      rw [ofKey_mergeChanges hplaced.sorted hchanges.sorted]
      split
      · next hsame =>
        rw [hsame]
        exact hchildren x
      · exact hcanon x
    have hmerged := hplaced.merge hchanges
    rw [mutate_interior hnone hcount hload, mutateInterior_eq hassign, sum_count hmerged hafter]
    split
    · rw [foldlM_append_eq fun x _ => gather_canon (hafter x) (hmerged.child x),
        nil_append, hmerged.flatMap]
      exact build_merged hplaced hchanges hnone
    · next hmany =>
      refine ⟨_, rfl, ⟨fun h => (hnone h).elim, fun _ => rfl⟩,
        canon_interior (not_le.1 hmany) (fun x => ?_) hafter⟩
      split
      · exact htidy x
      · exact (hchanged x).tidy (htidy x)

end

end Trie

end Macha
