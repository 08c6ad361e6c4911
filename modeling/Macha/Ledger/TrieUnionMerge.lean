import Macha.Ledger.TrieUnion

/-!
# Making a union

A node of a union stands for the parts' records at its prefix: its summary is that
of their union. Making a node gives one exactly where no id is held by more parts
than a leaf holds records unless they hold it alike: for such an id the union is
worked out down to the whole id, which has no children to ask for.
-/

namespace Macha

open List

namespace Trie

theorem length_le_of_ids {records others : List TrieRecord} (h : SortedRecords records)
    (hids : ∀ record ∈ records, ∃ value, (record.1, value) ∈ others) :
    records.length ≤ others.length := by
  have hnodup : (records.map Prod.fst).Nodup :=
    pairwise_map.2 (h.imp fun hlt => hlt.ne)
  have hsub : records.map Prod.fst ⊆ others.map Prod.fst := by
    intro id hid
    obtain ⟨record, hrecord, rfl⟩ := List.mem_map.1 hid
    obtain ⟨value, hvalue⟩ := hids record hrecord
    exact List.mem_map.2 ⟨_, hvalue, rfl⟩
  simpa using (hnodup.subperm hsub).length_le

section

variable {out got : List TrieRecord} {recs : List (List TrieRecord)}

theorem length_le_mergeRecords (hout : SortedRecords out) (hgot : SortedRecords got) :
    out.length ≤ (mergeRecords out got).length :=
  length_le_of_ids hout fun record hrecord =>
    ⟨record.2, (mem_mergeRecords hout hgot).2 (.inl hrecord)⟩

theorem length_mergeRecords_le (hout : SortedRecords out) (hgot : SortedRecords got) :
    (mergeRecords out got).length ≤ out.length + got.length := by
  rw [← length_append]
  refine length_le_of_ids (sorted_mergeRecords hout hgot) fun record hrecord => ⟨record.2, ?_⟩
  rcases (mem_mergeRecords hout hgot).1 hrecord with hmem | ⟨hmem, -⟩
  · exact mem_append_left _ hmem
  · exact mem_append_right _ hmem

theorem length_le_unionOf (h : AllSorted recs) {records : List TrieRecord}
    (hmem : records ∈ recs) : records.length ≤ (unionOf recs).length := by
  refine length_le_of_ids (h records hmem) fun record hrecord => ?_
  have hfind : leafFind records record.1 = some record.2 :=
    (leafFind_eq_some_iff (h records hmem)).2 hrecord
  have hsome : (leafFind (unionOf recs) record.1).isSome = true := by
    rw [leafFind_unionOf h, findSome?_isSome_iff]
    exact ⟨records, hmem, by rw [hfind]; rfl⟩
  obtain ⟨value, hvalue⟩ := Option.isSome_iff_exists.1 hsome
  exact ⟨value, (leafFind_eq_some_iff (sorted_unionOf h)).1 hvalue⟩

theorem length_unionOf_le (h : AllSorted recs) :
    (unionOf recs).length ≤ (recs.map List.length).sum := by
  induction recs using reverseRecOn with
  | nil => exact le_rfl
  | append_singleton recs records ih =>
    have hinit : AllSorted recs := fun r hr => h r (mem_append_left _ hr)
    have hlast := h records (mem_append_right _ (mem_singleton.2 rfl))
    have hmerge := length_mergeRecords_le (sorted_unionOf hinit) hlast
    have hrest := ih hinit
    rw [unionOf_concat, map_append, sum_append]
    simp only [map_cons, map_nil, sum_cons, sum_nil]
    omega

end

/-! ## The parts' records -/

abbrev PartsHold (sha256 : HashInput → Hash256) (parts : List ObjectTrie)
    (recs : List (List TrieRecord)) : Prop :=
  List.Forall₂ (fun part records => part.Holds sha256 records) parts recs

section

variable {sha256 : HashInput → Hash256} {parts : List ObjectTrie} {recs : List (List TrieRecord)}
  {path : TriePrefix} {most : Nat}

section

variable (h : PartsHold sha256 parts recs)

include h

theorem allSorted_of_hold : AllSorted recs := by
  intro records hrecords
  obtain ⟨i, hi, rfl⟩ := mem_iff_getElem.1 hrecords
  have hlength := h.length_eq
  exact (List.forall₂_iff_get.1 h).2 i (by omega) hi |>.sorted

omit h in
theorem records_eq {part : ObjectTrie} {records : List TrieRecord} (h : part.Holds sha256 records)
    (hfew : (below path records).length ≤ leafMax ∨ (below path records).length ≤ most) :
    part.records sha256 path most = some (below path records) := by
  refine (records_canon h.sorted h.canon path most).trans (if_neg ?_)
  omega

omit h in
theorem length_le_foldl (h : AllSorted recs) {out : List TrieRecord} (hout : SortedRecords out) :
    out.length ≤ (recs.foldl mergeRecords out).length := by
  induction recs generalizing out with
  | nil => exact le_rfl
  | cons records recs ih =>
    have hrecords := h records mem_cons_self
    exact (length_le_mergeRecords hout hrecords).trans
      (ih (fun r hr => h r (mem_cons_of_mem _ hr)) (sorted_mergeRecords hout hrecords))

section

variable (hfew : ∀ records ∈ recs, (below path records).length ≤ leafMax ∨ (below path records).length ≤ most)

include hfew

theorem mergedRecords_fold {out : List TrieRecord} (hout : SortedRecords out)
    (hmost : out.length ≤ most) :
    parts.foldlM (mergePart sha256 path most) out =
      if ((recs.map (below path)).foldl mergeRecords out).length ≤ most then
        some ((recs.map (below path)).foldl mergeRecords out)
      else none := by
  induction h generalizing out with
  | nil => exact (if_pos hmost).symm
  | @cons part records parts recs hpart hparts ih =>
    have hsorted := hpart.sorted.below path
    have hrest : ∀ others ∈ recs, (below path others).length ≤ leafMax ∨
        (below path others).length ≤ most :=
      fun others hothers => hfew others (mem_cons_of_mem _ hothers)
    have hmerged := sorted_mergeRecords hout hsorted
    rw [foldlM_cons, mergePart, records_eq hpart (hfew records mem_cons_self),
      map_cons, foldl_cons, Option.bind_eq_bind, Option.bind_some]
    by_cases hnone : (below path records).isEmpty = true
    · have hnil : below path records = [] := by simpa using hnone
      rw [if_pos hnone, Option.bind_some, hnil, mergeRecords_nil]
      exact ih hrest hout hmost
    rw [if_neg hnone]
    by_cases hfits : (mergeRecords out (below path records)).length ≤ most
    · rw [guard_of hfits]
      exact ih hrest hmerged hfits
    · have hgrows := length_le_foldl ((allSorted_of_hold hparts).below path) hmerged
      rw [guard, if_neg hfits, if_neg (by omega)]
      rfl

theorem mergedRecords_eq : mergedRecords sha256 parts path most =
      if (unionOf (recs.map (below path))).length ≤ most then
        some (unionOf (recs.map (below path)))
      else none :=
  mergedRecords_fold h hfew List.Pairwise.nil (Nat.zero_le most)

end

theorem mergedRecords_of_few (hfew : (unionOf (recs.map (below path))).length ≤ leafMax ∨
      (unionOf (recs.map (below path))).length ≤ most) :
    mergedRecords sha256 parts path most =
      if (unionOf (recs.map (below path))).length ≤ most then
        some (unionOf (recs.map (below path)))
      else none := by
  refine mergedRecords_eq h fun records hrecords => ?_
  have hle := length_le_unionOf ((allSorted_of_hold h).below path)
    (List.mem_map.2 ⟨records, hrecords, rfl⟩)
  omega

end

end

/-! ## Ids held by many parts -/

/-- All the parts that hold anything hold the same. -/
def Alike (recs : List (List TrieRecord)) : Prop :=
  ∀ records ∈ recs, ∀ others ∈ recs, records ≠ [] → others ≠ [] → records = others

/-- No id is held by more parts than a leaf holds records, unless with one value. -/
def Calm (recs : List (List TrieRecord)) : Prop :=
  ∀ id, recs.countP (fun records => (leafFind records id).isSome) ≤ leafMax ∨
    ∀ records ∈ recs, ∀ others ∈ recs, ∀ value other, leafFind records id = some value →
      leafFind others id = some other → value = other

section

variable {recs : List (List TrieRecord)} {path : TriePrefix}

theorem Alike.calm (h : Alike recs) : Calm recs := by
  intro id
  right
  intro records hrecords others hothers value other hvalue hother
  have hne {held : List TrieRecord} {value : ByteString} (hfind : leafFind held id = some value) :
      held ≠ [] := by
    intro hnil
    rw [hnil] at hfind
    cases hfind
  rw [h records hrecords others hothers (hne hvalue) (hne hother), hother] at hvalue
  exact (Option.some.inj hvalue).symm

theorem countP_le_sum (id : LedgerId) : recs.countP (fun records => (leafFind records id).isSome) ≤
      (recs.map List.length).sum := by
  induction recs with
  | nil => exact le_rfl
  | cons records recs ih =>
    rw [countP_cons, map_cons, sum_cons]
    have hone : (if (leafFind records id).isSome = true then 1 else 0) ≤ records.length := by
      split
      · next hsome =>
        cases records with
        | nil => cases hsome
        | cons record records => simp
      · exact Nat.zero_le _
    omega

theorem calm_of_few (h : (recs.map List.length).sum ≤ leafMax) : Calm recs :=
  fun id => .inl ((countP_le_sum id).trans h)

theorem countP_below (h : AllSorted recs) {id : LedgerId} (hid : path <+: id.val) :
    (recs.map (below path)).countP (fun records => (leafFind records id).isSome) =
      recs.countP fun records => (leafFind records id).isSome := by
  rw [countP_map]
  refine countP_congr fun records hrecords => ?_
  rw [Function.comp_apply, TrieDiff.leafFind_below (h records hrecords) hid]

theorem countP_of_none {id : LedgerId} (h : ∀ records ∈ recs, leafFind records id = none) :
    recs.countP (fun records => (leafFind records id).isSome) ≤ leafMax := by
  have hzero : recs.countP (fun records => (leafFind records id).isSome) = 0 := by
    rw [countP_eq_zero]
    intro records hrecords
    rw [h records hrecords]
    exact Bool.false_ne_true
  omega

theorem calm_below (h : AllSorted recs) (hcalm : Calm recs) (path : TriePrefix) :
    Calm (recs.map (below path)) := by
  intro id
  by_cases hid : path <+: id.val
  · rw [countP_below h hid]
    refine (hcalm id).imp_right fun hsame => ?_
    intro records hrecords others hothers value other hvalue hother
    obtain ⟨held, hheld, rfl⟩ := List.mem_map.1 hrecords
    obtain ⟨held', hheld', rfl⟩ := List.mem_map.1 hothers
    rw [TrieDiff.leafFind_below (h held hheld) hid] at hvalue
    rw [TrieDiff.leafFind_below (h held' hheld') hid] at hother
    exact hsame held hheld held' hheld' value other hvalue hother
  · left
    refine countP_of_none fun records hrecords => ?_
    obtain ⟨held, hheld, rfl⟩ := List.mem_map.1 hrecords
    exact TrieDiff.leafFind_below_of_not (h held hheld) hid

theorem calm_of_slots (h : AllSorted recs) (hshort : path.length < 32)
    (hbelow : ∀ records ∈ recs, AllBelow path records)
    (hslots : ∀ x, Calm (recs.map (below (path ++ [x])))) : Calm recs := by
  intro id
  by_cases hid : path <+: id.val
  · have hnext := (covered_concat_iff hshort (byteAt id path.length)).2 ⟨hid, rfl⟩
    have hslot := hslots (byteAt id path.length) id
    rw [countP_below h hnext] at hslot
    refine hslot.imp_right fun hsame => ?_
    intro records hrecords others hothers value other hvalue hother
    rw [← TrieDiff.leafFind_below (h records hrecords) hnext] at hvalue
    rw [← TrieDiff.leafFind_below (h others hothers) hnext] at hother
    exact hsame _ (List.mem_map_of_mem hrecords) _ (List.mem_map_of_mem hothers) value other
      hvalue hother
  · left
    refine countP_of_none fun records hrecords => ?_
    rw [← below_eq_self (hbelow records hrecords)]
    exact TrieDiff.leafFind_below_of_not (h records hrecords) hid

theorem Alike.below (h : Alike recs) (path : TriePrefix) : Alike (recs.map (below path)) := by
  intro records hrecords others hothers hne hne'
  obtain ⟨held, hheld, rfl⟩ := List.mem_map.1 hrecords
  obtain ⟨held', hheld', rfl⟩ := List.mem_map.1 hothers
  have hsome {held : List TrieRecord} (hne : Trie.below path held ≠ []) : held ≠ [] := by
    intro hnil
    rw [hnil] at hne
    exact hne rfl
  rw [h held hheld held' hheld' (hsome hne) (hsome hne')]

theorem Alike.unionOf_eq (h : Alike recs) (hsorted : AllSorted recs) {records : List TrieRecord}
    (hmem : records ∈ recs) (hne : records ≠ []) : unionOf recs = records := by
  refine (sorted_unionOf hsorted).ext_find (hsorted records hmem) fun id => ?_
  rw [leafFind_unionOf hsorted]
  have hcases : ∀ held ∈ recs, leafFind held id = none ∨ leafFind held id = leafFind records id := by
    intro held hheld
    by_cases hnil : held = []
    · rw [hnil]
      exact .inl rfl
    · exact .inr (by rw [h held hheld records hmem hnil hne])
  cases hfind : leafFind records id with
  | none =>
    rw [findSome?_eq_none_iff]
    intro held hheld
    rcases hcases held hheld with hnone | hsame
    · exact hnone
    · exact hsame.trans hfind
  | some value =>
    have hsome : (recs.findSome? fun records => leafFind records id).isSome = true := by
      rw [findSome?_isSome_iff]
      exact ⟨records, hmem, by rw [hfind]; rfl⟩
    obtain ⟨found, hfound⟩ := Option.isSome_iff_exists.1 hsome
    obtain ⟨held, hheld, hvalue⟩ := exists_of_findSome?_eq_some hfound
    rcases hcases held hheld with hnone | hsame
    · rw [hnone] at hvalue
      cases hvalue
    · rw [hfound, ← hvalue, hsame, hfind]

end

/-! ## Nodes of a union -/

/-- A node of a union that is not interior, for the parts' records at its prefix. -/
def PlainNode (sha256 : HashInput → Hash256) (level : Nat) (recs : List (List TrieRecord)) :
    Option UnionNode → Prop
  | none => ∀ records ∈ recs, records = []
  | some (.whole inputs summary part) =>
    inputs = recs.map (summaryOf sha256 level) ∧ summary = summaryOf sha256 level (unionOf recs) ∧
      Alike recs ∧ recs[part]? = some (unionOf recs)
  | some (.leaf inputs summary) =>
    inputs = recs.map (summaryOf sha256 level) ∧ summary = summaryOf sha256 level (unionOf recs) ∧
      ¬ Alike recs ∧ (unionOf recs).length ≤ leafMax ∧ Calm recs
  | some (.interior _ _ _) => False

/-- A node of a union, for the parts' records at its prefix. -/
def NodeOk (sha256 : HashInput → Hash256) :
    Nat → TriePrefix → List (List TrieRecord) → Option UnionNode → Prop
  | 0, _, recs, node => PlainNode sha256 0 recs node
  | level + 1, path, recs, some (.interior inputs summary under) =>
    inputs = recs.map (summaryOf sha256 (level + 1)) ∧
      summary = summaryOf sha256 (level + 1) (unionOf recs) ∧
      leafMax < (unionOf recs).length ∧
      ∀ x, NodeOk sha256 level (path ++ [x]) (recs.map (below (path ++ [x]))) (under x)
  | level + 1, _, recs, node => PlainNode sha256 (level + 1) recs node

def PartsPlaced (path : TriePrefix) (level : Nat) (recs : List (List TrieRecord)) : Prop :=
  ∀ records ∈ recs, Placed path level records

section

variable {sha256 : HashInput → Hash256} {level : Nat} {path : TriePrefix}
  {recs others : List (List TrieRecord)} {node : Option UnionNode}

theorem PartsPlaced.sorted (h : PartsPlaced path level recs) : AllSorted recs :=
  fun records hrecords => (h records hrecords).sorted

theorem PartsPlaced.slot (h : PartsPlaced path (level + 1) recs) (x : Fin 256) :
    PartsPlaced (path ++ [x]) level (recs.map (below (path ++ [x]))) := by
  intro records hrecords
  obtain ⟨held, hheld, rfl⟩ := List.mem_map.1 hrecords
  have hplaced := h held hheld
  have hslot := hplaced.child x
  rw [hplaced.depth, ← below_eq_self hplaced.below, ← below_concat hplaced.short] at hslot
  exact hslot

theorem partsPlaced_below (h : AllSorted recs) (hdeep : path.length + level = 32) :
    PartsPlaced path level (recs.map (below path)) := by
  intro records hrecords
  obtain ⟨held, hheld, rfl⟩ := List.mem_map.1 hrecords
  exact ⟨(h held hheld).below path, allBelow_below path held, hdeep⟩

theorem eq_of_inputs_eq (hinj : Function.Injective sha256) (h : PartsPlaced path level recs)
    (h' : PartsPlaced path level others)
    (heq : recs.map (summaryOf sha256 level) = others.map (summaryOf sha256 level)) :
    recs = others := by
  induction recs generalizing others with
  | nil =>
    exact (map_eq_nil_iff.1 heq.symm).symm
  | cons records recs ih =>
    cases others with
    | nil => cases heq
    | cons other others =>
      rw [map_cons, map_cons, List.cons.injEq] at heq
      have hplaced := h records mem_cons_self
      have hother := h' other mem_cons_self
      rw [eq_of_summaryOf_eq hinj hplaced.deep hplaced.sorted hplaced.below hother.sorted
        hother.below heq.1, ih (fun r hr => h r (mem_cons_of_mem _ hr))
        (fun r hr => h' r (mem_cons_of_mem _ hr)) heq.2]

theorem unionOf_eq_nil (h : ∀ records ∈ recs, records = []) : unionOf recs = [] := by
  induction recs using reverseRecOn with
  | nil => rfl
  | append_singleton recs records ih =>
    rw [unionOf_concat, ih fun r hr => h r (mem_append_left _ hr),
      h records (mem_append_right _ (mem_singleton.2 rfl)), mergeRecords_nil]

theorem PlainNode.inputs_eq {node : UnionNode} (h : PlainNode sha256 level recs (some node)) :
    node.inputs = recs.map (summaryOf sha256 level) := by
  cases node with
  | whole inputs summary part => exact h.1
  | leaf inputs summary => exact h.1
  | interior inputs summary under => exact h.elim

theorem PlainNode.summary_eq (h : PlainNode sha256 level recs node) :
    nodeSummary node = summaryOf sha256 level (unionOf recs) := by
  cases node with
  | none =>
    rw [unionOf_eq_nil h, summaryOf_nil]
    rfl
  | some node =>
    cases node with
    | whole inputs summary part => exact h.2.1
    | leaf inputs summary => exact h.2.1
    | interior inputs summary under => exact h.elim

theorem PlainNode.calm (h : PlainNode sha256 level recs node) : Calm recs := by
  cases node with
  | none =>
    refine Alike.calm fun records hrecords _ _ hne _ => ?_
    exact (hne (h records hrecords)).elim
  | some node =>
    cases node with
    | whole inputs summary part => exact h.2.2.1.calm
    | leaf inputs summary => exact h.2.2.2.2
    | interior inputs summary under => exact h.elim

/-- A node is interior, or plain. -/
theorem NodeOk.plain_or (h : NodeOk sha256 level path recs node) :
    PlainNode sha256 level recs node ∨ ∃ lower inputs summary under, level = lower + 1 ∧
      node = some (.interior inputs summary under) := by
  cases level with
  | zero => exact .inl h
  | succ level =>
    cases node with
    | none => exact .inl h
    | some node =>
      cases node with
      | whole inputs summary part => exact .inl h
      | leaf inputs summary => exact .inl h
      | interior inputs summary under => exact .inr ⟨level, inputs, summary, under, rfl, rfl⟩

theorem NodeOk.inputs_eq {node : UnionNode} (h : NodeOk sha256 level path recs (some node)) :
    node.inputs = recs.map (summaryOf sha256 level) := by
  rcases h.plain_or with hplain | ⟨lower, inputs, summary, under, rfl, hnode⟩
  · exact hplain.inputs_eq
  · cases hnode
    exact h.1

theorem NodeOk.summary_eq (h : NodeOk sha256 level path recs node) :
    nodeSummary node = summaryOf sha256 level (unionOf recs) := by
  rcases h.plain_or with hplain | ⟨lower, inputs, summary, under, rfl, rfl⟩
  · exact hplain.summary_eq
  · exact h.2.1

theorem NodeOk.calm (h : NodeOk sha256 level path recs node) (hplaced : PartsPlaced path level recs)
    (hdeep : path.length + level = 32) : Calm recs := by
  induction level generalizing path recs node with
  | zero => exact PlainNode.calm h
  | succ level ih =>
    rcases h.plain_or with hplain | ⟨lower, inputs, summary, under, hlevel, rfl⟩
    · exact hplain.calm
    · refine calm_of_slots hplaced.sorted (by omega)
        (fun records hrecords => (hplaced records hrecords).below) fun x => ?_
      refine ih (h.2.2.2 x) (hplaced.slot x) ?_
      rw [length_append, length_singleton]
      omega

/-- A hint: nothing, or a node of a union at the same prefix. -/
def HintOk (sha256 : HashInput → Hash256) (level : Nat) (path : TriePrefix)
    (hint : Option UnionNode) : Prop :=
  hint = none ∨ ∃ recs, PartsPlaced path level recs ∧ NodeOk sha256 level path recs hint

theorem HintOk.slot {hint : Option UnionNode} (h : HintOk sha256 (level + 1) path hint)
    (x : Fin 256) : HintOk sha256 level (path ++ [x]) (hintBelow hint x) := by
  rcases h with rfl | ⟨recs, hplaced, hok⟩
  · exact .inl rfl
  · cases hint with
    | none => exact .inl rfl
    | some node =>
      cases node with
      | whole inputs summary part => exact .inl rfl
      | leaf inputs summary => exact .inl rfl
      | interior inputs summary under => exact .inr ⟨_, hplaced.slot x, hok.2.2.2 x⟩

/-- What a merge gives: the node where the parts are calm, and nothing elsewhere. -/
structure MergeSpec (sha256 : HashInput → Hash256) (level : Nat) (path : TriePrefix)
    (recs : List (List TrieRecord)) (result : Option (Option UnionNode)) : Prop where
  made : Calm recs → ∃ node, result = some node ∧ NodeOk sha256 level path recs node
  thrown : ¬ Calm recs → result = none

theorem mergeSpec_of_node {result : Option (Option UnionNode)} (hcalm : Calm recs)
    (hresult : result = some node) (h : NodeOk sha256 level path recs node) :
    MergeSpec sha256 level path recs result :=
  ⟨fun _ => ⟨node, hresult, h⟩, fun hnot => (hnot hcalm).elim⟩

end

section

variable {sha256 : HashInput → Hash256} {level : Nat} {path : TriePrefix}
  {parts : List ObjectTrie} {full recs : List (List TrieRecord)} {hint : Option UnionNode}

theorem below_below {path other : TriePrefix} (h : path <+: other) (records : List TrieRecord) :
    below other (below path records) = below other records := by
  unfold below
  rw [List.filter_filter]
  refine filter_congr fun record _ => ?_
  by_cases hcover : covers other record.1 = true
  · have hshort := covers_iff.2 (h.trans (covers_iff.1 hcover))
    rw [hcover, hshort]
    rfl
  · have hnot : covers other record.1 = false := by simpa using hcover
    rw [hnot]
    rfl

theorem slots_eq (full : List (List TrieRecord)) (path : TriePrefix) (x : Fin 256) :
    (full.map (below path)).map (below (path ++ [x])) = full.map (below (path ++ [x])) := by
  rw [List.map_map]
  refine map_congr_left fun records _ => ?_
  exact below_below (prefix_append path [x]) records

theorem hint_ok (hinj : Function.Injective sha256) (hhint : HintOk sha256 level path hint)
    (hplaced : PartsPlaced path level recs)
    (h : (hint.any fun node => decide (node.inputs = recs.map (summaryOf sha256 level))) = true) :
    NodeOk sha256 level path recs hint := by
  obtain ⟨node, rfl, hinputs⟩ := (Option.any_eq_true _ _).1 h
  have hinputs := of_decide_eq_true hinputs
  rcases hhint with hnone | ⟨others, hothers, hok⟩
  · cases hnone
  · rw [hok.inputs_eq] at hinputs
    rw [← eq_of_inputs_eq hinj hothers hplaced hinputs]
    exact hok

variable {records : List TrieRecord} {lower : Nat}
  {recurse : TriePrefix → List Summary → Option UnionNode → Option (Option UnionNode)}

section

variable (hplaced : PartsPlaced path level recs)

include hplaced

theorem count_inputs (h : records ∈ recs) :
    (summaryOf sha256 level records).count = records.length :=
  (hplaced records h).count sha256

theorem totalCount_eq :
    totalCount (recs.map (summaryOf sha256 level)) = (recs.map List.length).sum := by
  rw [totalCount, List.map_map]
  congr 1
  exact map_congr_left fun records hrecords => count_inputs hplaced hrecords

theorem nil_of_firstHeld (h : firstHeld (recs.map (summaryOf sha256 level)) = none) :
    ∀ records ∈ recs, records = [] := by
  intro records hrecords
  have hzero := findIdx?_eq_none_iff.1 h _ (List.mem_map_of_mem hrecords)
  rw [count_inputs hplaced hrecords] at hzero
  simpa using hzero

omit hplaced in
theorem exists_of_firstHeld {first : Nat}
    (h : firstHeld (recs.map (summaryOf sha256 level)) = some first) :
    ∃ records, recs[first]? = some records ∧ records ≠ [] ∧
      (recs.map (summaryOf sha256 level)).getD first {} = summaryOf sha256 level records := by
  obtain ⟨hlt, hcount, -⟩ := findIdx?_eq_some_iff_getElem.1 h
  rw [length_map] at hlt
  have hget : recs[first]? = some recs[first] := getElem?_eq_getElem hlt
  refine ⟨recs[first], hget, ?_, ?_⟩
  · intro hnil
    rw [getElem_map, hnil] at hcount
    simp at hcount
  · rw [getD_eq_getElem?_getD, List.getElem?_map, hget]
    rfl

omit hplaced in
theorem heldAlike_iff (hinj : Function.Injective sha256) (hplaced : PartsPlaced path level recs)
    {first : Nat} (hget : recs[first]? = some records) (hne : records ≠ [])
    (hfirst : (recs.map (summaryOf sha256 level)).getD first {} = summaryOf sha256 level records) :
    heldAlike (recs.map (summaryOf sha256 level)) first = true ↔ Alike recs := by
  have hmem : records ∈ recs := mem_of_getElem? hget
  have hheld : heldAlike (recs.map (summaryOf sha256 level)) first = true ↔
      ∀ others ∈ recs, others = [] ∨ others = records := by
    rw [heldAlike, List.all_eq_true, hfirst]
    rw [List.forall_mem_map]
    refine forall_congr' fun others => forall_congr' fun hothers => ?_
    have hplaced' := hplaced records hmem
    have hother := hplaced others hothers
    rw [Bool.or_eq_true, decide_eq_true_iff, decide_eq_true_iff, count_inputs hplaced hothers,
      length_eq_zero_iff]
    refine or_congr_right ⟨fun heq => ?_, fun heq => by rw [heq]⟩
    exact eq_of_summaryOf_eq hinj hother.deep hother.sorted hother.below hplaced'.sorted
      hplaced'.below heq
  rw [hheld]
  constructor
  · intro hall a ha b hb hna hnb
    rw [(hall a ha).resolve_left hna, (hall b hb).resolve_left hnb]
  · intro halike others hothers
    by_cases hnil : others = []
    · exact .inl hnil
    · exact .inr (halike others hothers records hmem hnil hne)

theorem unionOf_placed (hdeep : path.length + level = 32) : Placed path level (unionOf recs) := by
  have hsorted := hplaced.sorted
  have hself : recs.map (below path) = recs := by
    conv_rhs => rw [← List.map_id recs]
    exact map_congr_left fun records hrecords => below_eq_self (hplaced records hrecords).below
  have hbelow := below_unionOf hsorted path
  rw [hself] at hbelow
  refine ⟨sorted_unionOf hsorted, ?_, hdeep⟩
  rw [← hbelow]
  exact allBelow_below path _

end

section

variable (hparts : PartsHold sha256 parts full)

include hparts

theorem mergeLeaf_eq (hrecs : recs = full.map (below path)) (hfew : (unionOf recs).length ≤ leafMax)
    (inputs : List Summary) : mergeLeaf sha256 parts path inputs =
      some (some (.leaf inputs (summaryOf sha256 level (unionOf recs)))) := by
  have hlimit : leafMax ≤ noLimit := by decide
  have hmerged : mergedRecords sha256 parts path noLimit = some (unionOf recs) := by
    rw [hrecs] at hfew ⊢
    rw [mergedRecords_of_few hparts (.inl hfew), if_pos (hfew.trans hlimit)]
  rw [mergeLeaf, hmerged, summaryOf_leaf hfew]
  rfl

theorem partChildren_eq (hshort : path.length < 32) (hdeep : path.length + level = 32) :
    partChildren sha256 parts ((full.map (below path)).map (summaryOf sha256 level)) path =
      some (full.map fun records x =>
        summaryOf sha256 (31 - path.length) (below (path ++ [x]) records)) := by
  induction hparts with
  | nil => rfl
  | @cons part records parts full hpart hparts ih =>
    have hplaced : Placed path level (below path records) :=
      ⟨hpart.sorted.below path, allBelow_below path records, hdeep⟩
    have hhead : (if (summaryOf sha256 level (below path records)).count = 0 then
        some fun _ => {} else part.children sha256 path) =
        some fun x => summaryOf sha256 (31 - path.length) (below (path ++ [x]) records) := by
      by_cases hzero : (summaryOf sha256 level (below path records)).count = 0
      · rw [if_pos hzero]
        rw [hplaced.count, length_eq_zero_iff] at hzero
        congr 1
        funext x
        rw [below_concat hshort, hzero]
        exact (summaryOf_nil _).symm
      · rw [if_neg hzero]
        exact children_canon hpart.sorted hpart.canon hshort
    unfold partChildren at ih ⊢
    rw [map_cons, map_cons, zip_cons_cons, mapM_cons]
    show (if (summaryOf sha256 level (below path records)).count = 0 then
        some fun _ => {} else part.children sha256 path).bind _ = _
    rw [hhead, Option.bind_some, ih]
    rfl

theorem partChildren_whole (hwhole : path.length = 32) (hmem : records ∈ full)
    (hne : below path records ≠ []) :
    partChildren sha256 parts ((full.map (below path)).map (summaryOf sha256 0)) path = none := by
  induction hparts with
  | nil => cases hmem
  | @cons part held parts full hpart hparts ih =>
    unfold partChildren at ih ⊢
    rw [map_cons, map_cons, zip_cons_cons, mapM_cons]
    rcases mem_cons.1 hmem with rfl | hmem
    · have hcount : (summaryOf sha256 0 (below path records)).count ≠ 0 := by
        show (below path records).length ≠ 0
        simpa using hne
      have hheld : records.length ≠ 0 := by
        intro hzero
        rw [length_eq_zero_iff.1 hzero] at hne
        exact hne rfl
      have hnone : part.children sha256 path = none := by
        rw [hpart.children, if_neg hheld, if_neg (by omega)]
      show (if (summaryOf sha256 0 (below path records)).count = 0 then
        some fun _ => {} else part.children sha256 path).bind _ = _
      rw [if_neg hcount, hnone]
      rfl
    · rw [ih hmem]
      exact Option.bind_fun_none _

end

theorem sum_le_countP {id : LedgerId}
    (h : ∀ records ∈ recs, records = [] ∨ ∃ value, records = [(id, value)]) :
    (recs.map List.length).sum ≤ recs.countP fun records => (leafFind records id).isSome := by
  induction recs with
  | nil => exact le_rfl
  | cons records recs ih =>
    have hrest := ih fun r hr => h r (mem_cons_of_mem _ hr)
    rw [map_cons, sum_cons, countP_cons]
    rcases h records mem_cons_self with rfl | ⟨value, rfl⟩
    · rw [length_nil, Nat.zero_add]
      exact hrest.trans (Nat.le_add_right _ _)
    · have hfind : leafFind [(id, value)] id = some value := by simp [leafFind]
      rw [hfind, Option.isSome_some, if_pos rfl, length_singleton]
      omega

theorem not_calm_of_whole (hplaced : PartsPlaced path 0 recs) (hnot : ¬ Alike recs)
    (hmany : leafMax < (recs.map List.length).sum) : ¬ Calm recs := by
  have hone records (h : records ∈ recs) (hne : records ≠ []) :
      ∃ record : TrieRecord, records = [record] ∧ record.1.val = path := by
    have hlength := (hplaced records h).length_le_one
    obtain ⟨record, rfl⟩ : ∃ record, records = [record] := by
      refine length_eq_one_iff.1 (le_antisymm hlength ?_)
      exact length_pos_iff.2 hne
    have hcover := (hplaced [record] h).below record mem_cons_self
    refine ⟨record, rfl, (hcover.eq_of_length ?_).symm⟩
    have := (hplaced [record] h).deep
    rw [record.1.property]
    omega
  have hdiffer : ∃ records ∈ recs, ∃ others ∈ recs, records ≠ [] ∧ others ≠ [] ∧
      records ≠ others := by
    by_contra hnone
    refine hnot fun records hrecords others hothers hne hne' => ?_
    by_contra hdiff
    exact hnone ⟨records, hrecords, others, hothers, hne, hne', hdiff⟩
  obtain ⟨records, hrecords, others, hothers, hne, hne', hdiff⟩ := hdiffer
  obtain ⟨⟨id, value⟩, rfl, hid⟩ := hone records hrecords hne
  obtain ⟨⟨id', other⟩, rfl, hid'⟩ := hone others hothers hne'
  have hsame : id' = id := Subtype.ext (hid'.trans hid.symm)
  subst hsame
  intro hcalm
  rcases hcalm id' with hcount | hvalues
  · have hshape : ∀ held ∈ recs, held = [] ∨ ∃ value, held = [(id', value)] := by
      intro held hheld
      by_cases hnil : held = []
      · exact .inl hnil
      · obtain ⟨⟨id, v⟩, rfl, hv⟩ := hone held hheld hnil
        have hsame : id = id' := Subtype.ext (hv.trans hid'.symm)
        exact .inr ⟨v, by rw [hsame]⟩
    have hsum := sum_le_countP hshape
    omega
  · have heq := hvalues _ hrecords _ hothers value other (by simp [leafFind]) (by simp [leafFind])
    exact hdiff (by rw [heq])

theorem nodeOk_of_plain {node : Option UnionNode} (h : PlainNode sha256 level recs node) :
    NodeOk sha256 level path recs node := by
  cases level with
  | zero => exact h
  | succ level =>
    cases node with
    | none => exact h
    | some node =>
      cases node with
      | whole inputs summary part => exact h
      | leaf inputs summary => exact h
      | interior inputs summary under => exact h.elim

/-- The slots worked out: each made where it is calm, none made where one is not. -/
theorem mergeSlots_spec {make : Fin 256 → Option (Option UnionNode)}
    {groups : Fin 256 → List (List TrieRecord)}
    (h : ∀ x, MergeSpec sha256 lower (path ++ [x]) (groups x) (make x)) :
    ((∀ x, Calm (groups x)) → ∃ nodes, mergeSlots make = some nodes ∧
      ∀ x, NodeOk sha256 lower (path ++ [x]) (groups x) (nodes x)) ∧
    ((∃ x, ¬ Calm (groups x)) → mergeSlots make = none) := by
  constructor
  · intro hcalm
    choose nodes hmake hok using fun x => (h x).made (hcalm x)
    refine ⟨nodes, ?_, hok⟩
    exact foldlM_update_eq hmake _ _ fun x hx => (hx (mem_finRange x)).elim
  · rintro ⟨x, hx⟩
    exact foldlM_update_none ((h x).thrown hx) (mem_finRange x) _

section

variable (hinj : Function.Injective sha256) (hparts : PartsHold sha256 parts full)
  (hrecs : recs = full.map (below path)) (hnot : ¬ Alike recs)

include hparts hrecs

include hnot in
theorem mergeLeaf_spec (hfew : (unionOf recs).length ≤ leafMax) (hcalm : Calm recs) :
    MergeSpec sha256 level path recs
      (mergeLeaf sha256 parts path (recs.map (summaryOf sha256 level))) :=
  mergeSpec_of_node hcalm (mergeLeaf_eq hparts hrecs hfew _)
    (nodeOk_of_plain ⟨rfl, rfl, hnot, hfew, hcalm⟩)

include hnot in
theorem mergeInterior_spec {nodes : Fin 256 → Option UnionNode}
    (hdeep : path.length + (lower + 1) = 32) (hcalm : Calm recs)
    (hok : ∀ x, NodeOk sha256 lower (path ++ [x]) (recs.map (below (path ++ [x]))) (nodes x)) :
    MergeSpec sha256 (lower + 1) path recs
      (mergeInterior sha256 parts path (recs.map (summaryOf sha256 (lower + 1))) nodes) := by
  have hplaced : PartsPlaced path (lower + 1) recs :=
    hrecs ▸ partsPlaced_below (allSorted_of_hold hparts) hdeep
  have hunion := unionOf_placed hplaced hdeep
  have hslot x : nodeSummary (nodes x) =
      summaryOf sha256 lower (ofKey (slot (31 - lower)) x (unionOf recs)) := by
    rw [(hok x).summary_eq, ← below_unionOf hplaced.sorted, hunion.depth,
      below_concat hunion.short, below_eq_self hunion.below]
  have hsum : ((finRange 256).map fun x => (nodeSummary (nodes x)).count).sum =
      (unionOf recs).length := by
    have hcounts : ((finRange 256).map fun x => (nodeSummary (nodes x)).count) =
        (finRange 256).map fun x => (ofKey (slot path.length) x (unionOf recs)).length := by
      refine map_congr_left fun x _ => ?_
      rw [hslot, (hunion.child x).count, hunion.depth]
    rw [hcounts]
    exact sum_slots hunion.sorted hunion.below hunion.short
  by_cases hmany : leafMax < (unionOf recs).length
  · have hmade : mergeInterior sha256 parts path (recs.map (summaryOf sha256 (lower + 1))) nodes =
        some (some (.interior (recs.map (summaryOf sha256 (lower + 1)))
          (interiorSummary sha256 fun x => nodeSummary (nodes x)) nodes)) := by
      rw [mergeInterior, if_pos (hsum ▸ hmany)]
    refine mergeSpec_of_node hcalm hmade ⟨rfl, ?_, hmany, hok⟩
    rw [summaryOf_interior hmany]
    exact congrArg (interiorSummary sha256) (funext hslot)
  · have hleaf : mergeInterior sha256 parts path (recs.map (summaryOf sha256 (lower + 1))) nodes =
        mergeLeaf sha256 parts path (recs.map (summaryOf sha256 (lower + 1))) := by
      rw [mergeInterior, if_neg (hsum ▸ hmany)]
    rw [hleaf]
    exact mergeLeaf_spec hparts hrecs hnot (not_lt.1 hmany) hcalm

include hnot in
theorem mergeBelow_spec (hdeep : path.length + (lower + 1) = 32)
    (hrecurse : ∀ x, MergeSpec sha256 lower (path ++ [x]) (full.map (below (path ++ [x])))
      (recurse (path ++ [x]) ((full.map (below (path ++ [x]))).map (summaryOf sha256 lower))
        (hintBelow hint x))) :
    MergeSpec sha256 (lower + 1) path recs (do
      let below ← partChildren sha256 parts (recs.map (summaryOf sha256 (lower + 1))) path
      let nodes ← mergeSlots fun x =>
        recurse (path ++ [x]) (below.map fun slots => slots x) (hintBelow hint x)
      mergeInterior sha256 parts path (recs.map (summaryOf sha256 (lower + 1))) nodes) := by
  have hfull := allSorted_of_hold hparts
  have hplaced : PartsPlaced path (lower + 1) recs := hrecs ▸ partsPlaced_below hfull hdeep
  have hlevel : 31 - path.length = lower := by omega
  have hchildren : partChildren sha256 parts (recs.map (summaryOf sha256 (lower + 1))) path =
      some (full.map fun records x => summaryOf sha256 lower (below (path ++ [x]) records)) := by
    rw [hrecs, partChildren_eq hparts (by omega) hdeep, hlevel]
  have hinputs x :
      ((full.map fun records x => summaryOf sha256 lower (below (path ++ [x]) records)).map
        fun slots => slots x) = (full.map (below (path ++ [x]))).map (summaryOf sha256 lower) := by
    rw [List.map_map, List.map_map]
    rfl
  have hgroups x : recs.map (below (path ++ [x])) = full.map (below (path ++ [x])) := by
    rw [hrecs, slots_eq]
  obtain ⟨hmade, hthrown⟩ := mergeSlots_spec hrecurse
  rw [hchildren, Option.bind_eq_bind, Option.bind_some]
  simp only [hinputs]
  by_cases hall : ∀ x, Calm (full.map (below (path ++ [x])))
  · obtain ⟨nodes, hnodes, hok⟩ := hmade hall
    have hcalm : Calm recs := by
      refine calm_of_slots hplaced.sorted (by omega)
        (fun records hrecords => (hplaced records hrecords).below) fun x => ?_
      rw [hgroups]
      exact hall x
    rw [hnodes, Option.bind_eq_bind, Option.bind_some]
    refine mergeInterior_spec hparts hrecs hnot hdeep hcalm fun x => ?_
    rw [hgroups]
    exact hok x
  · obtain ⟨x, hx⟩ := not_forall.1 hall
    rw [hthrown ⟨x, hx⟩]
    refine ⟨fun hcalm => (hx ?_).elim, fun _ => rfl⟩
    rw [← hgroups]
    exact calm_below hplaced.sorted hcalm _

include hinj

theorem mergeNode_spec (hdeep : path.length + level = 32)
    (hhint : HintOk sha256 level path hint)
    (hrecurse : ∀ lower, level = lower + 1 → ∀ x, MergeSpec sha256 lower (path ++ [x])
      (full.map (below (path ++ [x])))
      (recurse (path ++ [x]) ((full.map (below (path ++ [x]))).map (summaryOf sha256 lower))
        (hintBelow hint x))) :
    MergeSpec sha256 level path recs
      (mergeNode sha256 parts recurse path (recs.map (summaryOf sha256 level)) hint) := by
  have hfull := allSorted_of_hold hparts
  have hplaced : PartsPlaced path level recs := hrecs ▸ partsPlaced_below hfull hdeep
  by_cases hreused : (hint.any fun node =>
      decide (node.inputs = recs.map (summaryOf sha256 level))) = true
  · have hok := hint_ok hinj hhint hplaced hreused
    exact mergeSpec_of_node (hok.calm hplaced hdeep) (if_pos hreused) hok
  rw [mergeNode, if_neg hreused]
  cases hfirst : firstHeld (recs.map (summaryOf sha256 level)) with
  | none =>
    have hplain : PlainNode sha256 level recs none := nil_of_firstHeld hplaced hfirst
    exact mergeSpec_of_node hplain.calm rfl (nodeOk_of_plain hplain)
  | some first =>
    obtain ⟨records, hget, hne, hsummary⟩ := exists_of_firstHeld hfirst
    have hmem := mem_of_getElem? hget
    have halike := heldAlike_iff hinj hplaced hget hne hsummary
    show MergeSpec sha256 level path recs
      (if heldAlike (recs.map (summaryOf sha256 level)) first = true then _ else _)
    by_cases hheld : heldAlike (recs.map (summaryOf sha256 level)) first = true
    · have hsame := (halike.1 hheld).unionOf_eq hplaced.sorted hmem hne
      rw [if_pos hheld, hsummary]
      refine mergeSpec_of_node (halike.1 hheld).calm rfl (nodeOk_of_plain
        ⟨rfl, by rw [hsame], halike.1 hheld, by rw [hsame]; exact hget⟩)
    have hnot : ¬ Alike recs := fun h => hheld (halike.2 h)
    rw [if_neg hheld, totalCount_eq hplaced]
    by_cases hfew : (recs.map List.length).sum ≤ leafMax
    · rw [if_pos hfew]
      exact mergeLeaf_spec hparts hrecs hnot ((length_unionOf_le hplaced.sorted).trans hfew)
        (calm_of_few hfew)
    rw [if_neg hfew]
    cases level with
    | zero =>
      have hnone : partChildren sha256 parts (recs.map (summaryOf sha256 0)) path = none := by
        rw [hrecs] at hmem ⊢
        obtain ⟨held, hheld, rfl⟩ := List.mem_map.1 hmem
        exact partChildren_whole hparts hdeep hheld hne
      refine ⟨fun hcalm => ?_, fun _ => ?_⟩
      · exact (not_calm_of_whole hplaced hnot (not_le.1 hfew) hcalm).elim
      · rw [hnone]
        rfl
    | succ lower => exact mergeBelow_spec hparts hrecs hnot hdeep (hrecurse lower rfl)

omit hrecs in
theorem merge_spec (hdeep : path.length + level = 32) (hhint : HintOk sha256 level path hint) :
    MergeSpec sha256 level path (full.map (below path))
      (merge sha256 parts level path ((full.map (below path)).map (summaryOf sha256 level))
        hint) := by
  induction level generalizing path hint with
  | zero =>
    refine mergeNode_spec hinj hparts rfl hdeep hhint fun lower hlower => ?_
    cases hlower
  | succ level ih =>
    refine mergeNode_spec hinj hparts rfl hdeep hhint fun lower hlower x => ?_
    cases hlower
    refine ih ?_ (hhint.slot x)
    rw [length_append, length_singleton]
    omega

end

end

end Trie

end Macha
