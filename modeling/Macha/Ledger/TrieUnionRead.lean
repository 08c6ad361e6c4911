import Macha.Ledger.TrieUnionMerge

/-!
# A union reads as one trie

A union answers as the trie built of the union of its parts' records: its root,
the summaries a byte below a prefix, the records below a prefix and the value of
an id.
-/

namespace Macha

open List

namespace Trie

/-! ## Finding a node -/

/-- The node of a union a prefix falls in, and where it sits. -/
structure Found (sha256 : HashInput → Hash256) (full : List (List TrieRecord)) (path : TriePrefix)
    (node : Option UnionNode) (stop : TriePrefix) : Prop where
  covers : stop <+: path
  ok : NodeOk sha256 (32 - stop.length) stop (full.map (below stop)) node
  interior : ∀ inputs summary under, node = some (.interior inputs summary under) → stop = path
  above : ∀ other, other <+: stop → other ≠ stop →
    leafMax < (unionOf (full.map (below other))).length

section

variable {sha256 : HashInput → Hash256} {parts : List ObjectTrie} {full : List (List TrieRecord)}
  {node : Option UnionNode} {level : Nat} {records : List TrieRecord}

theorem find_ok {here : TriePrefix} (rest : TriePrefix)
    (h : NodeOk sha256 level here (full.map (below here)) node) (hdeep : here.length + level = 32)
    (hlength : (here ++ rest).length ≤ 32) (habove : ∀ other, other <+: here → other ≠ here →
      leafMax < (unionOf (full.map (below other))).length) :
    ∃ stop, Found sha256 full (here ++ rest) (findUnionNode node rest) stop := by
  induction rest generalizing level here node with
  | nil =>
    have hlevel : 32 - here.length = level := by omega
    have hnode : findUnionNode node [] = node := by
      cases node with
      | none => rfl
      | some node => cases node <;> rfl
    rw [hnode, append_nil]
    exact ⟨here, prefix_rfl, hlevel ▸ h, fun _ _ _ _ => rfl, habove⟩
  | cons x rest ih =>
    have hlevel : 32 - here.length = level := by omega
    have hstay (hnode : findUnionNode node (x :: rest) = node)
        (hplain : ∀ inputs summary under, node ≠ some (.interior inputs summary under)) :
        ∃ stop, Found sha256 full (here ++ x :: rest) (findUnionNode node (x :: rest)) stop := by
      rw [hnode]
      exact ⟨here, prefix_append _ _, hlevel ▸ h,
        fun inputs summary under heq => (hplain inputs summary under heq).elim, habove⟩
    cases node with
    | none => exact hstay rfl (by simp)
    | some node =>
      cases node with
      | whole inputs summary part => exact hstay rfl (by simp)
      | leaf inputs summary => exact hstay rfl (by simp)
      | interior inputs summary under =>
        cases level with
        | zero => exact h.elim
        | succ level =>
          obtain ⟨-, -, hmany, hslots⟩ := h
          have hslot := hslots x
          rw [slots_eq] at hslot
          have hnext : (here ++ [x]).length + level = 32 := by
            rw [length_append, length_singleton]
            omega
          have hsame : here ++ x :: rest = here ++ [x] ++ rest := by simp
          rw [hsame] at hlength ⊢
          refine ih hslot hnext hlength fun other hother hne => ?_
          have hshort := (prefix_concat_iff.1 hother).resolve_left hne
          by_cases hhere : other = here
          · rw [hhere]
            exact hmany
          · exact habove other hshort hhere

/-! ## Reading below a prefix -/

theorem getD_part (hparts : PartsHold sha256 parts full) {i : Nat} (h : full[i]? = some records) :
    (parts.getD i {}).Holds sha256 records := by
  obtain ⟨hi, rfl⟩ := List.getElem?_eq_some_iff.1 h
  have hlength := hparts.length_eq
  have hip : i < parts.length := by omega
  rw [getD_eq_getElem?_getD, getElem?_eq_getElem hip]
  exact (List.forall₂_iff_get.1 hparts).2 i hip hi

variable {stop path : TriePrefix} {recs : List (List TrieRecord)}

theorem below_of_whole (hsorted : AllSorted full) (h : stop <+: path)
    (hsame : below stop records = unionOf (full.map (below stop))) :
    below path records = below path (unionOf full) := by
  rw [← below_below h records, hsame, ← below_unionOf hsorted, below_below h]

theorem length_below_le_stop (hsorted : AllSorted full) (h : stop <+: path) :
    (below path (unionOf full)).length ≤ (unionOf (full.map (below stop))).length := by
  rw [← below_unionOf hsorted, ← below_below h]
  exact length_filter_le _ _

theorem nodeChildren_eq {node root : Option UnionNode} (hparts : PartsHold sha256 parts full)
    (hshort : path.length < 32) (h : Found sha256 full path node stop) :
    TrieUnion.nodeChildren sha256 ⟨parts, root⟩ path node =
      some fun x => summaryOf sha256 (31 - path.length) (below (path ++ [x]) (unionOf full)) := by
  have hsorted := allSorted_of_hold hparts
  have hstop := h.covers.length_le
  obtain ⟨level, hlevel⟩ : ∃ level, 32 - stop.length = level + 1 := ⟨31 - stop.length, by omega⟩
  have hok := h.ok
  rw [hlevel] at hok
  have hlonger x : stop <+: path ++ [x] := h.covers.trans (prefix_append _ _)
  cases node with
  | none =>
    have hnil := unionOf_eq_nil hok
    refine congrArg some (funext fun x => ?_)
    rw [← below_below (hlonger x), below_unionOf hsorted, hnil]
    exact (summaryOf_nil _).symm
  | some node =>
    cases node with
    | whole inputs summary part =>
      obtain ⟨-, -, -, hget⟩ := hok
      rw [List.getElem?_map] at hget
      obtain ⟨records, hrecords, hsame⟩ := Option.map_eq_some_iff.1 hget
      have hpart := getD_part hparts hrecords
      refine (children_canon hpart.sorted hpart.canon hshort).trans ?_
      congr 1
      funext x
      rw [below_of_whole hsorted (hlonger x) hsame]
    | leaf inputs summary =>
      obtain ⟨-, -, -, hfew, -⟩ := hok
      have hbelow := below_unionOf hsorted path
      have hleaf : (below path (unionOf full)).length ≤ leafMax :=
        (length_below_le_stop hsorted h.covers).trans hfew
      have hlimit : leafMax ≤ noLimit := by decide
      have hmerged : mergedRecords sha256 parts path noLimit =
          some (below path (unionOf full)) := by
        rw [hbelow] at hleaf ⊢
        rw [mergedRecords_of_few hparts (.inl hleaf), if_pos (hleaf.trans hlimit)]
      show (mergedRecords sha256 parts path noLimit).bind _ = _
      rw [hmerged, Option.bind_some]
      refine congrArg some (funext fun x => ?_)
      have hslot : (below (path ++ [x]) (unionOf full)).length ≤ leafMax := by
        rw [below_concat hshort]
        exact (length_filter_le _ _).trans hleaf
      rw [slotSummaries_eq hshort ((sorted_unionOf hsorted).below path)
        (allBelow_below path _), ← below_concat hshort, summaryOf_leaf hslot]
    | interior inputs summary under =>
      obtain ⟨-, -, -, hslots⟩ := hok
      have hsame := h.interior inputs summary under rfl
      subst hsame
      have hdepth : 31 - stop.length = level := by omega
      refine congrArg some (funext fun x => ?_)
      rw [(hslots x).summary_eq, slots_eq, ← below_unionOf hsorted, hdepth]

theorem NodeOk.plain (h : NodeOk sha256 level path recs node)
    (hnot : ∀ inputs summary under, node ≠ some (.interior inputs summary under)) :
    PlainNode sha256 level recs node := by
  cases level with
  | zero => exact h
  | succ level =>
    cases node with
    | none => exact h
    | some node =>
      cases node with
      | whole inputs summary part => exact h
      | leaf inputs summary => exact h
      | interior inputs summary under => exact (hnot inputs summary under rfl).elim

theorem NodeOk.many {inputs : List Summary} {summary : Summary} {under : Fin 256 → Option UnionNode}
    (h : NodeOk sha256 level path recs (some (.interior inputs summary under))) :
    leafMax < (unionOf recs).length := by
  cases level with
  | zero => exact h.elim
  | succ level => exact h.2.2.1

/-- Where the records below a prefix are a leaf's worth the parts are alike, as they
are at the node found. -/
theorem alike_of_found (hsorted : AllSorted full) (h : Found sha256 full path node stop)
    (halike : Alike (full.map (below stop))) {other : TriePrefix} (hother : other <+: path)
    (hfew : (below other (unionOf full)).length ≤ leafMax) : Alike (full.map (below other)) := by
  have hlonger : stop <+: other := by
    rcases prefix_or_prefix_of_prefix h.covers hother with hlonger | hshorter
    · exact hlonger
    · by_cases hsame : other = stop
      · rw [hsame]
      · have hmany := h.above other hshorter hsame
        rw [← below_unionOf hsorted] at hmany
        omega
  have hmap : (full.map (below stop)).map (below other) = full.map (below other) := by
    rw [List.map_map]
    exact map_congr_left fun records _ => below_below hlonger records
  rw [← hmap]
  exact halike.below other

/-- What a union answers about the records below a prefix: as the one trie does,
unless it reads a leaf it worked out, and that has more than asked for. -/
theorem nodeRecords_eq (root : Option UnionNode) (most : Nat) (hparts : PartsHold sha256 parts full)
    (hlength : path.length ≤ 32) (h : Found sha256 full path node stop) :
    TrieUnion.nodeRecords sha256 ⟨parts, root⟩ path most node =
        (if leafMax < (below path (unionOf full)).length ∧
            most < (below path (unionOf full)).length then none
          else some (below path (unionOf full))) ↔
      (below path (unionOf full)).length ≤ most ∨ leafMax < (below path (unionOf full)).length ∨
        ∀ other, other <+: path → (below other (unionOf full)).length ≤ leafMax →
          Alike (full.map (below other)) := by
  have hsorted := allSorted_of_hold hparts
  have hbelow := below_unionOf hsorted path
  have hok := h.ok
  cases node with
  | none =>
    have hplain := hok.plain (by simp)
    have hnil : below path (unionOf full) = [] := by
      rw [← below_below h.covers, below_unionOf hsorted, unionOf_eq_nil hplain]
      rfl
    rw [hnil]
    refine iff_of_true ?_ (.inl (Nat.zero_le most))
    exact (if_neg (by simp)).symm
  | some node =>
    cases node with
    | whole inputs summary part =>
      obtain ⟨-, -, halike, hget⟩ := hok.plain (by simp)
      rw [List.getElem?_map] at hget
      obtain ⟨records, hrecords, hsame⟩ := Option.map_eq_some_iff.1 hget
      have hpart := getD_part hparts hrecords
      refine iff_of_true ?_ (.inr (.inr fun other hother hfew =>
        alike_of_found hsorted h halike hother hfew))
      rw [← below_of_whole hsorted h.covers hsame]
      exact records_canon hpart.sorted hpart.canon path most
    | leaf inputs summary =>
      obtain ⟨-, -, hnot, hfew, -⟩ := hok.plain (by simp)
      have hleaf := (length_below_le_stop hsorted h.covers).trans hfew
      have hmerged : TrieUnion.nodeRecords sha256 ⟨parts, root⟩ path most
          (some (.leaf inputs summary)) =
          if (below path (unionOf full)).length ≤ most then some (below path (unionOf full))
          else none := by
        rw [hbelow] at hleaf ⊢
        exact mergedRecords_of_few hparts (.inl hleaf)
      have hnone : ¬ (leafMax < (below path (unionOf full)).length ∧
          most < (below path (unionOf full)).length) :=
        fun hmany => absurd hleaf (not_le.2 hmany.1)
      rw [hmerged, if_neg hnone]
      by_cases hmost : (below path (unionOf full)).length ≤ most
      · rw [if_pos hmost]
        exact iff_of_true rfl (.inl hmost)
      · rw [if_neg hmost]
        refine iff_of_false (by simp) ?_
        rintro (hle | hmany | hall)
        · exact hmost hle
        · omega
        · refine hnot (hall stop h.covers ?_)
          rw [below_unionOf hsorted]
          exact hfew
    | interior inputs summary under =>
      have hsame := h.interior inputs summary under rfl
      subst hsame
      have hmany := hok.many
      have hsummary : summary.count = (below stop (unionOf full)).length := by
        have hcount := congrArg Summary.count hok.summary_eq
        rw [← hbelow, TrieDiff.placed_at (sorted_unionOf hsorted) hlength |>.count] at hcount
        exact hcount
      rw [← hbelow] at hmany
      refine iff_of_true ?_ (.inr (.inl hmany))
      show ((guard (summary.count ≤ most) : Option Unit).bind fun _ =>
        mergedRecords sha256 parts stop most) = _
      rw [hsummary]
      by_cases hmost : (below stop (unionOf full)).length ≤ most
      · rw [guard_of hmost, Option.bind_some, if_neg (by omega), hbelow]
        rw [hbelow] at hmost
        rw [mergedRecords_of_few hparts (.inr hmost), if_pos hmost]
      · rw [guard, if_neg hmost, if_pos ⟨hmany, not_le.1 hmost⟩]
        rfl

theorem getFrom_eq (hparts : PartsHold sha256 parts full) (id : LedgerId) :
    TrieUnion.getFrom sha256 id parts =
      some (full.findSome? fun records => leafFind records id) := by
  induction hparts with
  | nil => rfl
  | @cons part records parts full hpart hparts ih =>
    have hget : part.get sha256 id = some (leafFind records id) :=
      find_canon hpart.canon (placed_root hpart.sorted) id
    rw [TrieUnion.getFrom, hget, findSome?_cons]
    cases leafFind records id with
    | none => exact ih
    | some value => rfl

/-! ## Making a union -/

/-- A union that was made, of tries that hold their records. -/
inductive MadeUnion (sha256 : HashInput → Hash256) : TrieUnion → Prop
  | make {parts : List ObjectTrie} {full : List (List TrieRecord)} {hint : Option TrieUnion}
      {union : TrieUnion} (hparts : PartsHold sha256 parts full)
      (hhint : ∀ other ∈ hint, MadeUnion sha256 other)
      (h : TrieUnion.make sha256 parts hint = some union) : MadeUnion sha256 union

theorem inputs_eq (hparts : PartsHold sha256 parts full) :
    (parts.map fun part => (⟨part.size, part.rootHash⟩ : Summary)) =
      (full.map (below [])).map (summaryOf sha256 32) := by
  induction hparts with
  | nil => rfl
  | @cons part records parts full hpart hparts ih =>
    rw [map_cons, map_cons, map_cons, ih, below_eq_self (allBelow_nil records)]
    congr 1
    exact hpart.summary

theorem make_spec (hinj : Function.Injective sha256) (hparts : PartsHold sha256 parts full)
    (hint : Option TrieUnion) (hhint : ∀ other ∈ hint, HintOk sha256 32 [] other.root) :
    (Calm full → ∃ root, TrieUnion.make sha256 parts hint = some ⟨parts, root⟩ ∧
      NodeOk sha256 32 [] (full.map (below [])) root) ∧
    (¬ Calm full → TrieUnion.make sha256 parts hint = none) := by
  have hself : full.map (below []) = full := by
    conv_rhs => rw [← List.map_id full]
    exact map_congr_left fun records _ => below_eq_self (allBelow_nil records)
  have hroot : HintOk sha256 32 [] (hint.bind fun union => union.root) := by
    cases hint with
    | none => exact .inl rfl
    | some union => exact hhint union rfl
  have hmerge := merge_spec hinj hparts (show ([] : TriePrefix).length + 32 = 32 from rfl) hroot
  rw [← inputs_eq hparts] at hmerge
  constructor
  · intro hcalm
    obtain ⟨root, hmade, hok⟩ := hmerge.made (hself.symm ▸ hcalm)
    refine ⟨root, ?_, hok⟩
    rw [TrieUnion.make, hmade]
    rfl
  · intro hnot
    rw [TrieUnion.make, hmerge.thrown (hself.symm ▸ hnot)]
    rfl

theorem MadeUnion.hintOk (hinj : Function.Injective sha256) {union : TrieUnion}
    (h : MadeUnion sha256 union) : HintOk sha256 32 [] union.root := by
  induction h with
  | @make parts full hint union hparts hhint hmake ih =>
    have hsorted := allSorted_of_hold hparts
    obtain ⟨hmade, hthrown⟩ := make_spec hinj hparts hint ih
    by_cases hcalm : Calm full
    · obtain ⟨root, hroot, hok⟩ := hmade hcalm
      rw [hmake] at hroot
      cases hroot
      exact .inr ⟨_, partsPlaced_below hsorted rfl, hok⟩
    · rw [hthrown hcalm] at hmake
      cases hmake

end

end Trie

open Trie

/-! ## The records of several tries -/

def unionHeld (helds : List LedgerRecords) : LedgerRecords :=
  OrdMap.tabulate (helds.flatMap fun held => held.keys) fun id =>
    helds.findSome? fun held => held[id]?

/-- No id is held by more tries than a leaf has records, unless with one value. -/
def CalmIds (helds : List LedgerRecords) : Prop :=
  ∀ id : LedgerId, helds.countP (fun held => held[id]?.isSome) ≤ leafMax ∨
    ∀ held ∈ helds, ∀ other ∈ helds, ∀ value value', held[id]? = some value →
      other[id]? = some value' → value = value'

/-- Wherever on the way to a prefix the tries hold a leaf's worth together, those
that hold anything there hold the same. -/
def LeavesAlike (helds : List LedgerRecords) (path : TriePrefix) : Prop :=
  ∀ other, other <+: path → (below other (unionHeld helds).toList).length ≤ leafMax →
    Alike (helds.map fun held => below other held.toList)

structure ReadsAs (sha256 : HashInput → Hash256) (path : TriePrefix) (most : Nat)
    (union : TrieUnion) (built : ObjectTrie) : Prop where
  root : union.rootSummary = ⟨built.size, built.rootHash⟩
  children : path.length < 32 → union.children sha256 path = built.children sha256 path
  get : ∀ id, union.get sha256 id = built.get sha256 id
  records : union.records sha256 path most = built.records sha256 path most

section

variable {sha256 : HashInput → Hash256} {parts : List ObjectTrie} {helds : List LedgerRecords}

theorem getElem?_unionHeld (helds : List LedgerRecords) (id : LedgerId) :
    (unionHeld helds)[id]? = helds.findSome? fun held => held[id]? := by
  refine OrdMap.getElem?_tabulate_of_support (fun id hsome => ?_) id
  obtain ⟨held, hheld, hvalue⟩ := findSome?_isSome_iff.1 hsome
  refine mem_flatMap.2 ⟨held, hheld, ?_⟩
  obtain ⟨value, hvalue⟩ := Option.isSome_iff_exists.1 hvalue
  rw [← Std.ExtTreeMap.map_fst_toList_eq_keys]
  exact List.mem_map.2 ⟨(id, value), (OrdMap.mem_toList _ _ _).2 hvalue, rfl⟩

theorem toList_unionHeld (helds : List LedgerRecords) :
    (unionHeld helds).toList = unionOf (helds.map fun held => held.toList) := by
  have hsorted : AllSorted (helds.map fun held => held.toList) := by
    intro records hrecords
    obtain ⟨held, -, rfl⟩ := List.mem_map.1 hrecords
    exact sorted_toList held
  refine (sorted_toList _).ext_find (sorted_unionOf hsorted) fun id => ?_
  rw [leafFind_toList, getElem?_unionHeld, leafFind_unionOf hsorted, findSome?_map]
  exact findSome_congr fun held _ => (leafFind_toList held id).symm

theorem calm_toList_iff : Calm (helds.map fun held => held.toList) ↔ CalmIds helds := by
  refine forall_congr' fun id => or_congr ?_ ?_
  · rw [countP_map]
    have hsame : (fun records => (leafFind records id).isSome) ∘
        (fun held : LedgerRecords => held.toList) = fun held => held[id]?.isSome := by
      funext held
      rw [Function.comp_apply, leafFind_toList]
    rw [hsame]
  · simp only [List.forall_mem_map, leafFind_toList]

theorem alike_toList (path : TriePrefix) : (helds.map fun held => held.toList).map (below path) =
      helds.map fun held => below path held.toList := by
  rw [List.map_map]
  rfl

theorem rootSummary_eq {full : List (List TrieRecord)} {root : Option UnionNode}
    (hok : NodeOk sha256 32 [] (full.map (below [])) root) (hsorted : AllSorted full) :
    (TrieUnion.mk parts root).rootSummary = summaryOf sha256 32 (unionOf full) := by
  have hself : below [] (unionOf full) = unionOf full := below_eq_self (allBelow_nil _)
  rw [← hself, below_unionOf hsorted]
  exact hok.summary_eq

end

/-- A union of tries is made, and reads as the trie built from scratch of their
records, exactly where no id is held by more tries than a leaf has records with
more than one value, and a prefix with a leaf's worth the union worked out is asked
for no fewer records than it has. -/
theorem union_reads_as_one_iff {sha256 : HashInput → Hash256} (hinj : Function.Injective sha256)
    {parts : List ObjectTrie} {helds : List LedgerRecords}
    (hparts : PartsHold sha256 parts (helds.map fun held => held.toList))
    (hint : Option TrieUnion) (hhint : ∀ other ∈ hint, MadeUnion sha256 other)
    (path : TriePrefix) (hlength : path.length ≤ 32) (most : Nat) :
    (∃ union built, TrieUnion.make sha256 parts hint = some union ∧
      ObjectTrie.scratch sha256 (unionHeld helds) = some built ∧
      ReadsAs sha256 path most union built) ↔
    CalmIds helds ∧ ((below path (unionHeld helds).toList).length ≤ most ∨
      leafMax < (below path (unionHeld helds).toList).length ∨ LeavesAlike helds path) := by
  have hsorted := allSorted_of_hold hparts
  have hunion := toList_unionHeld helds
  obtain ⟨hmade, hthrown⟩ := make_spec hinj hparts hint fun other hother =>
    (hhint other hother).hintOk hinj
  obtain ⟨built, hscratch, hbuilt⟩ := scratch_holds sha256 (unionHeld helds)
  rw [hunion] at hbuilt
  by_cases hcalm : CalmIds helds
  · obtain ⟨root, hmake, hok⟩ := hmade (calm_toList_iff.2 hcalm)
    obtain ⟨stop, hfound⟩ := find_ok path hok rfl hlength
      (fun other hother hne => (hne (prefix_nil.1 hother)).elim)
    have hrecords := nodeRecords_eq root most hparts hlength hfound
    have hone : built.records sha256 path most = _ :=
      records_canon hbuilt.sorted hbuilt.canon path most
    rw [← hone] at hrecords
    have hleaves : (∀ other, other <+: path →
        (below other (unionOf (helds.map fun held => held.toList))).length ≤ leafMax →
          Alike ((helds.map fun held => held.toList).map (below other))) ↔
        LeavesAlike helds path := by
      simp only [alike_toList, LeavesAlike, hunion]
    rw [hleaves, ← hunion] at hrecords
    have hroot : (TrieUnion.mk parts root).rootSummary = ⟨built.size, built.rootHash⟩ :=
      (rootSummary_eq hok hsorted).trans hbuilt.summary.symm
    have hchildren (hshort : path.length < 32) :
        (TrieUnion.mk parts root).children sha256 path = built.children sha256 path := by
      rw [TrieUnion.children, guard_of hshort]
      refine (nodeChildren_eq hparts hshort hfound).trans ?_
      exact (children_canon hbuilt.sorted hbuilt.canon hshort).symm
    have hget (id : LedgerId) : (TrieUnion.mk parts root).get sha256 id = built.get sha256 id := by
      refine (getFrom_eq hparts id).trans ?_
      rw [← leafFind_unionOf hsorted]
      exact (find_canon hbuilt.canon (placed_root hbuilt.sorted) id).symm
    constructor
    · rintro ⟨union, other, hunionMade, hother, hreads⟩
      rw [hmake] at hunionMade
      rw [hscratch] at hother
      cases hunionMade
      cases hother
      exact ⟨hcalm, hrecords.1 hreads.records⟩
    · rintro ⟨-, hwhen⟩
      exact ⟨⟨parts, root⟩, built, hmake, hscratch, hroot, hchildren, hget, hrecords.2 hwhen⟩
  · refine iff_of_false ?_ fun h => hcalm h.1
    rintro ⟨union, other, hunionMade, -⟩
    rw [hthrown fun h => hcalm (calm_toList_iff.1 h)] at hunionMade
    cases hunionMade

theorem exists_parts (sha256 : HashInput → Hash256) (helds : List LedgerRecords) :
    ∃ parts, helds.mapM (ObjectTrie.scratch sha256) = some parts ∧
      PartsHold sha256 parts (helds.map fun held => held.toList) := by
  induction helds with
  | nil => exact ⟨[], rfl, .nil⟩
  | cons held helds ih =>
    obtain ⟨part, hscratch, hholds⟩ := scratch_holds sha256 held
    obtain ⟨parts, hparts, hrest⟩ := ih
    refine ⟨part :: parts, ?_, .cons hholds hrest⟩
    rw [mapM_cons, hscratch, hparts]
    rfl

namespace TwoTries

def helds : List LedgerRecords :=
  [(∅ : LedgerRecords).insert (WideIds.wideId 0) [1],
    ((∅ : LedgerRecords).insert (WideIds.wideId 0) [2]).insert (WideIds.wideId 1) [7]]

theorem helds_calm : CalmIds helds := fun _ => .inl (countP_le_length.trans (by decide))

/-- Two tries that share an id read as one of both their ids. -/
theorem two_tries_read_as_one : ∃ parts, helds.mapM (ObjectTrie.scratch namedHash) = some parts ∧
    ∃ union built, TrieUnion.make namedHash parts none = some union ∧
      ObjectTrie.scratch namedHash (unionHeld helds) = some built ∧
      ReadsAs namedHash [] 2 union built := by
  obtain ⟨parts, hscratch, hparts⟩ := exists_parts namedHash helds
  refine ⟨parts, hscratch, (union_reads_as_one_iff namedHash_injective hparts none
    (fun other hother => by cases hother) [] (by decide) 2).2 ⟨helds_calm, .inl ?_⟩⟩
  decide +kernel

end TwoTries

namespace ManyValues

def held (n : Nat) : LedgerRecords := (∅ : LedgerRecords).insert (WideIds.wideId 0) [n]

def helds : List LedgerRecords := (range 129).map held

theorem getElem?_held (n : Nat) : (held n)[WideIds.wideId 0]? = some [n] := by
  rw [held, OrdMap.getElem?_insert, if_pos rfl]

theorem helds_not_calm : ¬ CalmIds helds := by
  intro hcalm
  have hmem {n : Nat} (hn : n < 129) : held n ∈ helds :=
    List.mem_map.2 ⟨n, mem_range.2 hn, rfl⟩
  rcases hcalm (WideIds.wideId 0) with hfew | hsame
  · have hall : helds.countP (fun held => held[WideIds.wideId 0]?.isSome) = helds.length := by
      rw [countP_eq_length]
      intro other hother
      obtain ⟨n, -, rfl⟩ := List.mem_map.1 hother
      rfl
    rw [hall, helds, length_map, length_range] at hfew
    exact absurd hfew (by decide)
  · have heq := hsame (held 0) (hmem (by decide)) (held 1) (hmem (by decide)) [0] [1]
      (getElem?_held 0) (getElem?_held 1)
    cases heq

/-- Tries with a value each of one id have no union, though one trie of it is built. -/
theorem many_values_thrown : ∃ parts, helds.mapM (ObjectTrie.scratch namedHash) = some parts ∧
    TrieUnion.make namedHash parts none = none ∧
    ∃ built, ObjectTrie.scratch namedHash (unionHeld helds) = some built ∧
      built.get namedHash (WideIds.wideId 0) = some (some [0]) := by
  obtain ⟨parts, hscratch, hparts⟩ := exists_parts namedHash helds
  obtain ⟨-, hthrown⟩ := make_spec namedHash_injective hparts none
    fun other hother => by cases hother
  obtain ⟨built, hbuild, hbuilt⟩ := scratch_holds namedHash (unionHeld helds)
  refine ⟨parts, hscratch, hthrown fun h => helds_not_calm (calm_toList_iff.1 h), built, hbuild, ?_⟩
  rw [hbuilt.get, getElem?_unionHeld, helds, findSome?_map]
  show some ((range 129).findSome? fun n => (held n)[WideIds.wideId 0]?) = some (some [0])
  rw [range_succ_eq_map, findSome?_cons, getElem?_held]

end ManyValues

end Macha
