import Macha.Ledger.TrieSave

/-!
# Reading a trie

What a trie answers is a function of the records it holds: the value of an id,
the records after one, the summaries a byte below a prefix, and the records below
a prefix.
-/

namespace Macha

open List

namespace Trie

/-! ## Looking an id up -/

theorem leafFind_eq_some_iff {records : List TrieRecord} (h : SortedRecords records)
    {id : LedgerId} {value : ByteString} :
    leafFind records id = some value ↔ (id, value) ∈ records := by
  induction records with
  | nil => simp [leafFind]
  | cons record records ih =>
    obtain ⟨hfirst, hrest⟩ := pairwise_cons.1 h
    by_cases hlt : record.1 < id
    · have hskip : leafFind (record :: records) id = leafFind records id := by
        unfold leafFind
        rw [dropWhile_cons_of_pos (by simpa using hlt)]
      have hne : (id, value) ≠ record := by
        intro heq
        rw [← heq] at hlt
        exact lt_irrefl _ hlt
      rw [hskip, ih hrest, mem_cons]
      simp [hne]
    · have hhead : leafFind (record :: records) id =
          if record.1 = id then some record.2 else none := by
        unfold leafFind
        rw [dropWhile_cons_of_neg (by simpa using hlt)]
        rfl
      have habsent : (id, value) ∉ records := by
        intro hmem
        exact hlt (hfirst _ hmem)
      rw [hhead, mem_cons]
      constructor
      · intro hsome
        split at hsome
        · next heq =>
          cases hsome
          exact .inl (by rw [← heq])
        · cases hsome
      · rintro (heq | hmem)
        · rw [← heq, if_pos rfl]
        · exact (habsent hmem).elim

theorem leafFind_ofKey {records : List TrieRecord} (h : SortedRecords records) (depth : Nat)
    (id : LedgerId) :
    leafFind (ofKey (slot depth) (byteAt id depth) records) id = leafFind records id := by
  refine Option.ext fun value => ?_
  rw [leafFind_eq_some_iff (h.ofKey _ _), leafFind_eq_some_iff h]
  simp [ofKey, slot]

section

variable {sha256 : HashInput → Hash256} {file : NodeFile} {level : Nat}
  {records : List TrieRecord} {child : Child} {path : TriePrefix}

theorem find_canon (h : Canon sha256 file False level records child)
    (hplaced : Placed path level records) (id : LedgerId) :
    find sha256 file id level child = some (leafFind records id) := by
  induction h, hplaced using Canon.readInduction with
  | empty level _ _ hcount => cases level <;> exact visit_empty hcount
  | leaf level _ _ _ hcount hload => cases level <;> exact visit_loaded hcount hload
  | interior level children _ hplaced _ hcount hload _ _ ih =>
    refine (visit_loaded hcount hload).trans ?_
    show find sha256 file id level (children (byteAt id (31 - level))) = _
    rw [ih _, leafFind_ofKey hplaced.sorted]

end

/-! ## Records after an id -/

def recordsAfter (after : Option LedgerId) (records : List TrieRecord) : List TrieRecord :=
  records.filter fun record => !after.any fun id => !decide (id < record.1)

theorem recordsAfter_none (records : List TrieRecord) : recordsAfter none records = records := by
  simp [recordsAfter]

theorem mem_recordsAfter_some {id : LedgerId} {records : List TrieRecord} {record : TrieRecord} :
    record ∈ recordsAfter (some id) records ↔ record ∈ records ∧ id < record.1 := by
  simp [recordsAfter]

theorem leafCollect_eq (after : Option LedgerId) (limit : Nat) (out records : List TrieRecord) :
    leafCollect after limit out records =
      out ++ (recordsAfter after records).take (limit - out.length) := by
  induction records generalizing out with
  | nil => simp [leafCollect, recordsAfter]
  | cons record records ih =>
    have hstep : leafCollect after limit out (record :: records) =
        leafCollect after limit (if limit ≤ out.length then out
          else if after.any fun id => !decide (id < record.1) then out
          else out ++ [record]) records := rfl
    rw [hstep, ih]
    by_cases hfull : limit ≤ out.length
    · have hnone : limit - out.length = 0 := by omega
      rw [if_pos hfull, hnone, take_zero, take_zero]
    rw [if_neg hfull]
    by_cases hbefore : (after.any fun id => !decide (id < record.1)) = true
    · rw [if_pos hbefore]
      unfold recordsAfter
      rw [filter_cons_of_neg (by simpa using hbefore)]
    · have hroom : limit - out.length = limit - (out ++ [record]).length + 1 := by
        rw [length_append, length_singleton]
        omega
      rw [if_neg hbefore, hroom]
      unfold recordsAfter
      rw [filter_cons_of_pos (by simpa using hbefore), take_succ_cons, append_assoc]
      rfl

/-- Slots taken in turn up to a limit, those before `start` being empty. -/
theorem collect_fold {start : Fin 256} {limit : Nat} {group : Fin 256 → List TrieRecord}
    {below : Fin 256 → List TrieRecord → Option (List TrieRecord)}
    (hbefore : ∀ x, x < start → group x = [])
    (hbelow : ∀ x out, ¬ x < start → below x out = some (out ++ (group x).take (limit - out.length)))
    (slots : List (Fin 256)) (out : List TrieRecord) :
    slots.foldlM
      (fun out x => if x < start ∨ limit ≤ out.length then some out else below x out) out =
      some (out ++ (slots.flatMap group).take (limit - out.length)) := by
  induction slots generalizing out with
  | nil => simp
  | cons x slots ih =>
    have hstep : (if x < start ∨ limit ≤ out.length then some out else below x out) =
        some (out ++ (group x).take (limit - out.length)) := by
      by_cases hlt : x < start
      · rw [if_pos (.inl hlt), hbefore x hlt, take_nil, append_nil]
      · by_cases hfull : limit ≤ out.length
        · have hnone : limit - out.length = 0 := by omega
          rw [if_pos (.inr hfull), hnone, take_zero, append_nil]
        · rw [if_neg (by simp [hlt, hfull]), hbelow x out hlt]
    rw [foldlM_cons, hstep]
    show slots.foldlM _ (out ++ (group x).take (limit - out.length)) = _
    rw [ih, flatMap_cons, take_append, append_assoc, length_append, length_take]
    congr 4
    omega

section

variable {sha256 : HashInput → Hash256} {file : NodeFile} {level limit : Nat}
  {records out : List TrieRecord} {child : Child} {path : TriePrefix} {after : Option LedgerId}

/-- The slot where the records after an id start. -/
def startSlot (after : Option LedgerId) (depth : Nat) : Fin 256 :=
  (after.map fun id => byteAt id depth).getD 0

section

variable (hplaced : Placed path (level + 1) records)

include hplaced

theorem recordsAfter_before (hafter : ∀ id ∈ after, path <+: id.val) {x : Fin 256}
    (hlt : x < startSlot after (31 - level)) :
    recordsAfter after (ofKey (slot (31 - level)) x records) = [] := by
  cases after with
  | none => exact (Fin.not_lt_zero x hlt).elim
  | some id =>
    rw [eq_nil_iff_forall_not_mem]
    intro record hrecord
    obtain ⟨hmem, hid⟩ := mem_recordsAfter_some.1 hrecord
    have hmem := mem_filter.1 hmem
    have hslot : slot (31 - level) record = x := of_decide_eq_true hmem.2
    have hless : record.1 < id := by
      refine lt_of_byteAt_lt hplaced.short (hplaced.below record hmem.1) (hafter id rfl) ?_
      rw [← hplaced.depth]
      subst hslot
      exact hlt
    exact lt_asymm hid hless

theorem recordsAfter_beyond (hafter : ∀ id ∈ after, path <+: id.val) {x : Fin 256}
    (hlt : startSlot after (31 - level) < x) :
    recordsAfter after (ofKey (slot (31 - level)) x records) =
      ofKey (slot (31 - level)) x records := by
  cases after with
  | none => exact recordsAfter_none _
  | some id =>
    unfold recordsAfter
    rw [filter_eq_self]
    intro record hrecord
    have hmem := mem_filter.1 hrecord
    have hslot : slot (31 - level) record = x := of_decide_eq_true hmem.2
    have hless : id < record.1 := by
      refine lt_of_byteAt_lt hplaced.short (hafter id rfl) (hplaced.below record hmem.1) ?_
      rw [← hplaced.depth]
      subst hslot
      exact hlt
    simpa using hless

theorem flatMap_recordsAfter (after : Option LedgerId) : ((finRange 256).flatMap fun x =>
      recordsAfter after (ofKey (slot (31 - level)) x records)) = recordsAfter after records := by
  unfold recordsAfter
  rw [← filter_flatMap, hplaced.flatMap]

end

theorem collect_empty (hcount : child.count = 0) :
    collect sha256 file limit level child after out = some out := by
  cases level with
  | zero =>
    rw [collect, visit_empty hcount]
    exact ite_self _
  | succ level =>
    rw [collect, visit_empty hcount]
    exact ite_self _

theorem collect_full (hfull : limit ≤ out.length) :
    collect sha256 file limit level child after out = some out := by
  cases level with
  | zero => rw [collect, if_pos hfull]
  | succ level => rw [collect, if_pos hfull]

theorem collect_leaf {depth : Nat} (hcount : child.count ≠ 0)
    (hload : load sha256 file child = some (.leaf depth records)) (hfull : ¬ limit ≤ out.length) :
    collect sha256 file limit level child after out =
      some (out ++ (recordsAfter after records).take (limit - out.length)) := by
  rw [← leafCollect_eq]
  cases level with
  | zero =>
    rw [collect, if_neg hfull, visit_loaded hcount hload]
    rfl
  | succ level =>
    rw [collect, if_neg hfull, visit_loaded hcount hload]
    rfl

theorem collect_of_room (hread : ¬ limit ≤ out.length →
      collect sha256 file limit level child after out =
        some (out ++ (recordsAfter after records).take (limit - out.length))) :
    collect sha256 file limit level child after out =
      some (out ++ (recordsAfter after records).take (limit - out.length)) := by
  by_cases hfull : limit ≤ out.length
  · have hnone : limit - out.length = 0 := by omega
    rw [collect_full hfull, hnone, take_zero, append_nil]
  · exact hread hfull

theorem collect_canon (h : Canon sha256 file False level records child)
    (hplaced : Placed path level records) (hafter : ∀ id ∈ after, path <+: id.val)
    (out : List TrieRecord) : collect sha256 file limit level child after out =
      some (out ++ (recordsAfter after records).take (limit - out.length)) := by
  induction h, hplaced using Canon.readInduction generalizing after out with
  | empty _ _ _ hcount =>
    rw [collect_empty hcount]
    simp [recordsAfter]
  | leaf _ _ _ _ hcount hload =>
    exact collect_of_room fun hfull => collect_leaf hcount hload hfull
  | @interior level records _ path children _ hplaced _ hcount hload _ _ ih =>
    refine collect_of_room fun hfull => ?_
    have hnext x : ∀ id ∈ (if x = startSlot after (31 - level) then after else none),
        path ++ [x] <+: id.val := by
      intro id hid
      split at hid
      · next hx =>
        cases hid
        refine (covered_concat_iff hplaced.short x).2 ⟨hafter id rfl, ?_⟩
        rw [hx, ← hplaced.depth]
        rfl
      · cases hid
    have hbelow x out (hx : ¬ x < startSlot after (31 - level)) :
        collect sha256 file limit level (children x)
          (if x = startSlot after (31 - level) then after else none) out =
        some (out ++ (recordsAfter after (ofKey (slot (31 - level)) x records)).take
          (limit - out.length)) := by
      rw [ih x (hnext x)]
      split
      · rfl
      · next hne =>
        have hlt := lt_of_le_of_ne (not_lt.1 hx) (Ne.symm hne)
        rw [recordsAfter_beyond hplaced hafter hlt, recordsAfter_none]
    rw [collect, if_neg hfull, visit_loaded hcount hload]
    show (finRange 256).foldlM (fun out x =>
      if x < startSlot after (31 - level) ∨ limit ≤ out.length then some out
      else collect sha256 file limit level (children x)
        (if x = startSlot after (31 - level) then after else none) out) out = _
    rw [collect_fold (fun x hx => recordsAfter_before hplaced hafter hx) hbelow,
      flatMap_recordsAfter hplaced]

end

/-! ## Below a prefix -/

section

variable {sha256 : HashInput → Hash256} {file : NodeFile} {level : Nat}
  {records : List TrieRecord} {child : Child} {path here : TriePrefix}

/-- The node that covers a prefix of the records. -/
inductive Covering (sha256 : HashInput → Hash256) (file : NodeFile) (path : TriePrefix)
    (records : List TrieRecord) : Option Node → Prop
  | nothing (h : below path records = []) : Covering sha256 file path records none
  | leaf {depth : Nat} {held : List TrieRecord} (hsorted : SortedRecords held)
      (hfew : held.length ≤ leafMax) (h : below path held = below path records) :
      Covering sha256 file path records (some (.leaf depth held))
  | interior {children : Fin 256 → Child} (hshort : path.length < 32)
      (hmany : leafMax < (below path records).length) (htidy : ∀ x, Tidy (children x))
      (h : ∀ x, Canon sha256 file False (31 - path.length) (below (path ++ [x]) records)
        (children x)) :
      Covering sha256 file path records (some (.interior path.length children))

theorem below_ofKey {x : Fin 256} (hshort : here.length < 32) (hhere : here ++ [x] <+: path)
    (records : List TrieRecord) :
    below path (ofKey (slot here.length) x records) = below path records := by
  unfold below ofKey
  rw [List.filter_filter]
  refine filter_congr fun record _ => ?_
  by_cases hcover : covers path record.1 = true
  · have hslot := ((covered_concat_iff hshort x).1 (hhere.trans (covers_iff.1 hcover))).2
    simp [hcover, slot, hslot]
  · simp [hcover]

theorem Covering.of_slot {x : Fin 256} {node : Option Node} (hshort : here.length < 32)
    (hhere : here ++ [x] <+: path)
    (h : Covering sha256 file path (ofKey (slot here.length) x records) node) :
    Covering sha256 file path records node := by
  have hbelow := below_ofKey hshort hhere records
  cases h with
  | nothing hnone => exact .nothing (hbelow ▸ hnone)
  | leaf hsorted hfew hsame => exact .leaf hsorted hfew (hsame.trans hbelow)
  | interior hdeep hmany htidy hchildren =>
    refine .interior hdeep (hbelow ▸ hmany) htidy fun y => ?_
    rw [← below_ofKey hshort (hhere.trans (prefix_append path [y])) records]
    exact hchildren y

theorem prefix_concat_of_lt (hhere : here <+: path) (hlt : here.length < path.length) :
    here ++ [path.getD here.length 0] <+: path := by
  obtain ⟨rest, rfl⟩ := hhere
  cases rest with
  | nil => simp at hlt
  | cons x rest => exact ⟨rest, by simp⟩

theorem descend_empty (hcount : child.count = 0) :
    descend sha256 file path level child = some none := by
  cases level with
  | zero => exact visit_empty hcount
  | succ level => exact visit_empty hcount

theorem descend_leaf {depth : Nat} (hcount : child.count ≠ 0)
    (hload : load sha256 file child = some (.leaf depth records)) :
    descend sha256 file path level child = some (some (.leaf depth records)) := by
  cases level with
  | zero => exact visit_loaded hcount hload
  | succ level => exact visit_loaded hcount hload

theorem descend_canon (h : Canon sha256 file False level records child)
    (hplaced : Placed here level records) (hhere : here <+: path) :
    ∃ node, descend sha256 file path level child = some node ∧
      Covering sha256 file path records node := by
  induction h, hplaced using Canon.readInduction with
  | empty _ _ _ hcount => exact ⟨none, descend_empty hcount, .nothing rfl⟩
  | leaf _ _ hplaced hfew hcount hload =>
    exact ⟨_, descend_leaf hcount hload, .leaf hplaced.sorted hfew rfl⟩
  | @interior level _ child here children _ hplaced hmany hcount hload htidy hchildren ih =>
    have hdescend : descend sha256 file path (level + 1) child =
        if 31 - level < path.length then
          descend sha256 file path level (children (path.getD (31 - level) 0))
        else some (some (.interior (31 - level) children)) := visit_loaded hcount hload
    rw [hdescend]
    by_cases hdeep : 31 - level < path.length
    · rw [if_pos hdeep]
      have hnext : here ++ [path.getD (31 - level) 0] <+: path := by
        rw [hplaced.depth] at hdeep ⊢
        exact prefix_concat_of_lt hhere hdeep
      obtain ⟨node, hnode, hcovering⟩ := ih _ hnext
      refine ⟨node, hnode, ?_⟩
      rw [hplaced.depth] at hcovering hnext
      exact hcovering.of_slot hplaced.short hnext
    · rw [if_neg hdeep]
      have hsame : here = path := hhere.eq_of_length_le (by rw [← hplaced.depth]; omega)
      subst hsame
      have hlevel : 31 - here.length = level := by
        have := hplaced.deep
        omega
      refine ⟨_, rfl, ?_⟩
      rw [hplaced.depth]
      refine .interior hplaced.short ?_ htidy fun x => ?_
      · rw [below_eq_self hplaced.below]
        exact hmany
      · rw [below_concat hplaced.short, below_eq_self hplaced.below, hlevel, ← hplaced.depth]
        exact hchildren x

theorem slotSummaries_eq (hshort : path.length < 32) (hsorted : SortedRecords records)
    (hbelow : AllBelow path records) (x : Fin 256) :
    slotSummaries sha256 path.length records x =
      leafSummary sha256 (ofKey (slot path.length) x records) := by
  have hassign := assignRuns_runs (fun _ _ group => some (leafSummary sha256 group))
    (fun _ => ({} : Summary)) (fun x => leafSummary sha256 (ofKey (slot path.length) x records))
    (hsorted.ascending hbelow hshort) fun x _ => rfl
  have hfold slots (parts : List (Fin 256 × List TrieRecord)) :
      assignRuns (fun _ _ group => some (leafSummary sha256 group)) slots parts = some (parts.foldl
          (fun slots part => Function.update slots part.1 (leafSummary sha256 part.2)) slots) := by
    induction parts generalizing slots with
    | nil => rfl
    | cons part parts ih => exact ih _
  rw [hfold] at hassign
  refine (congrFun (Option.some.inj hassign) x).trans ?_
  split
  · next hnone =>
    rw [hnone]
    rfl
  · rfl

theorem leafChildren_eq {held : List TrieRecord} (hshort : path.length < 32)
    (hsorted : SortedRecords held) (x : Fin 256) :
    leafChildren sha256 path held x = leafSummary sha256 (below (path ++ [x]) held) := by
  rw [below_concat hshort]
  exact slotSummaries_eq hshort (hsorted.below path) (allBelow_below path held) x

theorem children_canon {root : Child} (hsorted : SortedRecords records)
    (h : Canon sha256 file False 32 records root) (hshort : path.length < 32) :
    children sha256 file root path =
      some fun x => summaryOf sha256 (31 - path.length) (below (path ++ [x]) records) := by
  have hplaced := placed_root hsorted
  unfold children
  by_cases hcount : root.count = 0
  · have hnil : records = [] := by
      rw [h.count hplaced] at hcount
      exact length_eq_zero_iff.1 hcount
    subst hnil
    rw [if_pos hcount]
    congr 1
    funext x
    exact (summaryOf_nil _).symm
  obtain ⟨node, hnode, hcovering⟩ := descend_canon h hplaced ( nil_prefix (l := path))
  rw [if_neg hcount, guard_of hshort, hnode]
  show some (nodeChildren sha256 path node) = _
  congr 1
  funext x
  cases hcovering with
  | nothing hnone =>
    rw [below_concat hshort, hnone]
    exact (summaryOf_nil _).symm
  | @leaf depth held hheld hfew hsame =>
    have hbelow : below (path ++ [x]) records = below (path ++ [x]) held := by
      rw [below_concat hshort, below_concat hshort, hsame]
    have hleaf : (below (path ++ [x]) held).length ≤ leafMax :=
      (length_filter_le _ held).trans hfew
    rw [hbelow, summaryOf_leaf hleaf]
    exact leafChildren_eq hshort hheld x
  | interior hdeep hmany htidy hchildren => exact (hchildren x).summary

theorem canon_covering {children : Fin 256 → Child} (hshort : path.length < 32)
    (hmany : leafMax < (below path records).length) (htidy : ∀ x, Tidy (children x))
    (h : ∀ x, Canon sha256 file False (31 - path.length) (below (path ++ [x]) records)
      (children x)) :
    Canon sha256 file False (31 - path.length + 1) (below path records)
      (childOf sha256 (.interior path.length children)) := by
  have hdepth : 31 - (31 - path.length) = path.length := by omega
  have hchildren x : Canon sha256 file False (31 - path.length)
      (ofKey (slot (31 - (31 - path.length))) x (below path records)) (children x) := by
    rw [hdepth, ← below_concat hshort]
    exact h x
  have hwhole := canon_interior hmany htidy hchildren
  rw [hdepth] at hwhole
  exact hwhole

theorem placed_below (hsorted : SortedRecords records) (hshort : path.length < 32) :
    Placed path (31 - path.length + 1) (below path records) :=
  ⟨hsorted.below path, allBelow_below path records, by omega⟩

theorem collect_all (h : Canon sha256 file False level records child)
    (hplaced : Placed path level records) :
    collect sha256 file child.count level child none [] = some records := by
  have hafter : ∀ id ∈ (none : Option LedgerId), path <+: id.val := by simp
  rw [collect_canon h hplaced hafter, recordsAfter_none, h.count hplaced]
  simp

theorem records_canon {root : Child} (hsorted : SortedRecords records)
    (h : Canon sha256 file False 32 records root) (path : TriePrefix) (most : Nat) :
    Trie.records sha256 file root path most =
      if leafMax < (below path records).length ∧ most < (below path records).length then none
      else some (below path records) := by
  have hplaced := placed_root hsorted
  unfold Trie.records
  by_cases hcount : root.count = 0
  · have hnil : records = [] := by
      rw [h.count hplaced] at hcount
      exact length_eq_zero_iff.1 hcount
    subst hnil
    rw [if_pos hcount]
    rfl
  obtain ⟨node, hnode, hcovering⟩ := descend_canon h hplaced ( nil_prefix (l := path))
  rw [if_neg hcount, hnode, Option.bind_some]
  cases hcovering with
  | nothing hnone =>
    rw [hnone]
    rfl
  | @leaf depth held hheld hfew hsame =>
    have hbelow : (below path records).length ≤ leafMax := by
      rw [← hsame]
      exact (length_filter_le _ held).trans hfew
    rw [if_neg (by omega), ← hsame]
    rfl
  | @interior children hdeep hmany htidy hchildren =>
    have hwhole := canon_covering hdeep hmany htidy hchildren
    have hunder := placed_below hsorted hdeep
    have hcount := hwhole.count hunder
    have hlevel : 32 - path.length = 31 - path.length + 1 := by omega
    have hread : nodeRecords sha256 file path most (some (.interior path.length children)) =
        (guard ((childOf sha256 (.interior path.length children)).count ≤ most) :
          Option Unit).bind fun _ => some (below path records) := by
      rw [← collect_all hwhole hunder, ← hlevel]
      rfl
    rw [hread, hcount]
    by_cases hmost : (below path records).length ≤ most
    · rw [guard_of hmost, if_neg (by omega)]
      rfl
    · rw [if_pos ⟨hmany, not_le.1 hmost⟩, guard, if_neg hmost]
      rfl

end

/-! ## Ids that share all but their last byte -/

section

variable {sha256 : HashInput → Hash256} {file : NodeFile} {level : Nat}
  {records : List TrieRecord} {child : Child} {path : TriePrefix}

theorem load_from_file {node : Node} (hnode : child.node = none)
    (h : load sha256 file child = some node) :
    ∃ image, decode image = some node := by
  unfold load at h
  rw [hnode] at h
  obtain ⟨-, h⟩ := guard_bind_eq_some h
  obtain ⟨offset, -, h⟩ := Option.bind_eq_some_iff.1 h
  obtain ⟨image, -, h⟩ := Option.bind_eq_some_iff.1 h
  obtain ⟨read, hread, h⟩ := Option.bind_eq_some_iff.1 h
  obtain ⟨-, h⟩ := guard_bind_eq_some h
  cases h
  exact ⟨image, hread⟩

theorem decode_ne_leaf_whole (image : NodeImage) : decode image ≠ some (.leaf 32 records) := by
  intro h
  cases image with
  | leaf depth held =>
    obtain ⟨hdepth, h⟩ := guard_bind_eq_some h
    obtain ⟨-, h⟩ := guard_bind_eq_some h
    obtain ⟨-, h⟩ := guard_bind_eq_some h
    obtain ⟨-, h⟩ := guard_bind_eq_some h
    cases h
    exact absurd hdepth (by omega)
  | interior depth children =>
    obtain ⟨-, h⟩ := guard_bind_eq_some h
    obtain ⟨-, h⟩ := guard_bind_eq_some h
    obtain ⟨-, h⟩ := guard_bind_eq_some h
    cases h

theorem node_decodeChild (saved : Option SavedChild) : (decodeChild saved).node = none := by
  cases saved <;> rfl

theorem node_of_decode_interior {depth : Nat} {children : Fin 256 → Child} {image : NodeImage}
    (h : decode image = some (.interior depth children)) (x : Fin 256) :
    (children x).node = none := by
  cases image with
  | leaf depth held =>
    obtain ⟨-, h⟩ := guard_bind_eq_some h
    obtain ⟨-, h⟩ := guard_bind_eq_some h
    obtain ⟨-, h⟩ := guard_bind_eq_some h
    obtain ⟨-, h⟩ := guard_bind_eq_some h
    cases h
  | interior depth images =>
    obtain ⟨-, h⟩ := guard_bind_eq_some h
    obtain ⟨-, h⟩ := guard_bind_eq_some h
    obtain ⟨-, h⟩ := guard_bind_eq_some h
    cases h
    exact node_decodeChild (images x)

theorem Unreadable.load_eq_none (h : Unreadable file child) : load sha256 file child = none := by
  obtain ⟨hnode, offset, image, hoffset, himage, hdecode⟩ := h
  cases hload : load sha256 file child with
  | none => rfl
  | some node =>
    unfold load at hload
    rw [hnode] at hload
    obtain ⟨-, hload⟩ := guard_bind_eq_some hload
    obtain ⟨place, hplace, hload⟩ := Option.bind_eq_some_iff.1 hload
    rw [hoffset] at hplace
    cases hplace
    obtain ⟨found, hfound, hload⟩ := Option.bind_eq_some_iff.1 hload
    rw [himage, Option.join_some] at hfound
    cases hfound
    rw [hdecode] at hload
    cases hload

/-- A saved id whose prefix a byte short has more records below than a leaf holds
is not found: the lookup throws. -/
theorem find_deep {cut : Prop} (h : Canon sha256 file cut level records child)
    (hplaced : Placed path level records) (hnode : child.node = none) {id : LedgerId}
    {value : ByteString} (hmem : (id, value) ∈ records)
    (hdeep : level ≠ 0 → leafMax < (below (id.val.take 31) records).length) :
    find sha256 file id level child = none := by
  have hne : records ≠ [] := ne_nil_of_mem hmem
  have hcount := h.count_ne_zero hplaced hne
  induction level generalizing path records child with
  | zero =>
    have hunread : load sha256 file child = none := by
      rcases h.2 hne with hload | ⟨-, hunreadable⟩
      · obtain ⟨image, himage⟩ := load_from_file hnode hload
        exact (decode_ne_leaf_whole image himage).elim
      · exact hunreadable.load_eq_none
    rw [find, visit, if_neg hcount, hunread]
    rfl
  | succ level ih =>
    have hmany : leafMax < records.length :=
      (hdeep (by omega)).trans_le (length_filter_le _ records)
    obtain ⟨children, hload, -, hchildren⟩ := h.2.2 hmany
    obtain ⟨image, himage⟩ := load_from_file hnode hload
    have hslot : (id, value) ∈ ofKey (slot (31 - level)) (byteAt id (31 - level)) records := by
      simp [ofKey, slot, hmem]
    refine (visit_loaded hcount hload).trans ?_
    refine ih (hchildren _) (hplaced.child _) (node_of_decode_interior himage _) hslot ?_ ?_ ?_
    · intro hlevel
      have hpath : path ++ [byteAt id (31 - level)] <+: id.val.take 31 := by
        have hlength := hplaced.deep
        rw [hplaced.depth, prefix_take_iff]
        refine ⟨(covered_concat_iff hplaced.short _).2 ⟨hplaced.below _ hmem, rfl⟩, ?_⟩
        rw [length_append, length_singleton]
        omega
      rw [hplaced.depth] at hpath ⊢
      rw [below_ofKey hplaced.short hpath]
      exact hdeep (by omega)
    · exact ne_nil_of_mem hslot
    · exact (hchildren _).count_ne_zero (hplaced.child _) (ne_nil_of_mem hslot)

theorem find_congr {other : Child} (hcount : child.count = other.count)
    (hload : load sha256 file child = load sha256 file other) (id : LedgerId) :
    find sha256 file id level child = find sha256 file id level other := by
  cases level with
  | zero => rw [find, find, visit, visit, hcount, hload]
  | succ level => rw [find, find, visit, visit, hcount, hload]

end

end Trie

end Macha
