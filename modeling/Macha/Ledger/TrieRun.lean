import Macha.Ledger.TrieRead

/-!
# Calls on an object trie

A trie after any calls answers as one built from scratch of the records the calls
leave, as long as it can read back what it saved. It cannot where more ids share
all but their last byte than a leaf holds: the nodes of the whole ids are written,
and refused when they are read.
-/

namespace Macha

open List

open Trie

/-! ## Records as a list -/

theorem sorted_toList (held : LedgerRecords) : SortedRecords held.toList :=
  Std.ExtTreeMap.ordered_keys_toList.imp fun h => compare_lt_iff_lt.1 h

theorem lastChange_of_sorted {changes : List LedgerChange} (h : Ledger.SortedUnique changes)
    {change : LedgerChange} (hmem : change ∈ changes) :
    Ledger.lastChange change.id changes = some change := by
  cases hlast : Ledger.lastChange change.id changes with
  | none => exact (Ledger.lastChange_eq_none_iff.1 hlast change hmem rfl).elim
  | some last =>
    obtain ⟨hlastmem, hid⟩ := Ledger.lastChange_eq_some hlast
    by_contra hne
    have hne : last ≠ change := fun heq => hne (heq ▸ rfl)
    rcases List.Pairwise.forall_of_forall_of_flip (R := fun a b => a ≠ b → a.id ≠ b.id)
      (fun _ _ h => (h rfl).elim) (h.imp fun hlt _ => hlt.ne)
      (h.imp fun hlt _ => hlt.ne') hlastmem hmem with hids
    exact hids hne hid

theorem mergeChanges_toList (held : LedgerRecords) {changes : List LedgerChange}
    (h : Ledger.SortedUnique changes) :
    mergeChanges held.toList changes = (Ledger.applyChanges held changes).toList := by
  refine (sorted_mergeChanges (sorted_toList held) h).ext (sorted_toList _) ?_
  rintro ⟨id, value⟩
  rw [mem_mergeChanges (sorted_toList held) h, OrdMap.mem_toList, OrdMap.mem_toList,
    Ledger.getElem?_applyChanges]
  cases hlast : Ledger.lastChange id changes with
  | none =>
    have hnone := Ledger.lastChange_eq_none_iff.1 hlast
    constructor
    · rintro (⟨change, hmem, hid, -⟩ | ⟨-, hheld⟩)
      · exact (hnone change hmem hid).elim
      · exact hheld
    · exact fun hheld => .inr ⟨hnone, hheld⟩
  | some last =>
    obtain ⟨hmem, rfl⟩ := Ledger.lastChange_eq_some hlast
    constructor
    · rintro (⟨change, hchange, hid, hvalue⟩ | ⟨hnone, -⟩)
      · have hsame := lastChange_of_sorted h hchange
        rw [hid, hlast] at hsame
        cases hsame
        exact hvalue
      · exact (hnone last hmem rfl).elim
    · exact fun hvalue => .inl ⟨last, hmem, rfl, hvalue⟩

/-- A call, and what byte counts have it do beyond its changes. `install` takes
sorted changes, one to an id. -/
inductive TrieCall
  | apply (changes : List LedgerChange) (journalled : Bool) (due : ObjectTrie.Due)
  | install (changes : List LedgerChange) (sorted : Ledger.SortedUnique changes)
      (due : ObjectTrie.Due)
  | replaceAll (records : LedgerRecords) (rewrites : Bool)

namespace TrieCall

def accepted (changes : List LedgerChange) (journalled : Bool) : Bool :=
  (Ledger.sortUnique changes).all ObjectTrie.fits && journalled

def run (sha256 : HashInput → Hash256) (trie : ObjectTrie) : TrieCall → Option ObjectTrie
  | .apply changes journalled due => trie.apply sha256 changes journalled due
  | .install changes _ due => trie.install sha256 changes due
  | .replaceAll records rewrites => trie.replaceAll sha256 records.toList rewrites

def leaves (held : LedgerRecords) : TrieCall → LedgerRecords
  | .apply changes journalled _ =>
    if accepted changes journalled then Ledger.applyChanges held changes else held
  | .install changes _ _ => Ledger.applyChanges held changes
  | .replaceAll records _ => records

def checkpoints : TrieCall → Bool
  | .apply changes journalled due => accepted changes journalled && due != .nothing
  | .install _ _ due => due != .nothing
  | .replaceAll _ _ => true

end TrieCall

def runCalls (sha256 : HashInput → Hash256) (calls : List TrieCall) : Option ObjectTrie :=
  calls.foldlM (fun trie call => call.run sha256 trie) {}

def heldAfter (calls : List TrieCall) : LedgerRecords := calls.foldl TrieCall.leaves ∅

/-- Every checkpoint finds records the trie can save and read back. -/
def ChecksSavable (calls : List TrieCall) : Prop :=
  ∀ before call, before ++ [call] <+: calls → call.checkpoints = true →
    ObjectTrie.Savable (heldAfter (before ++ [call])).toList

section

variable {sha256 : HashInput → Hash256} {trie : ObjectTrie} {held : LedgerRecords}

theorem empty_holds : ({} : ObjectTrie).Holds sha256 (∅ : LedgerRecords).toList := by
  have hnil : (∅ : LedgerRecords).toList = [] := rfl
  refine ⟨List.Pairwise.nil, canon_empty 32, fun hoffset => ?_⟩
  cases hoffset

theorem install_leaves {changes : List LedgerChange} (h : trie.Holds sha256 held.toList)
    (hsorted : Ledger.SortedUnique changes) (due : ObjectTrie.Due)
    (hsavable : due ≠ .nothing → ObjectTrie.Savable (Ledger.applyChanges held changes).toList) :
    ∃ after, trie.install sha256 changes due = some after ∧
      after.Holds sha256 (Ledger.applyChanges held changes).toList := by
  rw [← mergeChanges_toList held hsorted] at hsavable ⊢
  exact ObjectTrie.install_holds h hsorted due fun _ => hsavable

theorem TrieCall.run_holds (call : TrieCall) (h : trie.Holds sha256 held.toList)
    (hsavable : call.checkpoints = true → ObjectTrie.Savable (call.leaves held).toList) :
    ∃ after, call.run sha256 trie = some after ∧ after.Holds sha256 (call.leaves held).toList := by
  cases call with
  | apply changes journalled due =>
    by_cases haccepted : TrieCall.accepted changes journalled = true
    · have hrun : (TrieCall.apply changes journalled due).run sha256 trie =
          trie.install sha256 (Ledger.sortUnique changes) due := if_pos haccepted
      have hleaves : (TrieCall.apply changes journalled due).leaves held =
          Ledger.applyChanges held (Ledger.sortUnique changes) := by
        rw [Ledger.applyChanges_sortUnique]
        exact if_pos haccepted
      rw [hleaves] at hsavable
      rw [hrun, hleaves]
      refine install_leaves h (Ledger.sortUnique_sorted changes) due fun hdue => hsavable ?_
      simpa [TrieCall.checkpoints, haccepted] using hdue
    · have hrun : (TrieCall.apply changes journalled due).run sha256 trie = some trie :=
        if_neg haccepted
      have hleaves : (TrieCall.apply changes journalled due).leaves held = held :=
        if_neg haccepted
      rw [hrun, hleaves]
      exact ⟨trie, rfl, h⟩
  | install changes hsorted due =>
    exact install_leaves h hsorted due fun hdue => hsavable (by simpa [TrieCall.checkpoints])
  | replaceAll records rewrites =>
    exact ObjectTrie.replaceAll_holds trie (sorted_toList records) (hsavable rfl) rewrites

theorem runCalls_holds (sha256 : HashInput → Hash256) {calls : List TrieCall} (h : ChecksSavable calls) :
    ∃ trie, runCalls sha256 calls = some trie ∧ trie.Holds sha256 (heldAfter calls).toList := by
  induction calls using reverseRecOn with
  | nil => exact ⟨{}, rfl, empty_holds⟩
  | append_singleton calls call ih =>
    have hbefore : ChecksSavable calls := fun before call' hcall hchecks =>
      h before call' (hcall.trans (prefix_append _ _)) hchecks
    obtain ⟨trie, hrun, hholds⟩ := ih hbefore
    have hheld : heldAfter (calls ++ [call]) = call.leaves (heldAfter calls) := by
      simp [heldAfter]
    have hsavable : call.checkpoints = true →
        ObjectTrie.Savable (call.leaves (heldAfter calls)).toList := by
      intro hchecks
      rw [← hheld]
      exact h calls call prefix_rfl hchecks
    obtain ⟨after, hcall, hafter⟩ := call.run_holds hholds hsavable
    refine ⟨after, ?_, hheld ▸ hafter⟩
    unfold runCalls at hrun ⊢
    rw [foldlM_append, hrun, Option.bind_eq_bind, Option.bind_some, foldlM_cons, hcall]
    rfl

end

/-! ## What a trie answers -/

structure AnswersAs (sha256 : HashInput → Hash256) (held : LedgerRecords)
    (trie built : ObjectTrie) : Prop where
  get : ∀ id, trie.get sha256 id = some held[id]? ∧ trie.get sha256 id = built.get sha256 id
  next : ∀ after limit, (trie.next sha256 after limit).isSome = true ∧
    trie.next sha256 after limit = built.next sha256 after limit
  size : trie.size = held.size ∧ trie.size = built.size
  rootHash : trie.rootHash = built.rootHash
  children : ∀ path, (path.length < 32 → (trie.children sha256 path).isSome = true) ∧
    trie.children sha256 path = built.children sha256 path

section

variable {sha256 : HashInput → Hash256} {trie built : ObjectTrie} {held : LedgerRecords}
  {records : List TrieRecord}

theorem ObjectTrie.Holds.get (h : trie.Holds sha256 held.toList) (id : LedgerId) :
    trie.get sha256 id = some held[id]? := by
  refine (find_canon h.canon (placed_root h.sorted) id).trans ?_
  congr 1
  refine Option.ext fun value => ?_
  rw [leafFind_eq_some_iff h.sorted, OrdMap.mem_toList]

section

variable (h : trie.Holds sha256 records)

include h

theorem ObjectTrie.Holds.next (after : Option LedgerId) (limit : Nat) :
    trie.next sha256 after limit = some ((recordsAfter after records).take limit) := by
  refine (collect_canon h.canon (placed_root h.sorted) (fun _ _ => nil_prefix) []).trans ?_
  simp

theorem ObjectTrie.Holds.summary : trie.root.summary = summaryOf sha256 32 records :=
  h.canon.summary

theorem ObjectTrie.Holds.size : trie.size = records.length :=
  h.canon.count (placed_root h.sorted)

theorem ObjectTrie.Holds.children (path : TriePrefix) : trie.children sha256 path =
      if records.length = 0 then some fun _ => {}
      else if path.length < 32 then
        some fun x => summaryOf sha256 (31 - path.length) (below (path ++ [x]) records)
      else none := by
  have hsize := h.size
  by_cases hempty : records.length = 0
  · rw [if_pos hempty]
    exact if_pos (hsize.trans hempty)
  rw [if_neg hempty]
  by_cases hshort : path.length < 32
  · rw [if_pos hshort]
    exact children_canon h.sorted h.canon hshort
  · have hcount : trie.root.count ≠ 0 := fun hzero => hempty (hsize.symm.trans hzero)
    rw [if_neg hshort, ObjectTrie.children, Trie.children, if_neg hcount, guard, if_neg hshort]
    rfl

end

theorem ObjectTrie.Holds.answersAs (h : trie.Holds sha256 held.toList)
    (hbuilt : built.Holds sha256 held.toList) : AnswersAs sha256 held trie built where
  get id := ⟨h.get id, (h.get id).trans (hbuilt.get id).symm⟩
  next after limit := by
    rw [h.next, hbuilt.next]
    exact ⟨rfl, rfl⟩
  size := ⟨h.size.trans Std.ExtTreeMap.length_toList, h.size.trans hbuilt.size.symm⟩
  rootHash := congrArg Summary.hash (h.summary.trans hbuilt.summary.symm)
  children path := by
    rw [h.children, hbuilt.children]
    refine ⟨fun hshort => ?_, rfl⟩
    split <;> rfl

theorem scratch_holds (sha256 : HashInput → Hash256) (held : LedgerRecords) :
    ∃ built, ObjectTrie.scratch sha256 held = some built ∧ built.Holds sha256 held.toList := by
  obtain ⟨root, hbuild, hholds⟩ := ObjectTrie.build_holds (sorted_toList held) []
  refine ⟨_, ?_, hholds⟩
  rw [ObjectTrie.scratch, hbuild]
  rfl

end

/-- After any calls that find what they save readable, the trie answers as the one
built from scratch of the records left; so do two tries that hold the same. -/
theorem trie_answers_as_scratch (sha256 : HashInput → Hash256) {calls : List TrieCall}
    (h : ChecksSavable calls) :
    ∃ trie built, runCalls sha256 calls = some trie ∧
      ObjectTrie.scratch sha256 (heldAfter calls) = some built ∧
      AnswersAs sha256 (heldAfter calls) trie built ∧
      ∀ others, ChecksSavable others → heldAfter others = heldAfter calls →
        ∃ other, runCalls sha256 others = some other ∧
          AnswersAs sha256 (heldAfter calls) other trie := by
  obtain ⟨trie, hrun, hholds⟩ := runCalls_holds sha256 h
  obtain ⟨built, hscratch, hbuilt⟩ := scratch_holds sha256 (heldAfter calls)
  refine ⟨trie, built, hrun, hscratch, hholds.answersAs hbuilt, fun others hothers hsame => ?_⟩
  obtain ⟨other, hother, hotherHolds⟩ := runCalls_holds sha256 hothers
  rw [hsame] at hotherHolds
  exact ⟨other, hother, hotherHolds.answersAs hholds⟩

/-- Ids that end alike: each is alone below its first 31 bytes. -/
theorem shallow_of_last {records : List TrieRecord} (hsorted : SortedRecords records)
    {last : List (Fin 256)} (h : ∀ record ∈ records, record.1.val.drop 31 = last) :
    Shallow records := by
  intro path hpath
  have hid (record : TrieRecord) (hrecord : record ∈ below path records) :
      record.1.val = path ++ last := by
    obtain ⟨hmem, hcovers⟩ := mem_filter.1 hrecord
    have htake := prefix_iff_eq_take.1 ( isPrefixOf_iff_prefix.1 hcovers)
    rw [htake, hpath, ← h record hmem, take_append_drop]
  match hbelow : below path records with
  | [] | [_] => exact Nat.le_of_ble_eq_true rfl
  | a :: b :: rest =>
    have hlt := rel_of_pairwise_cons (hbelow ▸ hsorted.below path) mem_cons_self
    have heq : a.1 = b.1 := Subtype.ext
      ((hid a (by simp [hbelow])).trans (hid b (by simp [hbelow])).symm)
    exact absurd hlt (heq ▸ lt_irrefl a.1)

theorem checksSavable_of_last {calls : List TrieCall} {last : List (Fin 256)}
    (h : ∀ made ∈ calls.inits, ∀ record ∈ (heldAfter made).toList,
      record.2.length ≤ valueMax ∧ record.1.val.drop 31 = last) : ChecksSavable calls := by
  intro before call hcall _
  have hrecords := h _ ((mem_inits _ _).2 hcall)
  exact ⟨fun record hrecord => (hrecords record hrecord).1,
    shallow_of_last (sorted_toList _) fun record hrecord => (hrecords record hrecord).2⟩

namespace WideIds

def wideId (x : Fin 256) : LedgerId := ⟨x :: replicate 31 0, by simp⟩

/-- One id more than a leaf holds. -/
def ids : List LedgerId := (finRange 256).take 129 |>.map wideId

def calls : List TrieCall :=
  [.apply (⟨wideId 0, some [1]⟩ :: ids.map fun id => ⟨id, some [2]⟩) true (.checkpoint true),
    .apply [⟨wideId 1, none⟩] false (.checkpoint false),
    .apply [⟨wideId 1, none⟩] true (.checkpoint false)]

/-- The root is split, saved, and a leaf again once an id is removed. -/
theorem one_id_removed : ∃ trie built, runCalls namedHash calls = some trie ∧
    ObjectTrie.scratch namedHash (heldAfter calls) = some built ∧
    AnswersAs namedHash (heldAfter calls) trie built ∧
    ∀ others, ChecksSavable others → heldAfter others = heldAfter calls →
      ∃ other, runCalls namedHash others = some other ∧
        AnswersAs namedHash (heldAfter calls) other trie :=
  trie_answers_as_scratch namedHash (@checksSavable_of_last _ [0] (by decide +kernel))

end WideIds

/-! ## Ids that share all but their last byte -/

section

variable {sha256 : HashInput → Hash256} {records : List TrieRecord}

/-- A saved root of more records below a prefix a byte short of an id than a leaf holds
is read back, and their ids are then not found. -/
theorem ObjectTrie.reload_deep {saved : Child} {file : NodeFile} (hsorted : SortedRecords records)
    (hsaved : Saved sha256 file 32 records saved.unloaded) {id : LedgerId} {value : ByteString}
    (hmem : (id, value) ∈ records) (hdeep : leafMax < (below (id.val.take 31) records).length) :
    ∃ after, ObjectTrie.reload sha256 saved file = some after ∧ after.get sha256 id = none := by
  have hplaced := placed_root hsorted
  have hne : records ≠ [] := ne_nil_of_mem hmem
  have hcount := hsaved.canon.count_ne_zero hplaced hne
  have hcounts : saved.unloaded.count = saved.count :=
    congrArg Summary.count (summary_unloaded saved)
  obtain ⟨node, hload⟩ := hsaved.canon.exists_load hne
  have hreload : ObjectTrie.reload sha256 saved file = some
      ⟨.mk saved.offset saved.count saved.hash (some node), file⟩ := by
    rw [ObjectTrie.reload, if_neg (hcounts ▸ hcount), hload]
    rfl
  refine ⟨_, hreload, ?_⟩
  have hunloaded : saved.unloaded.node = none := hsaved.tidy (hsaved.offset hcount)
  have hroot : load sha256 file (.mk saved.offset saved.count saved.hash (some node)) =
      load sha256 file saved.unloaded := hload.symm
  have hrootCount : (Child.mk saved.offset saved.count saved.hash (some node)).count =
      saved.unloaded.count := hcounts.symm
  exact (find_congr hrootCount hroot id).trans
    (find_deep hsaved.canon hplaced hunloaded hmem fun _ => hdeep)

theorem checkpoint_deep {trie : ObjectTrie} (h : trie.Holds sha256 records)
    (hfit : ValuesFit records) {id : LedgerId} {value : ByteString} (hmem : (id, value) ∈ records)
    (hdeep : leafMax < (below (id.val.take 31) records).length) :
    ∃ after, trie.checkpoint sha256 false = some after ∧ after.get sha256 id = none := by
  obtain ⟨saved, more, hsave, hsaved⟩ := save_canon h.canon h.kept (placed_root h.sorted) hfit
  obtain ⟨after, hreload, hget⟩ := ObjectTrie.reload_deep h.sorted hsaved hmem hdeep
  refine ⟨after, ?_, hget⟩
  rw [ObjectTrie.checkpoint, hsave, Option.bind_eq_bind, Option.bind_some]
  show (ObjectTrie.reload sha256 saved (trie.nodes ++ more)).bind _ = _
  rw [hreload]
  rfl

theorem ObjectTrie.install_due {trie : ObjectTrie} {changes : List LedgerChange}
    (hchanges : changes ≠ []) (due : ObjectTrie.Due) :
    trie.install sha256 changes due =
      (trie.install sha256 changes .nothing).bind fun after => after.checkpointIf sha256 due := by
  have hsome : ¬ changes.isEmpty = true := by simpa using hchanges
  rw [ObjectTrie.install, ObjectTrie.install, if_neg hsome, if_neg hsome]
  cases Trie.mutate sha256 trie.nodes 32 trie.root changes <;> rfl

end

namespace DeepIds

def deepId (x : Fin 256) : LedgerId := ⟨replicate 31 0 ++ [x], by simp⟩

def changes : List LedgerChange :=
  (finRange 256).map fun x => ⟨deepId x, some []⟩

def calls : List TrieCall := [.apply changes true (.checkpoint false)]

theorem deepId_lt {x y : Fin 256} (h : x < y) : deepId x < deepId y := by
  show replicate 31 0 ++ [x] < replicate 31 0 ++ [y]
  rw [append_lt_append_iff, cons_lt_cons_iff]
  exact .inl h

theorem changes_sorted : Ledger.SortedUnique changes :=
  pairwise_map.2 (finRange_ascends.imp deepId_lt)

theorem changes_accepted : TrieCall.accepted changes true = true := by
  have hfits : ∀ change ∈ Ledger.sortUnique changes, ObjectTrie.fits change = true := by
    intro change hchange
    obtain ⟨x, -, rfl⟩ := List.mem_map.1 (Ledger.mem_sortUnique hchange)
    rfl
  rw [TrieCall.accepted, List.all_eq_true.2 hfits]
  rfl

theorem sortUnique_changes_ne_nil : Ledger.sortUnique changes ≠ [] := by
  have hmem : (⟨deepId 0, some []⟩ : LedgerChange) ∈ changes :=
    List.mem_map.2 ⟨0, mem_finRange 0, rfl⟩
  have hlast := lastChange_of_sorted changes_sorted hmem
  rw [← Ledger.lastChange_sortUnique] at hlast
  intro hnil
  rw [hnil] at hlast
  cases hlast

theorem held_after (due : ObjectTrie.Due) :
    heldAfter [.apply changes true due] = Ledger.applyChanges ∅ changes := by
  unfold heldAfter
  rw [foldl_cons, foldl_nil, TrieCall.leaves, if_pos changes_accepted]

theorem run_after (due : ObjectTrie.Due) : runCalls namedHash [.apply changes true due] =
      ObjectTrie.install namedHash {} (Ledger.sortUnique changes) due := by
  have haccepted := changes_accepted
  unfold TrieCall.accepted at haccepted
  unfold runCalls
  rw [foldlM_cons, TrieCall.run, ObjectTrie.apply, if_pos haccepted]
  exact bind_pure _

theorem held_deepId (x : Fin 256) : (heldAfter calls)[deepId x]? = some [] := by
  have hmem : (⟨deepId x, some []⟩ : LedgerChange) ∈ changes :=
    List.mem_map.2 ⟨x, mem_finRange x, rfl⟩
  have hlast := lastChange_of_sorted changes_sorted hmem
  rw [calls, held_after, Ledger.getElem?_applyChanges]
  rw [hlast]

theorem held_fits : ValuesFit (heldAfter calls).toList := by
  rintro ⟨id, value⟩ hmem
  have hvalue := (OrdMap.mem_toList _ _ _).1 hmem
  rw [calls, held_after, Ledger.getElem?_applyChanges] at hvalue
  cases hlast : Ledger.lastChange id changes with
  | none =>
    rw [hlast] at hvalue
    cases hvalue
  | some change =>
    rw [hlast] at hvalue
    obtain ⟨x, -, rfl⟩ := List.mem_map.1 (Ledger.lastChange_eq_some hlast).1
    cases hvalue
    exact Nat.zero_le _

theorem deep : leafMax < (below (replicate 31 0) (heldAfter calls).toList).length := by
  have hsub : (finRange 256).map (fun x => (deepId x, ([] : ByteString))) ⊆
      below (replicate 31 0) (heldAfter calls).toList := by
    intro record hrecord
    obtain ⟨x, -, rfl⟩ := List.mem_map.1 hrecord
    refine mem_filter.2 ⟨(OrdMap.mem_toList _ _ _).2 (held_deepId x), ?_⟩
    exact covers_iff.2 (prefix_append _ _)
  have hnodup : ((finRange 256).map fun x => (deepId x, ([] : ByteString))).Nodup := by
    refine pairwise_map.2 (finRange_ascends.imp fun hlt heq => ?_)
    exact (deepId_lt hlt).ne (congrArg Prod.fst heq)
  have hlength := (hnodup.subperm hsub).length_le
  rw [length_map, length_finRange] at hlength
  exact lt_of_lt_of_le (by decide) hlength

/-- The trie returns from the call and cannot look up an id it holds. -/
theorem held_id_not_found : ∃ trie built, runCalls namedHash calls = some trie ∧
    ObjectTrie.scratch namedHash (heldAfter calls) = some built ∧
    trie.get namedHash (deepId 0) = none ∧
    built.get namedHash (deepId 0) = some (some []) := by
  have hchecks : ChecksSavable [.apply changes true .nothing] := by
    intro before call hcall hcheckpoints
    have hmem := hcall.subset (mem_append_right before (mem_singleton.2 rfl))
    rw [mem_singleton.1 hmem] at hcheckpoints
    simp [TrieCall.checkpoints] at hcheckpoints
  obtain ⟨trie, hrun, hholds⟩ := runCalls_holds namedHash hchecks
  have hheld : heldAfter [.apply changes true .nothing] = heldAfter calls :=
    (held_after _).trans (held_after _).symm
  have hmem : (deepId 0, []) ∈ (heldAfter calls).toList :=
    (OrdMap.mem_toList _ _ _).2 (held_deepId 0)
  obtain ⟨after, hcheckpoint, hget⟩ := checkpoint_deep hholds held_fits hmem deep
  obtain ⟨built, hscratch, hbuilt⟩ := scratch_holds namedHash (heldAfter calls)
  refine ⟨after, built, ?_, hscratch, hget, ?_⟩
  · rw [run_after] at hrun
    rw [calls, run_after, ObjectTrie.install_due sortUnique_changes_ne_nil, hrun]
    exact hcheckpoint
  · rw [hbuilt.get, held_deepId]

end DeepIds

end Macha
