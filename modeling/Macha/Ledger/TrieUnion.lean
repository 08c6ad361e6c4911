import Macha.Ledger.TrieDiff

/-!
# Several tries read as one

A union of tries: each id once, with the value of the first part that holds it.
Where one part holds a subtree alone, or all that hold it hold it alike, it is
that part's own; elsewhere it is worked out from the parts' summaries and records.
A union made earlier may be given as a hint: a subtree whose parts sum up as they
did is taken from it.

Counts are uint64 in the source; here they do not wrap.
-/

namespace Macha

open List

namespace Trie

/-- A subtree of a union: some part's own, a leaf, or an interior node worked out. -/
inductive UnionNode
  | whole (inputs : List Summary) (summary : Summary) (part : Nat)
  | leaf (inputs : List Summary) (summary : Summary)
  | interior (inputs : List Summary) (summary : Summary) (below : Fin 256 → Option UnionNode)

namespace UnionNode

def inputs : UnionNode → List Summary
  | .whole inputs _ _ => inputs
  | .leaf inputs _ => inputs
  | .interior inputs _ _ => inputs

def summary : UnionNode → Summary
  | .whole _ summary _ => summary
  | .leaf _ summary => summary
  | .interior _ summary _ => summary

end UnionNode

def mergeRecords : List TrieRecord → List TrieRecord → List TrieRecord
  | [], got => got
  | out, [] => out
  | a :: out, b :: got =>
    if a.1 < b.1 then a :: mergeRecords out (b :: got)
    else if b.1 < a.1 then b :: mergeRecords (a :: out) got
    else a :: mergeRecords out got
termination_by out got => out.length + got.length

/-- `UINT64_MAX`. -/
def noLimit : Nat := 2 ^ 64 - 1

section

variable (sha256 : HashInput → Hash256)

def mergePart (path : TriePrefix) (most : Nat) (out : List TrieRecord) (part : ObjectTrie) :
    Option (List TrieRecord) := do
  let got ← part.records sha256 path most
  if got.isEmpty then some out
  else
    guard ((mergeRecords out got).length ≤ most)
    some (mergeRecords out got)

/-- The parts' records below a prefix: throws for more than `most`. -/
def mergedRecords (parts : List ObjectTrie) (path : TriePrefix) (most : Nat) :
    Option (List TrieRecord) :=
  parts.foldlM (mergePart sha256 path most) []

def firstHeld (inputs : List Summary) : Option Nat := inputs.findIdx? fun input => input.count ≠ 0

/-- Whether every part that holds anything holds what `first` does. -/
def heldAlike (inputs : List Summary) (first : Nat) : Bool :=
  inputs.all fun input => input.count = 0 || input = inputs.getD first {}

def totalCount (inputs : List Summary) : Nat := (inputs.map (·.count)).sum

def partChildren (parts : List ObjectTrie) (inputs : List Summary) (path : TriePrefix) :
    Option (List (Fin 256 → Summary)) :=
  (parts.zip inputs).mapM fun (part, input) =>
    if input.count = 0 then some fun _ => {} else part.children sha256 path

def mergeLeaf (parts : List ObjectTrie) (path : TriePrefix) (inputs : List Summary) :
    Option (Option UnionNode) := do
  let records ← mergedRecords sha256 parts path noLimit
  some (some (.leaf inputs (leafSummary sha256 records)))

/-- A hint's subtrees, where it worked them out. -/
def hintBelow : Option UnionNode → Fin 256 → Option UnionNode
  | some (.interior _ _ below) => below
  | _ => fun _ => none

def mergeSlots (merge : Fin 256 → Option (Option UnionNode)) :
    Option (Fin 256 → Option UnionNode) :=
  (finRange 256).foldlM
    (fun nodes x => do some (Function.update nodes x (← merge x))) fun _ => none

/-- The summary of a subtree of a union: none for nothing. -/
def nodeSummary (node : Option UnionNode) : Summary := (node.map UnionNode.summary).getD {}

/-- An interior node of the subtrees worked out, unless they are a leaf's worth. -/
def mergeInterior (parts : List ObjectTrie) (path : TriePrefix) (inputs : List Summary)
    (nodes : Fin 256 → Option UnionNode) : Option (Option UnionNode) :=
  let slots := fun x => nodeSummary (nodes x)
  if leafMax < ((finRange 256).map fun x => (slots x).count).sum then
    some (some (.interior inputs (interiorSummary sha256 slots) nodes))
  else mergeLeaf sha256 parts path inputs

/-- A subtree of the union, given how those a byte below are made. -/
def mergeNode (parts : List ObjectTrie)
    (merge : TriePrefix → List Summary → Option UnionNode → Option (Option UnionNode))
    (path : TriePrefix) (inputs : List Summary) (hint : Option UnionNode) :
    Option (Option UnionNode) :=
  if hint.any fun node => node.inputs = inputs then some hint
  else
    match firstHeld inputs with
    | none => some none
    | some first =>
      if heldAlike inputs first then
        some (some (.whole inputs (inputs.getD first {}) first))
      else if totalCount inputs ≤ leafMax then mergeLeaf sha256 parts path inputs
      else do
        let below ← partChildren sha256 parts inputs path
        let nodes ← mergeSlots fun x =>
          merge (path ++ [x]) (below.map fun slots => slots x) (hintBelow hint x)
        mergeInterior sha256 parts path inputs nodes

/-- `TrieUnion::merge`, `level` bytes above the end of the ids. -/
def merge (parts : List ObjectTrie) :
    Nat → TriePrefix → List Summary → Option UnionNode → Option (Option UnionNode)
  | 0 => mergeNode sha256 parts fun _ _ _ => none
  | level + 1 => mergeNode sha256 parts (merge parts level)

/-- The worked-out node a prefix falls in. -/
def findUnionNode : Option UnionNode → TriePrefix → Option UnionNode
  | some (.interior _ _ below), x :: path => findUnionNode (below x) path
  | node, _ => node

end

end Trie

structure TrieUnion where
  parts : List ObjectTrie
  root : Option Trie.UnionNode

namespace TrieUnion

open Trie

variable (sha256 : HashInput → Hash256)

def make (parts : List ObjectTrie) (hint : Option TrieUnion) : Option TrieUnion := do
  let root ← merge sha256 parts 32 [] (parts.map fun part => ⟨part.size, part.rootHash⟩)
    (hint.bind fun union => union.root)
  some ⟨parts, root⟩

def rootSummary (union : TrieUnion) : Summary := nodeSummary union.root

/-- The value of the first part that has one. -/
def getFrom (id : LedgerId) : List ObjectTrie → Option (Option ByteString)
  | [] => some none
  | part :: parts => do
    match ← part.get sha256 id with
    | some value => some (some value)
    | none => getFrom id parts

def get (union : TrieUnion) (id : LedgerId) : Option (Option ByteString) :=
  getFrom sha256 id union.parts

def part (union : TrieUnion) (i : Nat) : ObjectTrie := union.parts.getD i {}

def nodeChildren (union : TrieUnion) (path : TriePrefix) :
    Option UnionNode → Option (Fin 256 → Summary)
  | none => some fun _ => {}
  | some (.whole _ _ i) => (union.part i).children sha256 path
  | some (.interior _ _ below) => some fun x => nodeSummary (below x)
  | some (.leaf _ _) => do
    let records ← mergedRecords sha256 union.parts path noLimit
    some (slotSummaries sha256 path.length records)

def children (union : TrieUnion) (path : TriePrefix) : Option (Fin 256 → Summary) := do
  guard (path.length < 32)
  union.nodeChildren sha256 path (findUnionNode union.root path)

def nodeRecords (union : TrieUnion) (path : TriePrefix) (most : Nat) :
    Option UnionNode → Option (List TrieRecord)
  | none => some []
  | some (.whole _ _ i) => (union.part i).records sha256 path most
  | some (.interior _ summary _) => do
    guard (summary.count ≤ most)
    mergedRecords sha256 union.parts path most
  | some (.leaf _ _) => mergedRecords sha256 union.parts path most

def records (union : TrieUnion) (path : TriePrefix) (most : Nat) : Option (List TrieRecord) :=
  union.nodeRecords sha256 path most (findUnionNode union.root path)

end TrieUnion

namespace Trie

theorem SortedRecords.ext_find {records others : List TrieRecord} (h : SortedRecords records)
    (h' : SortedRecords others) (hfind : ∀ id, leafFind records id = leafFind others id) :
    records = others := by
  refine h.ext h' fun record => ?_
  rw [← leafFind_eq_some_iff h, ← leafFind_eq_some_iff h', hfind]

theorem mergeRecords_nil (out : List TrieRecord) : mergeRecords out [] = out := by
  cases out <;> rw [mergeRecords]
  simp

variable {out got : List TrieRecord}

theorem mem_mergeRecords (hout : SortedRecords out) (hgot : SortedRecords got)
    {record : TrieRecord} : record ∈ mergeRecords out got ↔
      record ∈ out ∨ record ∈ got ∧ ∀ held ∈ out, held.1 ≠ record.1 := by
  induction out, got using mergeRecords.induct with
  | case1 got => simp [mergeRecords]
  | case2 out _ => simp [mergeRecords_nil]
  | case3 a out b got hlt ih =>
    have habove := TrieDiff.lt_cons hgot hlt
    rw [mergeRecords, if_pos hlt, mem_cons, ih hout.tail hgot]
    constructor
    · rintro (rfl | hmem | ⟨hmem, hnone⟩)
      · exact .inl mem_cons_self
      · exact .inl (mem_cons_of_mem _ hmem)
      · exact .inr ⟨hmem, forall_mem_cons.2 ⟨(habove record hmem).ne, hnone⟩⟩
    · rintro (hmem | ⟨hmem, hnone⟩)
      · exact (mem_cons.1 hmem).imp_right .inl
      · exact .inr (.inr ⟨hmem, (forall_mem_cons.1 hnone).2⟩)
  | case4 a out b got hge hlt ih =>
    have habove := TrieDiff.lt_cons hout hlt
    rw [mergeRecords, if_neg hge, if_pos hlt, mem_cons, ih hout hgot.tail]
    constructor
    · rintro (rfl | hmem | ⟨hmem, hnone⟩)
      · exact .inr ⟨mem_cons_self, fun held hheld => (habove held hheld).ne'⟩
      · exact .inl hmem
      · exact .inr ⟨mem_cons_of_mem _ hmem, hnone⟩
    · rintro (hmem | ⟨hmem, hnone⟩)
      · exact .inr (.inl hmem)
      · exact (mem_cons.1 hmem).imp_right fun hmem => .inr ⟨hmem, hnone⟩
  | case5 a out b got hge hge' ih =>
    have hid : a.1 = b.1 := le_antisymm (not_lt.1 hge') (not_lt.1 hge)
    have habove := (pairwise_cons.1 hgot).1
    rw [mergeRecords, if_neg hge, if_neg hge', mem_cons, ih hout.tail hgot.tail]
    constructor
    · rintro (rfl | hmem | ⟨hmem, hnone⟩)
      · exact .inl mem_cons_self
      · exact .inl (mem_cons_of_mem _ hmem)
      · have hne : a.1 ≠ record.1 := hid ▸ (habove record hmem).ne
        exact .inr ⟨mem_cons_of_mem _ hmem, forall_mem_cons.2 ⟨hne, hnone⟩⟩
    · rintro (hmem | ⟨hmem, hnone⟩)
      · exact (mem_cons.1 hmem).imp_right .inl
      · obtain ⟨hne, hnone⟩ := forall_mem_cons.1 hnone
        rcases mem_cons.1 hmem with rfl | hmem
        · exact (hne hid).elim
        · exact .inr (.inr ⟨hmem, hnone⟩)

theorem sorted_mergeRecords (hout : SortedRecords out) (hgot : SortedRecords got) :
    SortedRecords (mergeRecords out got) := by
  induction out, got using mergeRecords.induct with
  | case1 got =>
    rw [mergeRecords]
    exact hgot
  | case2 out _ =>
    rw [mergeRecords_nil]
    exact hout
  | case3 a out b got hlt ih =>
    rw [mergeRecords, if_pos hlt]
    refine pairwise_cons.2 ⟨fun record hrecord => ?_, ih hout.tail hgot⟩
    rcases (mem_mergeRecords hout.tail hgot).1 hrecord with hmem | ⟨hmem, -⟩
    · exact (pairwise_cons.1 hout).1 record hmem
    · exact TrieDiff.lt_cons hgot hlt record hmem
  | case4 a out b got hge hlt ih =>
    rw [mergeRecords, if_neg hge, if_pos hlt]
    refine pairwise_cons.2 ⟨fun record hrecord => ?_, ih hout hgot.tail⟩
    rcases (mem_mergeRecords hout hgot.tail).1 hrecord with hmem | ⟨hmem, -⟩
    · exact TrieDiff.lt_cons hout hlt record hmem
    · exact (pairwise_cons.1 hgot).1 record hmem
  | case5 a out b got hge hge' ih =>
    have hid : a.1 = b.1 := le_antisymm (not_lt.1 hge') (not_lt.1 hge)
    rw [mergeRecords, if_neg hge, if_neg hge']
    refine pairwise_cons.2 ⟨fun record hrecord => ?_, ih hout.tail hgot.tail⟩
    rcases (mem_mergeRecords hout.tail hgot.tail).1 hrecord with hmem | ⟨hmem, -⟩
    · exact (pairwise_cons.1 hout).1 record hmem
    · rw [hid]
      exact (pairwise_cons.1 hgot).1 record hmem

theorem leafFind_mergeRecords (hout : SortedRecords out) (hgot : SortedRecords got)
    (id : LedgerId) :
    leafFind (mergeRecords out got) id = (leafFind out id).or (leafFind got id) := by
  refine Option.ext fun value => ?_
  rw [leafFind_eq_some_iff (sorted_mergeRecords hout hgot), mem_mergeRecords hout hgot]
  cases hfind : leafFind out id with
  | some held =>
    have hheld := (leafFind_eq_some_iff hout).1 hfind
    rw [Option.some_or, ← hfind, leafFind_eq_some_iff hout]
    refine ⟨fun h => ?_, .inl⟩
    rcases h with hmem | ⟨-, hnone⟩
    · exact hmem
    · exact (hnone _ hheld rfl).elim
  | none =>
    have hnone : ∀ held ∈ out, held.1 ≠ id := by
      intro held hheld heq
      have hfound : leafFind out id = some held.2 :=
        (leafFind_eq_some_iff hout).2 (by rw [← heq]; exact hheld)
      rw [hfind] at hfound
      cases hfound
    rw [Option.none_or, leafFind_eq_some_iff hgot]
    refine ⟨fun h => ?_, fun hmem => .inr ⟨hmem, hnone⟩⟩
    rcases h with hmem | ⟨hmem, -⟩
    · exact (hnone _ hmem rfl).elim
    · exact hmem

/-- The records of some parts, the first's value of each id. -/
def unionOf (recs : List (List TrieRecord)) : List TrieRecord := recs.foldl mergeRecords []

def AllSorted (recs : List (List TrieRecord)) : Prop := ∀ records ∈ recs, SortedRecords records

theorem unionOf_concat (recs : List (List TrieRecord)) (records : List TrieRecord) :
    unionOf (recs ++ [records]) = mergeRecords (unionOf recs) records := by
  simp [unionOf]

variable {recs : List (List TrieRecord)}

theorem sorted_unionOf (h : AllSorted recs) : SortedRecords (unionOf recs) := by
  induction recs using reverseRecOn with
  | nil => exact List.Pairwise.nil
  | append_singleton recs records ih =>
    rw [unionOf_concat]
    exact sorted_mergeRecords (ih fun r hr => h r (mem_append_left _ hr))
      (h records (mem_append_right _ (mem_singleton.2 rfl)))

theorem leafFind_unionOf (h : AllSorted recs) (id : LedgerId) :
    leafFind (unionOf recs) id = recs.findSome? fun records => leafFind records id := by
  induction recs using reverseRecOn with
  | nil => rfl
  | append_singleton recs records ih =>
    have hinit : AllSorted recs := fun r hr => h r (mem_append_left _ hr)
    rw [unionOf_concat, leafFind_mergeRecords (sorted_unionOf hinit)
      (h records (mem_append_right _ (mem_singleton.2 rfl))), ih hinit,
      findSome?_append]
    simp

theorem findSome_congr {α β : Type} {f g : α → Option β} {list : List α}
    (h : ∀ x ∈ list, f x = g x) : list.findSome? f = list.findSome? g := by
  induction list with
  | nil => rfl
  | cons x list ih =>
    rw [findSome?_cons, findSome?_cons, h x mem_cons_self,
      ih fun y hy => h y (mem_cons_of_mem _ hy)]

theorem AllSorted.below (h : AllSorted recs) (path : TriePrefix) :
    AllSorted (recs.map (below path)) := by
  intro records hrecords
  obtain ⟨held, hheld, rfl⟩ := List.mem_map.1 hrecords
  exact (h held hheld).below path

theorem below_unionOf (h : AllSorted recs) (path : TriePrefix) :
    below path (unionOf recs) = unionOf (recs.map (below path)) := by
  refine ((sorted_unionOf h).below path).ext_find (sorted_unionOf (h.below path)) fun id => ?_
  rw [leafFind_unionOf (h.below path), findSome?_map]
  by_cases hid : path <+: id.val
  · rw [TrieDiff.leafFind_below (sorted_unionOf h) hid, leafFind_unionOf h]
    refine findSome_congr fun records hrecords => ?_
    exact (TrieDiff.leafFind_below (h records hrecords) hid).symm
  · rw [TrieDiff.leafFind_below_of_not (sorted_unionOf h) hid]
    refine (findSome?_eq_none_iff.2 fun records hrecords => ?_).symm
    exact TrieDiff.leafFind_below_of_not (h records hrecords) hid

end Trie

end Macha
