import Macha.Ledger.TrieShape

/-!
# The object trie

The trie in memory over its node file. A subtree is built from its records,
changed by the changes below it, gathered again into a leaf when it shrinks, and
saved: its unsaved nodes appended to the node file, children first. A saved node
is read back when a lookup reaches it and checked against its parent.

Byte counts decide when the trie checkpoints and rewrites its node file, and a
cache keeps nodes read; here either may follow any call, and nodes are always
read. An offset is the place of a frame in the node file.
-/

namespace Macha

open List

namespace Trie

mutual

inductive Node
  | leaf (depth : Nat) (records : List TrieRecord)
  | interior (depth : Nat) (children : Fin 256 → Child)

/-- A slot in an interior node, or the root: where the subtree is saved, what it
holds, and the subtree itself while it is in memory. -/
inductive Child
  | mk (offset : Option Nat) (count : Nat) (hash : Hash256) (node : Option Node)

end

namespace Child

def offset : Child → Option Nat
  | .mk offset _ _ _ => offset

def count : Child → Nat
  | .mk _ count _ _ => count

def hash : Child → Hash256
  | .mk _ _ hash _ => hash

def node : Child → Option Node
  | .mk _ _ _ node => node

def summary (child : Child) : Summary := ⟨child.count, child.hash⟩

def empty : Child := .mk none 0 Hash256.zero none

def unloaded : Child → Child
  | .mk (some offset) count hash _ => .mk (some offset) count hash none
  | child => child

end Child

structure SavedChild where
  offset : Nat
  count : Nat
  hash : Hash256

inductive NodeImage
  | leaf (depth : Nat) (records : List TrieRecord)
  | interior (depth : Nat) (children : Fin 256 → Option SavedChild)

/-- The frames of a node file; nothing is read from one that a crash cut. -/
abbrev NodeFile := List (Option NodeImage)

section

variable (sha256 : HashInput → Hash256)

def Node.summary : Node → Summary
  | .leaf _ records => leafSummary sha256 records
  | .interior _ children => interiorSummary sha256 fun x => (children x).summary

def childOf (node : Node) : Child :=
  .mk none (node.summary sha256).count (node.summary sha256).hash (some node)

end

/-- The slot of a child that is saved: none for an empty one. -/
def savedChild (child : Child) : Option SavedChild :=
  if child.count = 0 then none
  else child.offset.map fun offset => ⟨offset, child.count, child.hash⟩

/-- Throws where a child is not saved. -/
def encode : Node → Option NodeImage
  | .leaf depth records => some (.leaf depth records)
  | .interior depth children => do
    guard (∀ x, (children x).count ≠ 0 → (children x).offset.isSome = true)
    some (.interior depth fun x => savedChild (children x))

def decodeChild : Option SavedChild → Child
  | some saved => .mk (some saved.offset) saved.count saved.hash none
  | none => .empty

def decode : NodeImage → Option Node
  | .leaf depth records => do
    guard (depth < 32)
    guard (records.length ≠ 0 ∧ records.length ≤ leafMax)
    guard (∀ record ∈ records, record.2.length ≤ valueMax)
    guard (records.Pairwise fun a b => a.1 < b.1)
    some (.leaf depth records)
  | .interior depth children => do
    guard (depth < 32)
    guard (∀ x, children x = none ∨ (decodeChild (children x)).count ≠ 0)
    guard (leafMax < ((finRange 256).map fun x => (decodeChild (children x)).count).sum)
    some (.interior depth fun x => decodeChild (children x))

section

variable (sha256 : HashInput → Hash256)

/-- The node of a child: the one in memory, or the one saved, if it matches. -/
def load (file : NodeFile) (child : Child) : Option Node :=
  match child.node with
  | some node => some node
  | none => do
    guard (child.count ≠ 0)
    let offset ← child.offset
    let image ← file[offset]?.join
    let node ← decode image
    guard (node.summary sha256 = child.summary)
    some node

/-- What is read of a child: nothing of an empty one, and of another its node. -/
def visit {α : Type} (file : NodeFile) (child : Child) (nothing : α) (read : Node → Option α) :
    Option α :=
  if child.count = 0 then some nothing else (load sha256 file child).bind read

/-- The subtree of sorted records, `level` bytes above the end of their ids. -/
def build : Nat → List TrieRecord → Option Child
  | 0, records =>
    if records.isEmpty then some .empty
    else if records.length ≤ leafMax then some (childOf sha256 (.leaf 32 records))
    else none
  | level + 1, records =>
    if records.isEmpty then some .empty
    else if records.length ≤ leafMax then some (childOf sha256 (.leaf (31 - level) records))
    else do
      let children ← assignRuns (fun _ _ group => build level group) (fun _ => .empty)
        (runs (slot (31 - level)) records)
      some (childOf sha256 (.interior (31 - level) children))

/-- The records of a leaf with sorted changes made to them. -/
def mergeChanges : List TrieRecord → List LedgerChange → List TrieRecord
  | old, [] => old
  | old, change :: changes =>
    let rest := old.dropWhile fun record => record.1 < change.id
    old.takeWhile (fun record => record.1 < change.id) ++
      (change.value.map fun value => (change.id, value)).toList ++
      mergeChanges (if (rest.head?.map (·.1)) = some change.id then rest.tail else rest) changes

def gatherNode (below : Child → Option (List TrieRecord)) : Node → Option (List TrieRecord)
  | .leaf _ records => some records
  | .interior _ children =>
    (finRange 256).foldlM (fun out x => do some (out ++ (← below (children x)))) []

def gather (file : NodeFile) : Nat → Child → Option (List TrieRecord)
  | 0, child => visit sha256 file child [] (gatherNode fun _ => none)
  | level + 1, child => visit sha256 file child [] (gatherNode (gather file level))

def changeSlot (depth : Nat) (change : LedgerChange) : Fin 256 := byteAt change.id depth

/-- Changes made to an interior node, given how they are made to its children and
how these are gathered. -/
def mutateInterior (level : Nat) (below : Child → List LedgerChange → Option Child)
    (gathered : Child → Option (List TrieRecord)) (children : Fin 256 → Child)
    (changes : List LedgerChange) : Option Child := do
  let children ← assignRuns (fun _ child group => below child group) children
    (runs (changeSlot (32 - level)) changes)
  if ((finRange 256).map fun x => (children x).count).sum ≤ leafMax then
    let all ← (finRange 256).foldlM
      (fun out x => do some (out ++ (← gathered (children x)))) []
    build sha256 level all
  else some (childOf sha256 (.interior (32 - level) children))

def mutateNode (level : Nat) (below : Child → List LedgerChange → Option Child)
    (gathered : Child → Option (List TrieRecord)) (changes : List LedgerChange) :
    Node → Option Child
  | .leaf _ old => build sha256 level (mergeChanges old changes)
  | .interior _ children => mutateInterior sha256 level below gathered children changes

def mutate (file : NodeFile) : Nat → Child → List LedgerChange → Option Child
  | 0, child, changes =>
    if changes.isEmpty then some child
    else if child.count = 0 then build sha256 0 (mergeChanges [] changes)
    else (load sha256 file child).bind
      (mutateNode sha256 0 (fun _ _ => none) (fun _ => none) changes)
  | level + 1, child, changes =>
    if changes.isEmpty then some child
    else if child.count = 0 then build sha256 (level + 1) (mergeChanges [] changes)
    else (load sha256 file child).bind
      (mutateNode sha256 (level + 1) (mutate file level) (gather sha256 file level) changes)

def append (node : Node) (file : NodeFile) : Option (Child × NodeFile) := do
  let image ← encode node
  some (.mk (some file.length) (node.summary sha256).count (node.summary sha256).hash none,
    file ++ [some image])

def saveChildren (below : Child → NodeFile → Option (Child × NodeFile))
    (children : Fin 256 → Child) (file : NodeFile) : Option ((Fin 256 → Child) × NodeFile) :=
  (finRange 256).foldlM
    (fun (children, file) x => do
      let (saved, file) ← below (children x) file
      some (Function.update children x saved.unloaded, file))
    (children, file)

def saveNode (below : Child → NodeFile → Option (Child × NodeFile)) (file : NodeFile) :
    Node → Option (Child × NodeFile)
  | .leaf depth records => append sha256 (.leaf depth records) file
  | .interior depth children => do
    let (children, file) ← saveChildren below children file
    append sha256 (.interior depth children) file

/-- The unsaved nodes of a subtree appended, children first. -/
def save : Nat → Child → NodeFile → Option (Child × NodeFile)
  | 0, child, file =>
    if child.count = 0 ∨ child.offset.isSome = true then some (child, file)
    else child.node.bind (saveNode sha256 (fun _ _ => none) file)
  | level + 1, child, file =>
    if child.count = 0 ∨ child.offset.isSome = true then some (child, file)
    else child.node.bind (saveNode sha256 (save level) file)

def copyNode (below : Child → Option Child) : Node → Option Child
  | .leaf depth records => some (childOf sha256 (.leaf depth records))
  | .interior depth children => do
    let copies ← (finRange 256).foldlM
      (fun (copies : Fin 256 → Child) x => do
        some (Function.update copies x (← below (children x))))
      (fun _ => .empty)
    some (childOf sha256 (.interior depth copies))

def copy (file : NodeFile) : Nat → Child → Option Child
  | 0, child => visit sha256 file child .empty (copyNode sha256 fun _ => none)
  | level + 1, child => visit sha256 file child .empty (copyNode sha256 (copy file level))

def leafFind (records : List TrieRecord) (id : LedgerId) : Option ByteString :=
  match (records.dropWhile fun record => record.1 < id).head? with
  | some record => if record.1 = id then some record.2 else none
  | none => none

def findNode (below : Child → Option (Option ByteString)) (id : LedgerId) :
    Node → Option (Option ByteString)
  | .leaf _ records => some (leafFind records id)
  | .interior depth children => below (children (byteAt id depth))

def find (file : NodeFile) (id : LedgerId) : Nat → Child → Option (Option ByteString)
  | 0, child => visit sha256 file child none (findNode (fun _ => none) id)
  | level + 1, child => visit sha256 file child none (findNode (find file id level) id)

def leafCollect (after : Option LedgerId) (limit : Nat) (out : List TrieRecord)
    (records : List TrieRecord) : List TrieRecord :=
  records.foldl
    (fun out record =>
      if limit ≤ out.length then out
      else if after.any fun id => !decide (id < record.1) then out
      else out ++ [record])
    out

def collectNode (below : Child → Option LedgerId → List TrieRecord → Option (List TrieRecord))
    (limit : Nat) (after : Option LedgerId) (out : List TrieRecord) :
    Node → Option (List TrieRecord)
  | .leaf _ records => some (leafCollect after limit out records)
  | .interior depth children =>
    let start := (after.map fun id => byteAt id depth).getD 0
    (finRange 256).foldlM
      (fun out x =>
        if x < start ∨ limit ≤ out.length then some out
        else below (children x) (if x = start then after else none) out)
      out

/-- Records after an id where there is one, in order. -/
def collect (file : NodeFile) (limit : Nat) : Nat → Child → Option LedgerId →
    List TrieRecord → Option (List TrieRecord)
  | 0, child, after, out =>
    if limit ≤ out.length then some out
    else visit sha256 file child out (collectNode (fun _ _ _ => none) limit after out)
  | level + 1, child, after, out =>
    if limit ≤ out.length then some out
    else visit sha256 file child out (collectNode (collect file limit level) limit after out)

def descendNode (below : Child → Option (Option Node)) (path : TriePrefix) :
    Node → Option (Option Node)
  | .leaf depth records => some (some (.leaf depth records))
  | .interior depth children =>
    if depth < path.length then below (children (path.getD depth 0))
    else some (some (.interior depth children))

/-- The node covering a prefix: interior at its depth, or the leaf that holds
everything below it; none when nothing is below it. -/
def descend (file : NodeFile) (path : TriePrefix) : Nat → Child → Option (Option Node)
  | 0, child => visit sha256 file child none (descendNode (fun _ => none) path)
  | level + 1, child => visit sha256 file child none (descendNode (descend file path level) path)

/-- The leaves of sorted records, one for each byte they have at a depth. -/
def slotSummaries (depth : Nat) (records : List TrieRecord) : Fin 256 → Summary :=
  (runs (slot depth) records).foldl
    (fun slots part => Function.update slots part.1 (leafSummary sha256 part.2)) fun _ => {}

/-- The subtrees of a leaf's own records one byte below a prefix. -/
def leafChildren (path : TriePrefix) (records : List TrieRecord) : Fin 256 → Summary :=
  slotSummaries sha256 path.length (below path records)

/-- The subtrees a byte below a prefix, of the node that covers it. -/
def nodeChildren (path : TriePrefix) : Option Node → Fin 256 → Summary
  | none => fun _ => {}
  | some (.interior _ children) => fun x => (children x).summary
  | some (.leaf _ records) => leafChildren sha256 path records

def children (file : NodeFile) (root : Child) (path : TriePrefix) : Option (Fin 256 → Summary) :=
  if root.count = 0 then some fun _ => {}
  else do
    guard (path.length < 32)
    let node ← descend sha256 file path 32 root
    some (nodeChildren sha256 path node)

/-- The records below a prefix, of the node that covers it: throws for more than
`most` below an interior node. -/
def nodeRecords (file : NodeFile) (path : TriePrefix) (most : Nat) :
    Option Node → Option (List TrieRecord)
  | none => some []
  | some (.leaf _ records) => some (below path records)
  | some (.interior depth children) => do
    let whole := childOf sha256 (.interior depth children)
    guard (whole.count ≤ most)
    collect sha256 file whole.count (32 - path.length) whole none []

def records (file : NodeFile) (root : Child) (path : TriePrefix) (most : Nat) :
    Option (List TrieRecord) :=
  if root.count = 0 then some []
  else (descend sha256 file path 32 root).bind (nodeRecords sha256 file path most)

end

end Trie

structure ObjectTrie where
  root : Trie.Child := .empty
  nodes : Trie.NodeFile := []

namespace ObjectTrie

variable (sha256 : Trie.HashInput → Hash256)

/-- The saved root with its node read back. -/
def reload (saved : Trie.Child) (nodes : Trie.NodeFile) : Option ObjectTrie := do
  if saved.count = 0 then some ⟨saved, nodes⟩
  else
    let node ← Trie.load sha256 nodes saved.unloaded
    some ⟨.mk saved.offset saved.count saved.hash (some node), nodes⟩

/-- Every node copied into a new node file. -/
def rewrite (trie : ObjectTrie) : Option ObjectTrie := do
  let (saved, nodes) ← Trie.save sha256 32 (← Trie.copy sha256 trie.nodes 32 trie.root) []
  reload sha256 saved nodes

/-- The unsaved nodes folded into the node file, perhaps rewritten. -/
def checkpoint (trie : ObjectTrie) (rewrites : Bool) : Option ObjectTrie := do
  let (saved, nodes) ← Trie.save sha256 32 trie.root trie.nodes
  let trie ← reload sha256 saved nodes
  if rewrites then trie.rewrite sha256 else some trie

/-- What a call does beyond its changes, as byte counts have it. -/
inductive Due
  | nothing
  | checkpoint (rewrites : Bool)
deriving DecidableEq

def checkpointIf (trie : ObjectTrie) : Due → Option ObjectTrie
  | .nothing => some trie
  | .checkpoint rewrites => trie.checkpoint sha256 rewrites

def install (trie : ObjectTrie) (changes : List LedgerChange) (due : Due) : Option ObjectTrie :=
  if changes.isEmpty then some trie
  else do
    let root ← Trie.mutate sha256 trie.nodes 32 trie.root changes
    checkpointIf sha256 { trie with root := root } due

/-- What `write` accepts of a change. -/
def fits (change : LedgerChange) : Bool :=
  change.value.all fun value => decide (value.length ≤ Trie.valueMax)

/-- Journals the changes and applies them; nothing is applied where `write` throws. -/
def apply (trie : ObjectTrie) (input : List LedgerChange) (journalled : Bool) (due : Due) :
    Option ObjectTrie :=
  if (Ledger.sortUnique input).all fits && journalled then
    trie.install sha256 (Ledger.sortUnique input) due
  else some trie

def replaceAll (trie : ObjectTrie) (records : List TrieRecord) (rewrites : Bool) :
    Option ObjectTrie := do
  let root ← Trie.build sha256 32 records
  checkpoint sha256 { trie with root := root } rewrites

def get (trie : ObjectTrie) (id : LedgerId) : Option (Option ByteString) :=
  Trie.find sha256 trie.nodes id 32 trie.root

def next (trie : ObjectTrie) (after : Option LedgerId) (limit : Nat) : Option (List TrieRecord) :=
  Trie.collect sha256 trie.nodes limit 32 trie.root after []

def size (trie : ObjectTrie) : Nat := trie.root.count

def rootHash (trie : ObjectTrie) : Hash256 := trie.root.hash

def children (trie : ObjectTrie) (path : TriePrefix) : Option (Fin 256 → Trie.Summary) :=
  Trie.children sha256 trie.nodes trie.root path

def records (trie : ObjectTrie) (path : TriePrefix) (most : Nat) : Option (List TrieRecord) :=
  Trie.records sha256 trie.nodes trie.root path most

def scratch (held : LedgerRecords) : Option ObjectTrie := do
  some { root := ← Trie.build sha256 32 held.toList }

end ObjectTrie

end Macha
