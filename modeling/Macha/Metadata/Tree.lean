import Macha.Metadata.Types

/-!
# The namespace tree

A content-addressed Merkle tree over the namespace, keyed by path. Leaves hold
entries in path order; an entry with many extents has them in a sequence of
nodes of its own, its extent spine. A node is read by its address, and what a
reader of `namespace_tree.cpp` decodes from its bytes is a `TreeNode`; bytes
that do not decode are no node.
-/

namespace Macha

/-- A spine node's child; `items` counts what is beneath it. The first key is
empty in an extent spine. -/
structure TreeChild where
  firstKey : ByteString := []
  id : ObjectId
  items : Nat := 0
deriving DecidableEq, Repr

/-- How a leaf record has its entry's extents. -/
inductive ExtentForm
  | none
  | inlined (extents : List ExtentRef)
  | external (count : Nat) (root : ObjectId)
deriving DecidableEq, Repr

/-- A leaf record: the path, the entry without its extents, and those. -/
structure LeafRecord where
  key : ByteString
  stat : FsEntry
  extents : ExtentForm
deriving DecidableEq, Repr

/-- The root of the record's extent spine. -/
def LeafRecord.extentRoot (record : LeafRecord) : Option ObjectId :=
  match record.extents with
  | .external _ root => some root
  | _ => none

/-- The four kinds of node, by their magic. -/
inductive TreeNode
  | leaf (records : List LeafRecord)
  | branch (level : Nat) (children : List TreeChild)
  | extentLeaf (extents : List ExtentRef)
  | extentBranch (level : Nat) (children : List TreeChild)
deriving DecidableEq, Repr

/-- `NamespaceNodeStore::get`, decoded. -/
abbrev NodeStore := ObjectId → Option TreeNode

namespace TreeNode

def children : TreeNode → List ObjectId
  | leaf records => records.filterMap LeafRecord.extentRoot
  | branch _ children => children.map TreeChild.id
  | extentLeaf _ => []
  | extentBranch _ children => children.map TreeChild.id

end TreeNode

section

variable (store : NodeStore)

def NodeNames (parent child : ObjectId) : Prop :=
  ∃ node, store parent = some node ∧ child ∈ node.children

/-- The node is reachable from the root, through nodes that can be read. -/
def Reaches : ObjectId → ObjectId → Prop := Relation.ReflTransGen (NodeNames store)

inductive SpineReadable : ObjectId → Prop
  | leaf {id : ObjectId} {extents : List ExtentRef} (h : store id = some (.extentLeaf extents)) :
      SpineReadable id
  | branch {id : ObjectId} {level : Nat} {children : List TreeChild}
      (h : store id = some (.extentBranch level children))
      (hchildren : ∀ c ∈ children, SpineReadable c.id) : SpineReadable id

/-- A tree all of whose nodes can be read, extent spines included. -/
inductive TreeReadable : ObjectId → Prop
  | leaf {id : ObjectId} {records : List LeafRecord} (h : store id = some (.leaf records))
      (hspines : ∀ r ∈ records, ∀ root, r.extentRoot = some root → SpineReadable store root) :
      TreeReadable id
  | branch {id : ObjectId} {level : Nat} {children : List TreeChild}
      (h : store id = some (.branch level children))
      (hchildren : ∀ c ∈ children, TreeReadable c.id) : TreeReadable id

variable {store}

theorem Reaches.of_child {id child n : ObjectId} {node : TreeNode} (h : store id = some node)
    (hchild : child ∈ node.children) (hn : Reaches store child n) : Reaches store id n :=
  Relation.ReflTransGen.head ⟨node, h, hchild⟩ hn

theorem Reaches.cases {id n : ObjectId} {node : TreeNode} (h : store id = some node)
    (hn : Reaches store id n) : n = id ∨ ∃ child ∈ node.children, Reaches store child n := by
  rcases Relation.ReflTransGen.cases_head hn with heq | ⟨child, ⟨node', h', hchild⟩, hn⟩
  · exact .inl heq.symm
  · rw [h] at h'
    cases h'
    exact .inr ⟨child, hchild, hn⟩

end

end Macha
