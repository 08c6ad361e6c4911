import Macha.Library.OrdMap

/-!
# Metadata values

The records of `metadata.hpp` and `types.hpp`, field for field and in the
order the defaulted `operator<=>` compares them. Machine integers are numbers.
What only counts up, as the version of an entry or a sequence, is assumed to stay
below its bound; the differences that wrap and the casts that truncate are
written out where the source makes them.
-/

namespace Macha

/-- `std::string` and `Bytes`, ordered lexicographically. The digits are not
bounded by 256: a content address that never collides needs unboundedly many
values, and nothing else here depends on the bound. -/
abbrev ByteString := List Nat

-- Every definition over byte strings takes these by name.
instance ByteString.transCmp : Std.TransCmp (@compare ByteString LinearOrder.toOrd) :=
  inferInstance

instance ByteString.lawfulBEq : LawfulBEq ByteString := inferInstance

/-- The bytes of an ASCII literal. -/
def bytes (s : String) : ByteString := s.toList.map Char.toNat

/-- Sixteen bytes, read as the number they spell; `NodeId{}` is zero. -/
abbrev NodeId := Nat

abbrev Hash256 := ByteString

abbrev ObjectId := Hash256

/-- `Hash256{}`. -/
def Hash256.zero : Hash256 := List.replicate 32 0

/-- `std::optional` orders the empty value first. -/
def optionKey {α : Type} (x : Option α) : WithBot α := x

/-- `NodeInfo`, without the generation and the write floor it advertises. -/
structure NodeInfo where
  id : NodeId
  host : ByteString := []
  failureDomain : ByteString := []
  port : Nat := 0
  capacity : Nat := 0
  used : Nat := 0
  seenUnixMs : Nat := 0
  flags : Nat := 3
deriving DecidableEq, Repr

/-- One mutation of one author. Sequence zero is no dot. -/
structure MetadataDot where
  author : NodeId := 0
  sequence : Nat := 0
deriving DecidableEq, Repr

namespace MetadataDot

/-- `explicit operator bool`. -/
def isSet (dot : MetadataDot) : Bool := dot.sequence != 0

def key (dot : MetadataDot) : Nat ×ₗ Nat := toLex (dot.author, dot.sequence)

theorem key_injective : Function.Injective key := by
  intro a b h
  cases a; cases b
  simpa [key] using h

instance : LinearOrder MetadataDot := LinearOrder.lift' key key_injective

end MetadataDot

/-- The highest sequence incorporated per author. -/
abbrev VersionClock := OrdMap NodeId Nat

/-- Whether a head with this clock has incorporated the mutation. -/
def clockCovers (clock : VersionClock) (dot : MetadataDot) : Bool :=
  match clock[dot.author]? with
  | some sequence => decide (dot.sequence ≤ sequence)
  | none => false

/-- Where an entry came from: its identity, its last change of content or
attributes, and when it came to be at its path. -/
structure EntryProvenance where
  fileId : NodeId := 0
  content : MetadataDot := {}
  name : MetadataDot := {}
deriving DecidableEq, Repr

namespace EntryProvenance

def empty (p : EntryProvenance) : Bool :=
  p.fileId == 0 && !p.content.isSet && !p.name.isSet

def key (p : EntryProvenance) : NodeId ×ₗ MetadataDot ×ₗ MetadataDot :=
  toLex (p.fileId, toLex (p.content, p.name))

theorem key_injective : Function.Injective key := by
  intro a b h
  cases a; cases b
  simpa [key] using h

instance : LinearOrder EntryProvenance := LinearOrder.lift' key key_injective

end EntryProvenance

inductive EntryType where
  | directory
  | file
deriving DecidableEq, Repr

namespace EntryType

def value : EntryType → Nat
  | directory => 1
  | file => 2

theorem value_injective : Function.Injective value := by
  intro a b h
  cases a <;> cases b <;> simp_all [value]

instance : LinearOrder EntryType := LinearOrder.lift' value value_injective

end EntryType

structure ExtentRef where
  offset : Nat := 0
  length : Nat := 0
  id : ObjectId := Hash256.zero
  hole : Bool := false
deriving DecidableEq, Repr

namespace ExtentRef

def key (x : ExtentRef) : Nat ×ₗ Nat ×ₗ ObjectId ×ₗ Bool :=
  toLex (x.offset, toLex (x.length, toLex (x.id, x.hole)))

theorem key_injective : Function.Injective key := by
  intro a b h
  cases a; cases b
  simpa [key] using h

instance : LinearOrder ExtentRef := LinearOrder.lift' key key_injective

end ExtentRef

structure FsEntry where
  type : EntryType := .file
  mode : Nat := 0o644
  uid : Nat := 0
  gid : Nat := 0
  size : Nat := 0
  ctimeNs : Int := 0
  mtimeNs : Int := 0
  version : Nat := 1
  extents : List ExtentRef := []
  provenance : EntryProvenance := {}
deriving DecidableEq, Repr

namespace FsEntry

/-- The stat fields, in the order they are compared. -/
def statKey (e : FsEntry) : EntryType ×ₗ Nat ×ₗ Nat ×ₗ Nat ×ₗ Nat ×ₗ Int ×ₗ Int ×ₗ Nat :=
  toLex (e.type, toLex (e.mode, toLex (e.uid, toLex (e.gid,
    toLex (e.size, toLex (e.ctimeNs, toLex (e.mtimeNs, e.version)))))))

def key (e : FsEntry) :
    (EntryType ×ₗ Nat ×ₗ Nat ×ₗ Nat ×ₗ Nat ×ₗ Int ×ₗ Int ×ₗ Nat) ×ₗ List ExtentRef ×ₗ
      EntryProvenance :=
  toLex (e.statKey, toLex (e.extents, e.provenance))

theorem key_injective : Function.Injective key := by
  intro a b h
  cases a; cases b
  simp only [key, statKey, EmbeddingLike.apply_eq_iff_eq, Prod.mk.injEq] at h
  simp_all

instance : LinearOrder FsEntry := LinearOrder.lift' key key_injective

def isDirectory (e : FsEntry) : Bool := e.type == .directory

end FsEntry

abbrev NamespaceEntries := OrdMap ByteString FsEntry

end Macha
