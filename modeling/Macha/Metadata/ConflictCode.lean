import Macha.Library.PrefixCode
import Macha.Metadata.Snapshot

/-!
# A conflict id without collisions

The id of a conflict is the digest of its encoding. The proofs assume only that
two records do not share one; the code below is such a function.
-/

namespace Macha

def bytesCode : PrefixCode ByteString := PrefixCode.nat.list

def dotCode : PrefixCode MetadataDot :=
  (PrefixCode.nat.pair .nat).lift (fun d => (d.author, d.sequence)) fun a b h => by
    cases a; cases b
    simpa using h

def provenanceCode : PrefixCode EntryProvenance :=
  (PrefixCode.nat.pair (dotCode.pair dotCode)).lift (fun p => (p.fileId, p.content, p.name))
    fun a b h => by
      cases a; cases b
      simpa using h

def extentCode : PrefixCode ExtentRef :=
  ((PrefixCode.nat.pair .nat).pair (bytesCode.pair .bool)).lift
    (fun x => ((x.offset, x.length), x.id, x.hole)) fun a b h => by
      cases a; cases b
      simp_all

def entryCode : PrefixCode FsEntry :=
  ((bytesCode.pair (PrefixCode.int.pair .int)).pair (extentCode.list.pair provenanceCode)).lift
    (fun e => (([e.type.value, e.mode, e.uid, e.gid, e.size, e.version], e.ctimeNs, e.mtimeNs),
      e.extents, e.provenance)) fun a b h => by
        cases a; cases b
        simp only [Prod.mk.injEq, List.cons.injEq, and_true] at h
        obtain ⟨⟨⟨htype, hmode, huid, hgid, hsize, hversion⟩, hctime, hmtime⟩, hextents, hprov⟩ := h
        have htype' := EntryType.value_injective htype
        subst hmode huid hgid hsize hversion hctime hmtime hextents hprov htype'
        rfl

def MetadataConflictKind.value : MetadataConflictKind → Nat
  | namespaceEntry => 0
  | catalogueRoot => 1

def conflictCode : PrefixCode MetadataConflict :=
  (((PrefixCode.nat.pair .bool).pair (dotCode.pair (bytesCode.pair (bytesCode.pair bytesCode)))).pair
    ((entryCode.option.pair (entryCode.option.pair entryCode.option)).pair
      (bytesCode.option.pair (bytesCode.option.pair bytesCode.option)))).lift
    (fun c => (((c.kind.value, c.laterInstalled), c.installedDot, c.key, c.leftHead, c.rightHead),
      (c.baseEntry, c.leftEntry, c.rightEntry),
      c.baseCatalogueRoot, c.leftCatalogueRoot, c.rightCatalogueRoot)) fun a b h => by
        obtain ⟨ka, _, _, _, _, _, _, _, _, _, _, _⟩ := a
        obtain ⟨kb, _, _, _, _, _, _, _, _, _, _, _⟩ := b
        cases ka <;> cases kb <;> simp_all [MetadataConflictKind.value]

/-- An id no two conflicts share. -/
def conflictTokens : MetadataConflict → ByteString := conflictCode.tokens

theorem conflictTokens_injective : Function.Injective conflictTokens :=
  conflictCode.tokens_injective

end Macha
