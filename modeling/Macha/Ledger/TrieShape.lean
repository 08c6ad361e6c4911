import Macha.Library.Runs
import Macha.Ledger.Records

/-!
# The shape of an object trie

Records are kept in a trie over the bytes of their ids. A subtree of more than
`leafMax` records branches on the next byte; a smaller one is a leaf of sorted
records. What a subtree sums up as, its count and hash, is a function of the
records below its prefix, and tells them.
-/

namespace Macha

open List

abbrev TrieRecord := LedgerId × ByteString

/-- `ObjectTrie::Prefix`: the first bytes of an id. -/
abbrev TriePrefix := List (Fin 256)

namespace Trie

def leafMax : Nat := 128

def valueMax : Nat := 16 * 1024

def byteAt (id : LedgerId) (depth : Nat) : Fin 256 := id.val.getD depth 0

def covers (path : TriePrefix) (id : LedgerId) : Bool := path.isPrefixOf id.val

def below (path : TriePrefix) (records : List TrieRecord) : List TrieRecord :=
  records.filter fun record => covers path record.1

def slot (depth : Nat) (record : TrieRecord) : Fin 256 := byteAt record.1 depth

def SortedRecords (records : List TrieRecord) : Prop :=
  records.Pairwise fun a b => a.1 < b.1

def AllBelow (path : TriePrefix) (records : List TrieRecord) : Prop :=
  ∀ record ∈ records, path <+: record.1.val

theorem append_lt_append_iff (front : List (Fin 256)) (a b : List (Fin 256)) :
    front ++ a < front ++ b ↔ a < b := by
  induction front with
  | nil => exact Iff.rfl
  | cons x front ih =>
    simp [ih]

section

variable {path : TriePrefix} {a b : LedgerId}

section

variable (hshort : path.length < 32)

include hshort

theorem exists_split (ha : path <+: a.val) :
    ∃ rest, a.val = path ++ byteAt a path.length :: rest := by
  obtain ⟨rest, hrest⟩ := ha
  cases rest with
  | nil =>
    have hlength := a.property
    rw [← hrest, append_nil] at hlength
    omega
  | cons x rest =>
    refine ⟨rest, ?_⟩
    simp [byteAt, ← hrest]

theorem byteAt_le_of_lt (ha : path <+: a.val) (hb : path <+: b.val) (hlt : a < b) :
    byteAt a path.length ≤ byteAt b path.length := by
  obtain ⟨s, hs⟩ := exists_split hshort ha
  obtain ⟨t, ht⟩ := exists_split hshort hb
  have hlt : a.val < b.val := hlt
  rw [hs, ht, append_lt_append_iff, cons_lt_cons_iff] at hlt
  rcases hlt with hlt | ⟨heq, -⟩
  · exact hlt.le
  · exact heq.le

theorem lt_of_byteAt_lt (ha : path <+: a.val) (hb : path <+: b.val)
    (hlt : byteAt a path.length < byteAt b path.length) : a < b := by
  obtain ⟨s, hs⟩ := exists_split hshort ha
  obtain ⟨t, ht⟩ := exists_split hshort hb
  show a.val < b.val
  rw [hs, ht, append_lt_append_iff, cons_lt_cons_iff]
  exact .inl hlt

theorem covered_concat_iff (x : Fin 256) :
    path ++ [x] <+: a.val ↔ path <+: a.val ∧ byteAt a path.length = x := by
  constructor
  · rintro ⟨rest, hrest⟩
    refine ⟨⟨x :: rest, by rw [← hrest]; simp⟩, ?_⟩
    simp [byteAt, ← hrest]
  · rintro ⟨ha, rfl⟩
    obtain ⟨rest, hrest⟩ := exists_split hshort ha
    exact ⟨rest, by rw [hrest]; simp⟩

end

theorem eq_of_whole (hwhole : path.length = 32) (ha : path <+: a.val) (hb : path <+: b.val) :
    a = b := by
  have hval {c : LedgerId} (hc : path <+: c.val) : c.val = path :=
    (hc.eq_of_length (by rw [hwhole, c.property])).symm
  exact Subtype.ext ((hval ha).trans (hval hb).symm)

end

theorem covers_iff {path : TriePrefix} {id : LedgerId} :
    covers path id = true ↔ path <+: id.val := by
  exact isPrefixOf_iff_prefix

section

variable {path : TriePrefix} {records : List TrieRecord}

theorem SortedRecords.sublist {others : List TrieRecord} (h : SortedRecords others)
    (hsub : records.Sublist others) : SortedRecords records :=
  List.Pairwise.sublist hsub h

section

variable (h : SortedRecords records)

include h

theorem SortedRecords.below (path : TriePrefix) : SortedRecords (below path records) :=
  h.sublist filter_sublist

theorem SortedRecords.ofKey (depth : Nat) (x : Fin 256) :
    SortedRecords (ofKey (slot depth) x records) :=
  h.sublist filter_sublist

omit h in
theorem allBelow_nil (records : List TrieRecord) : AllBelow [] records :=
  fun _ _ => nil_prefix

omit h in
theorem allBelow_below (path : TriePrefix) (records : List TrieRecord) :
    AllBelow path (below path records) := by
  intro record hrecord
  exact covers_iff.1 (mem_filter.1 hrecord).2

omit h in
theorem below_eq_self (h : AllBelow path records) : below path records = records := by
  unfold below
  rw [filter_eq_self]
  intro record hrecord
  exact covers_iff.2 (h record hrecord)

omit h in
theorem AllBelow.ofKey (h : AllBelow path records) (hshort : path.length < 32) (x : Fin 256) :
    AllBelow (path ++ [x]) (ofKey (slot path.length) x records) := by
  intro record hrecord
  simp only [Macha.ofKey, mem_filter, decide_eq_true_eq] at hrecord
  exact (covered_concat_iff hshort x).2 ⟨h record hrecord.1, hrecord.2⟩

omit h in
theorem below_concat (hshort : path.length < 32) (x : Fin 256) (records : List TrieRecord) :
    below (path ++ [x]) records = ofKey (slot path.length) x (below path records) := by
  unfold below ofKey
  rw [List.filter_filter]
  refine filter_congr fun record _ => ?_
  rw [Bool.eq_iff_iff, Bool.and_eq_true, decide_eq_true_iff, covers_iff, covers_iff,
    covered_concat_iff hshort]
  exact and_comm

section

variable (hbelow : AllBelow path records)

include hbelow

theorem SortedRecords.ascending (hshort : path.length < 32) :
    Ascending (slot path.length) records := by
  refine List.Pairwise.imp_of_mem ?_ h
  intro a b ha hb hlt
  exact byteAt_le_of_lt hshort (hbelow a ha) (hbelow b hb) hlt

omit hbelow in
omit h in
theorem finRange_ascends : (finRange 256).Pairwise (· < ·) := pairwise_lt_finRange 256

theorem flatMap_slots (hshort : path.length < 32) :
    ((finRange 256).flatMap fun x => ofKey (slot path.length) x records) = records :=
  flatMap_ofKey finRange_ascends (h.ascending hbelow hshort) fun _ _ => mem_finRange _

theorem sum_slots (hshort : path.length < 32) :
    ((finRange 256).map fun x => (ofKey (slot path.length) x records).length).sum =
      records.length := by
  rw [← length_flatMap, flatMap_slots h hbelow hshort]

theorem length_le_one (hwhole : path.length = 32) : records.length ≤ 1 := by
  match records, h, hbelow with
  | [], _, _ => exact Nat.zero_le _
  | [_], _, _ => exact le_rfl
  | a :: b :: rest, h, hbelow =>
    have hlt := (pairwise_cons.1 h).1 b mem_cons_self
    have heq := eq_of_whole hwhole (hbelow a mem_cons_self)
      (hbelow b (mem_cons_of_mem _ mem_cons_self))
    rw [heq] at hlt
    exact (lt_irrefl _ hlt).elim

end

end

end

/-- What a node's hash covers. -/
inductive HashInput
  | leaf (records : List TrieRecord)
  | interior (slots : List (Fin 256 × Hash256 × Nat))

structure Summary where
  count : Nat := 0
  hash : Hash256 := Hash256.zero
deriving DecidableEq

section

variable (sha256 : HashInput → Hash256)

def leafSummary (records : List TrieRecord) : Summary where
  count := records.length
  hash := if records.isEmpty then Hash256.zero else sha256 (.leaf records)

/-- Each non-empty slot's index, hash and count. -/
def interiorSlots (children : Fin 256 → Summary) : List (Fin 256 × Hash256 × Nat) :=
  (finRange 256).filterMap fun i =>
    if (children i).count = 0 then none else some (i, (children i).hash, (children i).count)

def interiorSummary (children : Fin 256 → Summary) : Summary where
  count := ((finRange 256).map fun i => (children i).count).sum
  hash := sha256 (.interior (interiorSlots children))

/-- What records sum up as, `level` bytes above the end of their ids. -/
def summaryOf : Nat → List TrieRecord → Summary
  | 0, records => leafSummary sha256 records
  | level + 1, records =>
    if records.length ≤ leafMax then leafSummary sha256 records
    else interiorSummary sha256 fun x => summaryOf level (ofKey (slot (31 - level)) x records)

end

section

variable {sha256 : HashInput → Hash256}

theorem summaryOf_leaf {level : Nat} {records : List TrieRecord}
    (h : records.length ≤ leafMax) : summaryOf sha256 level records = leafSummary sha256 records := by
  cases level with
  | zero => rfl
  | succ level => exact if_pos h

theorem summaryOf_interior {level : Nat} {records : List TrieRecord}
    (h : leafMax < records.length) : summaryOf sha256 (level + 1) records =
      interiorSummary sha256 fun x =>
        summaryOf sha256 level (ofKey (slot (31 - level)) x records) :=
  if_neg (by omega)

@[simp]
theorem summaryOf_nil (level : Nat) : summaryOf sha256 level [] = {} := by
  rw [summaryOf_leaf (Nat.zero_le _)]
  rfl

theorem mem_interiorSlots {children : Fin 256 → Summary} {i : Fin 256} {hash : Hash256}
    {count : Nat} : (i, hash, count) ∈ interiorSlots children ↔
      (children i).count ≠ 0 ∧ children i = ⟨count, hash⟩ := by
  unfold interiorSlots
  simp only [mem_filterMap, mem_finRange, true_and]
  constructor
  · rintro ⟨j, hj⟩
    split at hj
    · cases hj
    · next hcount =>
      cases hj
      exact ⟨hcount, rfl⟩
  · rintro ⟨hcount, heq⟩
    refine ⟨i, ?_⟩
    rw [if_neg hcount, heq]

theorem eq_of_interiorSlots_eq {children others : Fin 256 → Summary}
    (h : interiorSlots children = interiorSlots others)
    (hempty : ∀ x, (children x).count = 0 → (others x).count = 0 → children x = others x)
    (x : Fin 256) : children x = others x := by
  by_cases hcount : (children x).count = 0
  · by_cases hother : (others x).count = 0
    · exact hempty x hcount hother
    · have hmem : (x, (others x).hash, (others x).count) ∈ interiorSlots others :=
        mem_interiorSlots.2 ⟨hother, rfl⟩
      rw [← h, mem_interiorSlots] at hmem
      exact (hmem.1 hcount).elim
  · have hmem : (x, (children x).hash, (children x).count) ∈ interiorSlots children :=
      mem_interiorSlots.2 ⟨hcount, rfl⟩
    rw [h, mem_interiorSlots] at hmem
    exact hmem.2.symm

variable {path : TriePrefix} {level : Nat} {records others : List TrieRecord}

theorem count_summaryOf (hlevel : path.length + level = 32) (h : SortedRecords records)
    (hbelow : AllBelow path records) : (summaryOf sha256 level records).count = records.length := by
  induction level generalizing path records with
  | zero => rfl
  | succ level ih =>
    by_cases hleaf : records.length ≤ leafMax
    · rw [summaryOf_leaf hleaf]
      rfl
    · have hdepth : 31 - level = path.length := by omega
      rw [summaryOf_interior (not_le.1 hleaf), hdepth]
      show ((finRange 256).map fun x =>
        (summaryOf sha256 level (ofKey (slot path.length) x records)).count).sum = _
      rw [← sum_slots h hbelow (by omega)]
      congr 1
      refine map_congr_left fun x _ => ?_
      have hnext : (path ++ [x]).length + level = 32 := by
        rw [length_append, length_singleton]
        omega
      exact ih hnext (h.ofKey _ _) (hbelow.ofKey (by omega) x)

theorem eq_of_leafSummary_eq (hinj : Function.Injective sha256)
    (heq : leafSummary sha256 records = leafSummary sha256 others) : records = others := by
  have hcount : records.length = others.length := congrArg Summary.count heq
  have hhash := congrArg Summary.hash heq
  cases records with
  | nil => exact (length_eq_zero_iff.1 hcount.symm).symm
  | cons a records =>
    cases others with
    | nil => cases hcount
    | cons b others => exact HashInput.leaf.inj (hinj hhash)

theorem eq_of_summaryOf_eq (hinj : Function.Injective sha256) (hlevel : path.length + level = 32)
    (h : SortedRecords records) (hbelow : AllBelow path records) (h' : SortedRecords others)
    (hbelow' : AllBelow path others)
    (heq : summaryOf sha256 level records = summaryOf sha256 level others) : records = others := by
  have hcount := congrArg Summary.count heq
  rw [count_summaryOf hlevel h hbelow, count_summaryOf hlevel h' hbelow'] at hcount
  induction level generalizing path records others with
  | zero => exact eq_of_leafSummary_eq hinj heq
  | succ level ih =>
    by_cases hleaf : records.length ≤ leafMax
    · rw [summaryOf_leaf hleaf, summaryOf_leaf (hcount ▸ hleaf)] at heq
      exact eq_of_leafSummary_eq hinj heq
    · have hshort : path.length < 32 := by omega
      have hdepth : 31 - level = path.length := by omega
      have hnext x : (path ++ [x]).length + level = 32 := by
        rw [length_append, length_singleton]
        omega
      rw [summaryOf_interior (not_le.1 hleaf), summaryOf_interior (hcount ▸ not_le.1 hleaf),
        hdepth] at heq
      have hslots := HashInput.interior.inj (hinj (congrArg Summary.hash heq))
      have hempty x
          (hzero : (summaryOf sha256 level (ofKey (slot path.length) x records)).count = 0)
          (hzero' : (summaryOf sha256 level (ofKey (slot path.length) x others)).count = 0) :
          summaryOf sha256 level (ofKey (slot path.length) x records) =
            summaryOf sha256 level (ofKey (slot path.length) x others) := by
        rw [count_summaryOf (hnext x) (h.ofKey _ x) (hbelow.ofKey hshort x)] at hzero
        rw [count_summaryOf (hnext x) (h'.ofKey _ x) (hbelow'.ofKey hshort x)] at hzero'
        rw [length_eq_zero_iff.1 hzero, length_eq_zero_iff.1 hzero']
      have hgroups x :
          ofKey (slot path.length) x records = ofKey (slot path.length) x others := by
        have hsorted := h.ofKey path.length x
        have hsorted' := h'.ofKey path.length x
        have hunder := hbelow.ofKey hshort x
        have hunder' := hbelow'.ofKey hshort x
        have hsame := eq_of_interiorSlots_eq hslots hempty x
        have hlength := congrArg Summary.count hsame
        rw [count_summaryOf (hnext x) hsorted hunder,
          count_summaryOf (hnext x) hsorted' hunder'] at hlength
        exact ih (hnext x) hsorted hunder hsorted' hunder' hsame hlength
      rw [← flatMap_slots h hbelow hshort, ← flatMap_slots h' hbelow' hshort]
      exact flatMap_congr fun x _ => hgroups x

end

/-- A hash that numbers what it covers. -/
def namedHash : HashInput → Hash256
  | .leaf records => [0, Encodable.encode records]
  | .interior slots => [1, Encodable.encode slots]

theorem namedHash_injective : Function.Injective namedHash := by
  intro a b h
  cases a with
  | leaf records =>
    cases b with
    | leaf others =>
      simp only [namedHash, List.cons.injEq, Encodable.encode_inj] at h
      rw [h.2.1]
    | interior slots => simp [namedHash] at h
  | interior slots =>
    cases b with
    | leaf others => simp [namedHash] at h
    | interior others =>
      simp only [namedHash, List.cons.injEq, Encodable.encode_inj] at h
      rw [h.2.1]

end Trie

end Macha
