import Macha.Library.OrdMap
import Macha.Metadata.Types

/-!
# Records of an object ledger

The ledger of a node keeps a value for each object id. Changes to it come in
order, a later change to an id winning over an earlier one. Before they are
journalled they are sorted by id with only the last change to each id left, and
cut into frames; neither loses a change.
-/

namespace Macha

open List

/-- An object id as the ledger reads it: 32 bytes, ordered lexicographically. -/
abbrev LedgerId := { bytes : List (Fin 256) // bytes.length = 32 }

instance LedgerId.transCmp : Std.TransCmp (@compare LedgerId LinearOrder.toOrd) := inferInstance

instance byteNeZero : NeZero 256 := ⟨by decide⟩

abbrev LedgerRecords := OrdMap LedgerId ByteString

/-- A record set to `value`, or erased when it has none. -/
structure LedgerChange where
  id : LedgerId
  value : Option ByteString
deriving DecidableEq

namespace Ledger

def applyChange (records : LedgerRecords) (change : LedgerChange) : LedgerRecords :=
  match change.value with
  | some value => records.insert change.id value
  | none => records.erase change.id

def applyChanges (records : LedgerRecords) (changes : List LedgerChange) : LedgerRecords :=
  changes.foldl applyChange records

def lastChange (id : LedgerId) (changes : List LedgerChange) : Option LedgerChange :=
  (changes.filter (·.id = id)).getLast?

@[simp]
theorem lastChange_nil (id : LedgerId) : lastChange id [] = none := rfl

theorem lastChange_append (id : LedgerId) (earlier later : List LedgerChange) :
    lastChange id (earlier ++ later) = (lastChange id later).or (lastChange id earlier) := by
  unfold lastChange
  rw [filter_append, getLast?_append]

theorem lastChange_singleton (id : LedgerId) (change : LedgerChange) :
    lastChange id [change] = if change.id = id then some change else none := by
  unfold lastChange
  by_cases h : change.id = id
  · simp [h]
  · simp [h]

variable {id : LedgerId} {changes : List LedgerChange}

theorem lastChange_eq_none_iff :
    lastChange id changes = none ↔ ∀ change ∈ changes, change.id ≠ id := by
  unfold lastChange
  simp

variable {change c : LedgerChange}

theorem lastChange_eq_some (h : lastChange id changes = some change) :
    change ∈ changes ∧ change.id = id := by
  have hmem : change ∈ changes.filter (·.id = id) := mem_of_getLast? h
  simpa using hmem

section

variable (records : LedgerRecords)

theorem getElem?_applyChange (change : LedgerChange) (id : LedgerId) :
    (applyChange records change)[id]? = if change.id = id then change.value else records[id]? := by
  unfold applyChange
  cases change.value with
  | none =>
    by_cases h : change.id = id
    · simp [h]
    · simp [h, OrdMap.getElem?_erase_of_ne records h]
  | some value =>
    by_cases h : change.id = id
    · simp [h]
    · simp [h, OrdMap.getElem?_insert_of_ne records value h]

@[simp]
theorem applyChanges_nil : applyChanges records [] = records := rfl

theorem applyChanges_append (earlier later : List LedgerChange) :
    applyChanges records (earlier ++ later) = applyChanges (applyChanges records earlier) later :=
  foldl_append

theorem getElem?_applyChanges (changes : List LedgerChange) (id : LedgerId) :
    (applyChanges records changes)[id]? =
      match lastChange id changes with
      | some change => change.value
      | none => records[id]? := by
  induction changes using reverseRecOn with
  | nil => rfl
  | append_singleton changes change ih =>
    rw [applyChanges_append]
    show (applyChange (applyChanges records changes) change)[id]? = _
    rw [getElem?_applyChange, lastChange_append, lastChange_singleton]
    by_cases h : change.id = id
    · rw [if_pos h, if_pos h]
      rfl
    · rw [if_neg h, if_neg h, ih]
      rfl

end

theorem getElem?_applyChanges_of_none {records : LedgerRecords} (h : lastChange id changes = none) :
    (applyChanges records changes)[id]? = records[id]? := by
  rw [getElem?_applyChanges, h]

theorem getElem?_applyChanges_append_of_none {records : LedgerRecords}
    {earlier later : List LedgerChange} (h : lastChange id earlier = none) :
    (applyChanges records (earlier ++ later))[id]? = (applyChanges records later)[id]? := by
  simp [getElem?_applyChanges, lastChange_append, h]

theorem getElem?_applyChanges_of_eq {records others : LedgerRecords}
    (h : records[id]? = others[id]?) (changes : List LedgerChange) :
    (applyChanges records changes)[id]? = (applyChanges others changes)[id]? := by
  rw [getElem?_applyChanges, getElem?_applyChanges, h]

theorem applyChanges_congr (records : LedgerRecords) {changes others : List LedgerChange}
    (h : ∀ id, lastChange id changes = lastChange id others) :
    applyChanges records changes = applyChanges records others := by
  refine OrdMap.ext fun id => ?_
  rw [getElem?_applyChanges, getElem?_applyChanges, h]

/-- A change put after those before it, or in the place of one to the same id. -/
def pushUnique (unique : List LedgerChange) (change : LedgerChange) : List LedgerChange :=
  match unique.getLast? with
  | some last =>
    if last.id = change.id then unique.dropLast ++ [change] else unique ++ [change]
  | none => [change]

/-- The changes sorted by id, a later change to the same id winning. -/
def sortUnique (changes : List LedgerChange) : List LedgerChange :=
  (changes.insertionSort fun a b => a.id ≤ b.id).foldl pushUnique []

def SortedUnique (changes : List LedgerChange) : Prop :=
  changes.Pairwise fun a b => a.id < b.id

theorem pushUnique_concat (unique : List LedgerChange) (last change : LedgerChange) :
    pushUnique (unique ++ [last]) change =
      if last.id = change.id then unique ++ [change] else unique ++ [last] ++ [change] := by
  unfold pushUnique
  rw [getLast?_concat, dropLast_concat]

theorem lastChange_pushUnique (id : LedgerId) (unique : List LedgerChange) (change : LedgerChange) :
    lastChange id (pushUnique unique change) = lastChange id (unique ++ [change]) := by
  induction unique using reverseRecOn with
  | nil => rfl
  | append_singleton unique last _ =>
    rw [pushUnique_concat]
    split
    · next hid =>
      rw [lastChange_append, lastChange_append, lastChange_append, lastChange_singleton,
        lastChange_singleton]
      by_cases h : change.id = id
      · rw [if_pos h]
        rfl
      · rw [if_neg h, if_neg (by rw [hid]; exact h)]
        rfl
    · rfl

theorem lastChange_foldl_pushUnique (id : LedgerId) (changes : List LedgerChange) :
    lastChange id (changes.foldl pushUnique []) = lastChange id changes := by
  induction changes using reverseRecOn with
  | nil => rfl
  | append_singleton changes change ih =>
    rw [foldl_append]
    show lastChange id (pushUnique (changes.foldl pushUnique []) change) = _
    rw [lastChange_pushUnique, lastChange_append, lastChange_append, ih]

theorem mem_pushUnique {unique : List LedgerChange} (h : c ∈ pushUnique unique change) :
    c ∈ unique ∨ c = change := by
  induction unique using reverseRecOn with
  | nil => exact Or.inr (mem_singleton.1 h)
  | append_singleton unique last _ =>
    rw [pushUnique_concat] at h
    split at h
    · rcases mem_append.1 h with h | h
      · exact Or.inl (mem_append_left _ h)
      · exact Or.inr (mem_singleton.1 h)
    · rcases mem_append.1 h with h | h
      · exact Or.inl h
      · exact Or.inr (mem_singleton.1 h)

theorem mem_foldl_pushUnique (h : c ∈ changes.foldl pushUnique []) : c ∈ changes := by
  induction changes using reverseRecOn with
  | nil => cases h
  | append_singleton changes change ih =>
    rw [foldl_append] at h
    rcases mem_pushUnique h with h | h
    · exact mem_append_left _ (ih h)
    · exact mem_append_right _ (mem_singleton.2 h)

theorem sortedUnique_pushUnique {unique : List LedgerChange} (hunique : SortedUnique unique)
    (h : ∀ c ∈ unique, c.id ≤ change.id) :
    SortedUnique (pushUnique unique change) := by
  induction unique using reverseRecOn with
  | nil => exact pairwise_singleton _ _
  | append_singleton unique last _ =>
    obtain ⟨hinit, -, hlast⟩ := pairwise_append.1 hunique
    have hbefore : ∀ c ∈ unique, c.id < last.id := fun c hc =>
      hlast c hc last (mem_singleton.2 rfl)
    have hle : last.id ≤ change.id :=
      h last (mem_append_right _ (mem_singleton.2 rfl))
    have hbelow : ∀ c ∈ unique, ∀ b ∈ [change], c.id < b.id := by
      intro c hc b hb
      rw [mem_singleton.1 hb]
      exact lt_of_lt_of_le (hbefore c hc) hle
    rw [pushUnique_concat]
    split
    · exact pairwise_append.2 ⟨hinit, pairwise_singleton _ _, hbelow⟩
    · next hne =>
      refine pairwise_append.2 ⟨hunique, pairwise_singleton _ _, ?_⟩
      intro c hc b hb
      rcases mem_append.1 hc with hc | hc
      · exact hbelow c hc b hb
      · rw [mem_singleton.1 hc, mem_singleton.1 hb]
        exact lt_of_le_of_ne hle hne

theorem sortedUnique_foldl_pushUnique (h : changes.Pairwise fun a b => a.id ≤ b.id) :
    SortedUnique (changes.foldl pushUnique []) := by
  induction changes using reverseRecOn with
  | nil => exact List.Pairwise.nil
  | append_singleton changes change ih =>
    obtain ⟨hinit, -, hlast⟩ := pairwise_append.1 h
    rw [foldl_append]
    refine sortedUnique_pushUnique (ih hinit) fun c hc => ?_
    exact hlast c (mem_foldl_pushUnique hc) change (mem_singleton.2 rfl)

theorem sortUnique_sorted (changes : List LedgerChange) : SortedUnique (sortUnique changes) :=
  sortedUnique_foldl_pushUnique (pairwise_insertionSort _ changes)

theorem mem_sortUnique (h : c ∈ sortUnique changes) : c ∈ changes :=
  (perm_insertionSort _ changes).mem_iff.1 (mem_foldl_pushUnique h)

/-- The sort is stable: the changes to one id keep their order. -/
theorem filter_insertionSort (id : LedgerId) (changes : List LedgerChange) :
    (changes.insertionSort fun a b => a.id ≤ b.id).filter (·.id = id) =
      changes.filter (·.id = id) := by
  have hsame : (changes.filter (·.id = id)).Pairwise fun a b => a.id ≤ b.id := by
    apply pairwise_of_forall_mem_list
    intro a ha b hb
    simp only [mem_filter, decide_eq_true_eq] at ha hb
    rw [ha.2, hb.2]
  have hsub := (sublist_insertionSort hsame filter_sublist).filter (·.id = id)
  have hlength : (changes.filter (·.id = id)).length =
      ((changes.insertionSort fun a b => a.id ≤ b.id).filter (·.id = id)).length :=
    ((perm_insertionSort _ changes).filter _).length_eq.symm
  rw [List.filter_filter] at hsub
  simp only [Bool.and_self] at hsub
  exact (hsub.eq_of_length hlength).symm

theorem lastChange_sortUnique (id : LedgerId) (changes : List LedgerChange) :
    lastChange id (sortUnique changes) = lastChange id changes := by
  unfold sortUnique
  rw [lastChange_foldl_pushUnique]
  unfold lastChange
  rw [filter_insertionSort]

theorem applyChanges_sortUnique (records : LedgerRecords) (changes : List LedgerChange) :
    applyChanges records (sortUnique changes) = applyChanges records changes :=
  applyChanges_congr records fun id => lastChange_sortUnique id changes

def changesPerFrame : Nat := 65536

/-- The frames a list of changes is journalled in, of the frames there can be. -/
def framesIn : Nat → List LedgerChange → List (List LedgerChange)
  | 0, _ => []
  | _ + 1, [] => []
  | frames + 1, changes =>
    changes.take changesPerFrame :: framesIn frames (changes.drop changesPerFrame)

def framesOf (changes : List LedgerChange) : List (List LedgerChange) :=
  framesIn changes.length changes

theorem flatten_framesIn (frames : Nat) (changes : List LedgerChange)
    (h : changes.length ≤ frames) : (framesIn frames changes).flatten = changes := by
  induction frames generalizing changes with
  | zero => rw [length_eq_zero_iff.1 (Nat.le_zero.1 h)]; rfl
  | succ frames ih =>
    cases changes with
    | nil => rfl
    | cons change rest =>
      show ((change :: rest).take changesPerFrame ::
        framesIn frames ((change :: rest).drop changesPerFrame)).flatten = _
      rw [flatten_cons, ih, take_append_drop]
      rw [length_drop]
      have hpos : 0 < changesPerFrame := by decide
      omega

theorem flatten_framesOf (changes : List LedgerChange) : (framesOf changes).flatten = changes :=
  flatten_framesIn _ _ le_rfl

end Ledger

end Macha
