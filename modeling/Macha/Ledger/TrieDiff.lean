import Macha.Ledger.TrieRun

/-!
# The difference of two tries

Two sides are asked, a level at a time, about the subtrees whose summaries
differ; records are read once neither side holds more than a leaf below a prefix.
Every id whose record differs is visited once.
-/

namespace Macha

open List Option

/-- One side of a diff: it answers about batches of prefixes, or throws. -/
structure TrieSource where
  root : Trie.Summary
  children : List TriePrefix → Option (List (Fin 256 → Trie.Summary))
  records : List TriePrefix → Option (List (List TrieRecord))

/-- An id whose record differs: held by one side only, or with another value. -/
structure TrieDifference where
  id : LedgerId
  left : Option ByteString
  right : Option ByteString
deriving DecidableEq

structure TrieDiffCost where
  rounds : Nat := 0
  prefixes : Nat := 0
  records : Nat := 0
deriving DecidableEq

namespace TrieDiff

open Trie

/-- Both sides' records below one prefix, compared in id order. -/
def compareRecords : List TrieRecord → List TrieRecord → List TrieDifference
  | [], [] => []
  | l :: left, [] => ⟨l.1, some l.2, none⟩ :: compareRecords left []
  | [], r :: right => ⟨r.1, none, some r.2⟩ :: compareRecords [] right
  | l :: left, r :: right =>
    if l.1 < r.1 then ⟨l.1, some l.2, none⟩ :: compareRecords left (r :: right)
    else if r.1 < l.1 then ⟨r.1, none, some r.2⟩ :: compareRecords (l :: left) right
    else if l.2 ≠ r.2 then ⟨l.1, some l.2, some r.2⟩ :: compareRecords left right
    else compareRecords left right
termination_by left right => left.length + right.length

/-- The prefixes still to ask about, what was asked, and what was visited. -/
structure State where
  descend : List TriePrefix := []
  read : List TriePrefix := []
  cost : TrieDiffCost := {}
  visited : List TrieDifference := []

/-- The cost of one more round about some prefixes. -/
def asked (cost : TrieDiffCost) (paths : List TriePrefix) : TrieDiffCost :=
  { cost with rounds := cost.rounds + 1, prefixes := cost.prefixes + paths.length }

def place (state : State) (path : TriePrefix) (a b : Summary) : State :=
  if max a.count b.count ≤ leafMax then { state with read := state.read ++ [path] }
  else { state with descend := state.descend ++ [path] }

def placeChildren (state : State) (path : TriePrefix) (a b : Fin 256 → Summary) : State :=
  (finRange 256).foldl
    (fun state x => if a x ≠ b x then place state (path ++ [x]) (a x) (b x) else state) state

section

variable (left right : TrieSource)

def readRound (state : State) : Option State :=
  if state.read.isEmpty then some state
  else do
    let a ← left.records state.read
    let b ← right.records state.read
    some { state with
      read := []
      cost := { asked state.cost state.read with
        records := state.cost.records + ((a.zip b).map fun (a, b) => a.length + b.length).sum }
      visited := state.visited ++ (a.zip b).flatMap fun (a, b) => compareRecords a b }

def descendRound (state : State) : Option State :=
  if state.descend.isEmpty then some state
  else do
    let level := state.descend
    let a ← left.children level
    let b ← right.children level
    let state := { state with descend := [], cost := asked state.cost level }
    some ((level.zip (a.zip b)).foldl (fun state (path, a, b) => placeChildren state path a b) state)

def diffLoop : Nat → State → Option State
  | 0, _ => none
  | fuel + 1, state =>
    if state.descend.isEmpty && state.read.isEmpty then some state
    else do diffLoop fuel (← descendRound left right (← readRound left right state))

/-- `diff_tries`, within a number of rounds of its loop. -/
def diffTries (fuel : Nat) : Option (TrieDiffCost × List TrieDifference) :=
  if left.root = right.root then some ({}, [])
  else (diffLoop left right fuel (place {} [] left.root right.root)).map fun state =>
    (state.cost, state.visited)

end

/-! ## Records compared -/

structure Differs (left right : List TrieRecord) (d : TrieDifference) : Prop where
  left_eq : d.left = leafFind left d.id
  right_eq : d.right = leafFind right d.id
  ne : d.left ≠ d.right

variable {record l r : TrieRecord}

theorem leafFind_cons {records : List TrieRecord} (h : SortedRecords (record :: records))
    (id : LedgerId) :
    leafFind (record :: records) id =
      if record.1 = id then some record.2 else leafFind records id := by
  obtain ⟨hfirst, hrest⟩ := pairwise_cons.1 h
  refine Option.ext fun value => ?_
  rw [leafFind_eq_some_iff h, mem_cons]
  by_cases heq : record.1 = id
  · have habsent : (id, value) ∉ records := fun hmem => (hfirst _ hmem).ne heq
    rw [if_pos heq]
    constructor
    · rintro (hrecord | hmem)
      · rw [← hrecord]
      · exact (habsent hmem).elim
    · intro hvalue
      cases hvalue
      exact .inl (by rw [← heq])
  · have hne : (id, value) ≠ record := fun hrecord => heq (by rw [← hrecord])
    rw [if_neg heq, leafFind_eq_some_iff hrest]
    simp [hne]

variable {id : LedgerId}

theorem leafFind_of_lt {records : List TrieRecord} (h : SortedRecords records)
    (hlt : ∀ record ∈ records, id < record.1) : leafFind records id = none := by
  cases hfind : leafFind records id with
  | none => rfl
  | some value =>
    have hmem := (leafFind_eq_some_iff h).1 hfind
    exact (lt_irrefl _ (hlt _ hmem)).elim

theorem leafFind_below {records : List TrieRecord} (h : SortedRecords records) {path : TriePrefix}
    (hid : path <+: id.val) :
    leafFind (below path records) id = leafFind records id := by
  refine Option.ext fun value => ?_
  rw [leafFind_eq_some_iff (h.below path), leafFind_eq_some_iff h]
  simp [below, covers_iff, hid]

theorem leafFind_below_of_not {records : List TrieRecord} (h : SortedRecords records)
    {path : TriePrefix} (hid : ¬ path <+: id.val) :
    leafFind (below path records) id = none := by
  cases hfind : leafFind (below path records) id with
  | none => rfl
  | some value =>
    have hmem := (leafFind_eq_some_iff (h.below path)).1 hfind
    exact (hid (allBelow_below path records _ hmem)).elim

theorem differs_nil (d : TrieDifference) : ¬ Differs [] [] d := by
  rintro ⟨hleft, hright, hne⟩
  exact hne (hleft.trans hright.symm)

variable {d : TrieDifference} {left right : List TrieRecord}

theorem differs_at {left' right' : List TrieRecord} {a b : Option ByteString}
    (hgone : leafFind left id = none) (hgone' : leafFind right id = none)
    (hleft : ∀ other, leafFind left' other = if id = other then a else leafFind left other)
    (hright : ∀ other, leafFind right' other = if id = other then b else leafFind right other) :
    Differs left' right' d ↔ a ≠ b ∧ d = ⟨id, a, b⟩ ∨ Differs left right d := by
  by_cases hid : id = d.id
  · constructor
    · rintro ⟨ha, hb, hne⟩
      rw [hleft, if_pos hid] at ha
      rw [hright, if_pos hid] at hb
      subst hid ha hb
      exact .inl ⟨hne, rfl⟩
    · rintro (⟨hne, rfl⟩ | ⟨ha, hb, hne⟩)
      · exact ⟨by rw [hleft, if_pos rfl], by rw [hright, if_pos rfl], hne⟩
      · exact (hne (by rw [ha, hb, ← hid, hgone, hgone'])).elim
  · constructor
    · rintro ⟨ha, hb, hne⟩
      rw [hleft, if_neg hid] at ha
      rw [hright, if_neg hid] at hb
      exact .inr ⟨ha, hb, hne⟩
    · rintro (⟨-, rfl⟩ | ⟨ha, hb, hne⟩)
      · exact (hid rfl).elim
      · exact ⟨by rw [hleft, if_neg hid, ha], by rw [hright, if_neg hid, hb], hne⟩

theorem differs_left (h : SortedRecords (l :: left)) (hright : SortedRecords right)
    (hlt : ∀ r ∈ right, l.1 < r.1) :
    Differs (l :: left) right d ↔ d = ⟨l.1, some l.2, none⟩ ∨ Differs left right d := by
  obtain ⟨hfirst, hrest⟩ := pairwise_cons.1 h
  have habsent : leafFind right l.1 = none := leafFind_of_lt hright hlt
  rw [differs_at (leafFind_of_lt hrest hfirst) habsent (leafFind_cons h) (b := none)]
  · simp
  · intro other
    split
    · next hid => rw [← hid, habsent]
    · rfl

def swapped (d : TrieDifference) : TrieDifference := ⟨d.id, d.right, d.left⟩

theorem differs_swapped : Differs right left (swapped d) ↔ Differs left right d :=
  ⟨fun h => ⟨h.right_eq, h.left_eq, h.ne.symm⟩, fun h => ⟨h.right_eq, h.left_eq, h.ne.symm⟩⟩

theorem differs_right (hleft : SortedRecords left) (h : SortedRecords (r :: right))
    (hlt : ∀ l ∈ left, r.1 < l.1) :
    Differs left (r :: right) d ↔ d = ⟨r.1, none, some r.2⟩ ∨ Differs left right d := by
  rw [← differs_swapped, differs_left h hleft hlt, differs_swapped]
  refine or_congr_left ⟨fun hd => ?_, fun hd => ?_⟩
  · exact congrArg swapped hd
  · rw [hd]
    rfl

theorem differs_both (h : SortedRecords (l :: left)) (h' : SortedRecords (r :: right))
    (hid : l.1 = r.1) :
    Differs (l :: left) (r :: right) d ↔
      l.2 ≠ r.2 ∧ d = ⟨l.1, some l.2, some r.2⟩ ∨ Differs left right d := by
  obtain ⟨hfirst, hrest⟩ := pairwise_cons.1 h
  obtain ⟨hfirst', hrest'⟩ := pairwise_cons.1 h'
  have hfound := leafFind_cons h'
  rw [← hid] at hfirst' hfound
  rw [differs_at (leafFind_of_lt hrest hfirst) (leafFind_of_lt hrest' hfirst')
    (leafFind_cons h) hfound]
  simp

theorem lt_cons {x : LedgerId} {records : List TrieRecord} (h : SortedRecords (record :: records))
    (hlt : x < record.1) :
    ∀ other ∈ record :: records, x < other.1 := by
  intro other hother
  rcases mem_cons.1 hother with rfl | hother
  · exact hlt
  · exact hlt.trans ((pairwise_cons.1 h).1 other hother)

section

variable (hleft : SortedRecords left) (hright : SortedRecords right)

include hleft hright

theorem mem_compareRecords : d ∈ compareRecords left right ↔ Differs left right d := by
  induction left, right using compareRecords.induct with
  | case1 => simp [compareRecords, differs_nil]
  | case2 l left ih =>
    rw [compareRecords, mem_cons, ih hleft.tail hright, differs_left hleft hright (by simp)]
  | case3 r right ih =>
    rw [compareRecords, mem_cons, ih hleft hright.tail, differs_right hleft hright (by simp)]
  | case4 l left r right hlt ih =>
    rw [compareRecords, if_pos hlt, mem_cons, ih hleft.tail hright,
      differs_left hleft hright (lt_cons hright hlt)]
  | case5 l left r right hge hlt ih =>
    rw [compareRecords, if_neg hge, if_pos hlt, mem_cons, ih hleft hright.tail,
      differs_right hleft hright (lt_cons hleft hlt)]
  | case6 l left r right hge hge' hne ih =>
    have hid : l.1 = r.1 := le_antisymm (not_lt.1 hge') (not_lt.1 hge)
    rw [compareRecords, if_neg hge, if_neg hge', if_pos hne, mem_cons,
      ih hleft.tail hright.tail, differs_both hleft hright hid, and_iff_right hne]
  | case7 l left r right hge hge' hsame ih =>
    have hid : l.1 = r.1 := le_antisymm (not_lt.1 hge') (not_lt.1 hge)
    rw [compareRecords, if_neg hge, if_neg hge', if_neg hsame, ih hleft.tail hright.tail,
      differs_both hleft hright hid]
    simp [hsame]

theorem Differs.held (h : Differs left right d) : ∃ value, (d.id, value) ∈ left ++ right := by
  cases hl : d.left with
  | some value =>
    have hmem := (leafFind_eq_some_iff hleft).1 (h.left_eq.symm.trans hl)
    exact ⟨value, mem_append_left _ hmem⟩
  | none =>
    cases hr : d.right with
    | some value =>
      have hmem := (leafFind_eq_some_iff hright).1 (h.right_eq.symm.trans hr)
      exact ⟨value, mem_append_right _ hmem⟩
    | none => exact (h.ne (hl.trans hr.symm)).elim

theorem lt_of_mem_compareRecords (hl : ∀ l ∈ left, id < l.1) (hr : ∀ r ∈ right, id < r.1) :
    ∀ d ∈ compareRecords left right, id < d.id := by
  intro d hd
  obtain ⟨value, hmem⟩ := ((mem_compareRecords hleft hright).1 hd).held hleft hright
  rcases mem_append.1 hmem with hmem | hmem
  · exact hl _ hmem
  · exact hr _ hmem

theorem sorted_compareRecords : (compareRecords left right).Pairwise fun d e => d.id < e.id := by
  have hhead {l : TrieRecord} {records : List TrieRecord} (h : SortedRecords (l :: records)) :
      ∀ other ∈ records, l.1 < other.1 := (pairwise_cons.1 h).1
  induction left, right using compareRecords.induct with
  | case1 => simp [compareRecords]
  | case2 l left ih =>
    rw [compareRecords, pairwise_cons]
    exact ⟨lt_of_mem_compareRecords hleft.tail hright (hhead hleft) (by simp), ih hleft.tail hright⟩
  | case3 r right ih =>
    rw [compareRecords, pairwise_cons]
    exact ⟨lt_of_mem_compareRecords hleft hright.tail (by simp) (hhead hright),
      ih hleft hright.tail⟩
  | case4 l left r right hlt ih =>
    rw [compareRecords, if_pos hlt, pairwise_cons]
    exact ⟨lt_of_mem_compareRecords hleft.tail hright (hhead hleft) (lt_cons hright hlt),
      ih hleft.tail hright⟩
  | case5 l left r right hge hlt ih =>
    rw [compareRecords, if_neg hge, if_pos hlt, pairwise_cons]
    exact ⟨lt_of_mem_compareRecords hleft hright.tail (lt_cons hleft hlt) (hhead hright),
      ih hleft hright.tail⟩
  | case6 l left r right hge hge' hne ih =>
    have hid : l.1 = r.1 := le_antisymm (not_lt.1 hge') (not_lt.1 hge)
    rw [compareRecords, if_neg hge, if_neg hge', if_pos hne, pairwise_cons]
    exact ⟨lt_of_mem_compareRecords hleft.tail hright.tail (hhead hleft) (hid ▸ hhead hright),
      ih hleft.tail hright.tail⟩
  | case7 l left r right hge hge' hsame ih =>
    rw [compareRecords, if_neg hge, if_neg hge', if_neg hsame]
    exact ih hleft.tail hright.tail

/-! ## Below a prefix -/

theorem differs_below {path : TriePrefix} :
    Differs (below path left) (below path right) d ↔ path <+: d.id.val ∧ Differs left right d := by
  by_cases hid : path <+: d.id.val
  · rw [and_iff_right hid]
    constructor
    · rintro ⟨hl, hr, hne⟩
      exact ⟨by rw [hl, leafFind_below hleft hid], by rw [hr, leafFind_below hright hid], hne⟩
    · rintro ⟨hl, hr, hne⟩
      exact ⟨by rw [hl, leafFind_below hleft hid], by rw [hr, leafFind_below hright hid], hne⟩
  · constructor
    · rintro ⟨hl, hr, hne⟩
      rw [leafFind_below_of_not hleft hid] at hl
      rw [leafFind_below_of_not hright hid] at hr
      exact (hne (hl.trans hr.symm)).elim
    · exact fun h => (hid h.1).elim

end

def summaryBelow (sha256 : HashInput → Hash256) (records : List TrieRecord) (path : TriePrefix) :
    Summary :=
  summaryOf sha256 (32 - path.length) (below path records)

section

variable {sha256 : HashInput → Hash256} {records others : List TrieRecord} {path : TriePrefix}

theorem placed_at (h : SortedRecords records) (hlength : path.length ≤ 32) :
    Placed path (32 - path.length) (below path records) :=
  ⟨h.below path, allBelow_below path records, by omega⟩

theorem count_summaryBelow (h : SortedRecords records) (hlength : path.length ≤ 32) :
    (summaryBelow sha256 records path).count = (below path records).length :=
  (placed_at h hlength).count sha256

theorem summaryBelow_eq_iff (hinj : Function.Injective sha256) (h : SortedRecords records)
    (h' : SortedRecords others) (hlength : path.length ≤ 32) :
    summaryBelow sha256 records path = summaryBelow sha256 others path ↔
      below path records = below path others := by
  constructor
  · intro heq
    have hplaced := placed_at h hlength
    exact eq_of_summaryOf_eq hinj hplaced.deep hplaced.sorted hplaced.below (h'.below path)
      (allBelow_below path others) heq
  · intro heq
    rw [summaryBelow, summaryBelow, heq]

end

/-- A source that answers as a trie of the records: the summary of the root, those
a byte below a prefix, and the records below one of a leaf's worth. -/
structure Answers (sha256 : HashInput → Hash256) (source : TrieSource)
    (records : List TrieRecord) : Prop where
  root : source.root = summaryBelow sha256 records []
  children : ∀ paths : List TriePrefix, (∀ path ∈ paths, path.length < 32) → source.children paths =
      some (paths.map fun path x => summaryBelow sha256 records (path ++ [x]))
  records : ∀ paths : List TriePrefix, (∀ path ∈ paths, (below path records).length ≤ leafMax) →
    source.records paths = some (paths.map fun path => below path records)

/-! ## The walk's invariant -/

/-- The differences are the ones visited and those below the prefixes to come. -/
structure Walk (left right : List TrieRecord) (depth : Nat) (state : State) : Prop where
  depth : ∀ path ∈ state.read ++ state.descend, path.length = depth
  reach : ∀ path ∈ state.read ++ state.descend, path.length ≤ 32
  readOnce : state.read.Nodup
  descendOnce : state.descend.Nodup
  few : ∀ path ∈ state.read,
    (below path left).length ≤ leafMax ∧ (below path right).length ≤ leafMax
  many : ∀ path ∈ state.descend,
    ¬ ((below path left).length ≤ leafMax ∧ (below path right).length ≤ leafMax)
  sound : ∀ d ∈ state.visited, Differs left right d
  once : state.visited.Pairwise fun d e => d.id ≠ e.id
  apart : ∀ d ∈ state.visited, ∀ path ∈ state.read ++ state.descend, ¬ path <+: d.id.val
  complete : ∀ d, Differs left right d →
    d ∈ state.visited ∨ ∃ path ∈ state.read ++ state.descend, path <+: d.id.val

section

variable {sha256 : HashInput → Hash256} {a b : TrieSource} {depth : Nat} {state : State}
  {paths level : List TriePrefix} {path : TriePrefix} {f g : TriePrefix → Summary} {small : Bool}

theorem prefix_eq_of_length {p q : TriePrefix} (hp : p <+: id.val) (hq : q <+: id.val)
    (hlength : p.length = q.length) : p = q :=
  (prefix_of_prefix_length_le hp hq hlength.le).eq_of_length hlength

def readBelow (left right : List TrieRecord) (paths : List TriePrefix) : List TrieDifference :=
  paths.flatMap fun path => compareRecords (below path left) (below path right)

/-- A prefix to ask about: its subtrees differ, and are of a leaf's worth or not. -/
def toPlace (f g : TriePrefix → Summary) (small : Bool) (path : TriePrefix) : Bool :=
  decide (f path ≠ g path) && (decide (max (f path).count (g path).count ≤ leafMax) == small)

def placedBelow (f g : TriePrefix → Summary) (small : Bool) (path : TriePrefix) : List TriePrefix :=
  ((finRange 256).filter fun x => toPlace f g small (path ++ [x])).map fun x => path ++ [x]

theorem placeChildren_fold (f g : TriePrefix → Summary) (path : TriePrefix)
    (slots : List (Fin 256)) (state : State) :
    slots.foldl (fun state x => if f (path ++ [x]) ≠ g (path ++ [x]) then
        place state (path ++ [x]) (f (path ++ [x])) (g (path ++ [x])) else state) state =
      { state with
        read := state.read ++
          (slots.filter fun x => toPlace f g true (path ++ [x])).map fun x => path ++ [x]
        descend := state.descend ++
          (slots.filter fun x => toPlace f g false (path ++ [x])).map fun x => path ++ [x] } := by
  induction slots generalizing state with
  | nil => simp
  | cons x slots ih =>
    rw [foldl_cons, ih]
    by_cases hne : f (path ++ [x]) ≠ g (path ++ [x])
    · by_cases hfew : max (f (path ++ [x])).count (g (path ++ [x])).count ≤ leafMax
      · have hread : toPlace f g true (path ++ [x]) = true := by
          rw [toPlace, decide_eq_true hne, decide_eq_true hfew]
          rfl
        have hdescend : toPlace f g false (path ++ [x]) = false := by
          rw [toPlace, decide_eq_true hne, decide_eq_true hfew]
          rfl
        rw [if_pos hne, place, if_pos hfew]
        simp [hread, hdescend]
      · have hread : toPlace f g true (path ++ [x]) = false := by
          rw [toPlace, decide_eq_true hne, decide_eq_false hfew]
          rfl
        have hdescend : toPlace f g false (path ++ [x]) = true := by
          rw [toPlace, decide_eq_true hne, decide_eq_false hfew]
          rfl
        rw [if_pos hne, place, if_neg hfew]
        simp [hread, hdescend]
    · have hnot small : toPlace f g small (path ++ [x]) = false := by
        rw [toPlace, decide_eq_false hne]
        rfl
      rw [if_neg hne]
      simp [hnot]

theorem placeChildren_eq (f g : TriePrefix → Summary) (path : TriePrefix) (state : State) :
    placeChildren state path (fun x => f (path ++ [x])) (fun x => g (path ++ [x])) = { state with
        read := state.read ++ placedBelow f g true path
        descend := state.descend ++ placedBelow f g false path } :=
  placeChildren_fold f g path (finRange 256) state

theorem placeLevel_eq (f g : TriePrefix → Summary) (level : List TriePrefix) (state : State) :
    level.foldl (fun state path =>
      placeChildren state path (fun x => f (path ++ [x])) (fun x => g (path ++ [x]))) state =
      { state with
        read := state.read ++ level.flatMap (placedBelow f g true)
        descend := state.descend ++ level.flatMap (placedBelow f g false) } := by
  induction level generalizing state with
  | nil => simp
  | cons path level ih =>
    rw [foldl_cons, placeChildren_eq, ih]
    simp

theorem zip_map_self {α β : Type} (f : α → β) (list : List α) :
    list.zip (list.map f) = list.map fun x => (x, f x) := by
  induction list with
  | nil => rfl
  | cons x list ih => rw [map_cons, map_cons, zip_cons_cons, ih]

theorem mem_placed : path ∈ level.flatMap (placedBelow f g small) ↔
      ∃ parent ∈ level, ∃ x, path = parent ++ [x] ∧ toPlace f g small path = true := by
  rw [mem_flatMap]
  refine exists_congr fun parent => and_congr_right fun _ => ?_
  simp only [placedBelow, List.mem_map, mem_filter, mem_finRange, true_and]
  constructor
  · rintro ⟨x, hplace, rfl⟩
    exact ⟨x, rfl, hplace⟩
  · rintro ⟨x, rfl, hplace⟩
    exact ⟨x, hplace, rfl⟩

theorem placed_once (h : level.Nodup) : (level.flatMap (placedBelow f g small)).Nodup := by
  refine pairwise_flatMap.2 ⟨fun path _ => ?_, h.imp fun {p q} hne a ha b hb heq => hne ?_⟩
  · refine List.Nodup.map ?_ ((nodup_finRange 256).filter _)
    intro x y hxy
    simpa using hxy
  · obtain ⟨x, -, rfl⟩ := List.mem_map.1 ha
    obtain ⟨y, -, rfl⟩ := List.mem_map.1 hb
    exact (append_inj' heq rfl).1

theorem length_below_le {records : List TrieRecord} (h : SortedRecords records)
    (hlong : 32 ≤ path.length) : (below path records).length ≤ leafMax := by
  have hone : (below path records).length ≤ 1 := by
    by_cases hwhole : path.length = 32
    · exact length_le_one (h.below path) (allBelow_below path records) hwhole
    · have hnone : below path records = [] := by
        rw [eq_nil_iff_forall_not_mem]
        intro record hrecord
        have hlength := (allBelow_below path records record hrecord).length_le
        rw [record.1.property] at hlength
        omega
      rw [hnone]
      exact Nat.zero_le 1
  exact hone.trans (by decide)

theorem diffLoop_mono {after : State} {fuel more : Nat}
    (h : diffLoop a b fuel state = some after) (hle : fuel ≤ more) :
    diffLoop a b more state = some after := by
  induction fuel generalizing state more with
  | zero => cases h
  | succ fuel ih =>
    obtain ⟨rest, rfl⟩ : ∃ rest, more = rest + 1 := ⟨more - 1, by omega⟩
    rw [diffLoop] at h ⊢
    split at h
    · next hdone => rw [if_pos hdone, h]
    · next hmore =>
      obtain ⟨read, hread, h⟩ := bind_eq_some_iff.1 h
      obtain ⟨next, hnext, h⟩ := bind_eq_some_iff.1 h
      rw [if_neg hmore, hread, bind_eq_bind, bind_some, hnext]
      exact ih h (by omega)

variable (hinj : Function.Injective sha256) (ha : Answers sha256 a left)
  (hb : Answers sha256 b right) (hleft : SortedRecords left) (hright : SortedRecords right)

include ha hb in
theorem readRound_eq (hfew : ∀ path ∈ state.read,
      (below path left).length ≤ leafMax ∧ (below path right).length ≤ leafMax) :
    ∃ cost, readRound a b state = some { state with
      read := []
      cost := cost
      visited := state.visited ++ readBelow left right state.read } := by
  by_cases hnone : state.read = []
  · obtain ⟨descend, read, cost, visited⟩ := state
    have hnone : read = [] := hnone
    subst hnone
    refine ⟨cost, ?_⟩
    rw [readBelow, flatMap_nil, append_nil]
    rfl
  · have hsome : ¬ state.read.isEmpty = true := by simpa using hnone
    have hzip : (state.read.map fun path => below path left).zip
        (state.read.map fun path => below path right) =
        state.read.map fun path => (below path left, below path right) :=
      zip_map'
    refine ⟨{ asked state.cost state.read with
      records := state.cost.records + (state.read.map fun path =>
        (below path left).length + (below path right).length).sum }, ?_⟩
    rw [readRound, if_neg hsome, ha.records state.read fun path hpath => (hfew path hpath).1,
      hb.records state.read fun path hpath => (hfew path hpath).2]
    simp only [bind_eq_bind, bind_some, hzip, flatMap_map, List.map_map]
    rfl

include ha hb in
theorem descendRound_eq (hread : state.read = [])
    (hshort : ∀ path ∈ state.descend, path.length < 32) :
    ∃ cost, descendRound a b state = some { state with
      read := state.descend.flatMap
        (placedBelow (summaryBelow sha256 left) (summaryBelow sha256 right) true)
      descend := state.descend.flatMap
        (placedBelow (summaryBelow sha256 left) (summaryBelow sha256 right) false)
      cost := cost } := by
  obtain ⟨descend, read, cost, visited⟩ := state
  have hread : read = [] := hread
  subst hread
  by_cases hnone : descend = []
  · subst hnone
    exact ⟨cost, rfl⟩
  · have hsome : ¬ descend.isEmpty = true := by simpa using hnone
    have hzip : descend.zip
        ((descend.map fun path x => summaryBelow sha256 left (path ++ [x])).zip
          (descend.map fun path x => summaryBelow sha256 right (path ++ [x]))) =
        descend.map fun path => (path, (fun x => summaryBelow sha256 left (path ++ [x])),
          fun x => summaryBelow sha256 right (path ++ [x])) := by
      rw [zip_map', zip_map_self]
    refine ⟨asked cost descend, ?_⟩
    rw [descendRound, if_neg hsome]
    show ((a.children descend).bind fun _ => _) = _
    rw [ha.children descend hshort, bind_some]
    show ((b.children descend).bind fun _ => _) = _
    rw [hb.children descend hshort, bind_some, hzip]
    show some ((descend.map _).foldl _ _) = _
    rw [foldl_map]
    exact congrArg some (placeLevel_eq (summaryBelow sha256 left) (summaryBelow sha256 right)
      descend { cost := asked cost descend, visited := visited })

include hleft hright

theorem mem_readBelow :
    d ∈ readBelow left right paths ↔ ∃ path ∈ paths, path <+: d.id.val ∧ Differs left right d := by
  rw [readBelow, mem_flatMap]
  refine exists_congr fun path => and_congr_right fun _ => ?_
  rw [mem_compareRecords (hleft.below path) (hright.below path), differs_below hleft hright]

theorem readBelow_once (hnodup : paths.Nodup)
    (hdepth : ∀ path ∈ paths, path.length = depth) :
    (readBelow left right paths).Pairwise fun d e => d.id ≠ e.id := by
  refine pairwise_flatMap.2 ⟨fun path _ => ?_, ?_⟩
  · exact (sorted_compareRecords (hleft.below path) (hright.below path)).imp fun hlt => hlt.ne
  · refine hnodup.imp_of_mem fun {p q} hp hq hne d hd e he heq => hne ?_
    have hdp := ((mem_compareRecords (hleft.below p) (hright.below p)).1 hd)
    have heq' := ((mem_compareRecords (hleft.below q) (hright.below q)).1 he)
    have hpid := ((differs_below hleft hright).1 hdp).1
    have hqid := ((differs_below hleft hright).1 heq').1
    rw [← heq] at hqid
    exact prefix_eq_of_length hpid hqid ((hdepth p hp).trans (hdepth q hq).symm)

theorem Walk.short (h : Walk left right depth state) :
    ∀ path ∈ state.descend, path.length < 32 := by
  intro path hpath
  by_contra hlong
  exact h.many path hpath ⟨length_below_le hleft (not_lt.1 hlong),
    length_below_le hright (not_lt.1 hlong)⟩

include hinj in
theorem toPlace_iff (hlength : path.length ≤ 32) (small : Bool) :
    toPlace (summaryBelow sha256 left) (summaryBelow sha256 right) small path = true ↔
      below path left ≠ below path right ∧
        (((below path left).length ≤ leafMax ∧ (below path right).length ≤ leafMax) ↔
          small = true) := by
  rw [toPlace, Bool.and_eq_true, decide_eq_true_iff, ne_eq,
    summaryBelow_eq_iff hinj hleft hright hlength, count_summaryBelow hleft hlength,
    count_summaryBelow hright hlength, beq_iff_eq, ← max_le_iff, Bool.eq_iff_iff,
    decide_eq_true_iff]

include ha hb

theorem readRound_walk (h : Walk left right depth state) :
    ∃ after, readRound a b state = some after ∧ after.read = [] ∧ Walk left right depth after := by
  obtain ⟨cost, hround⟩ := readRound_eq ha hb h.few
  have hreadDepth : ∀ path ∈ state.read, path.length = depth := fun path hpath =>
    h.depth path (mem_append_left _ hpath)
  refine ⟨_, hround, rfl, ?_⟩
  constructor
  · exact fun path hpath => h.depth path (mem_append_right _ hpath)
  · exact fun path hpath => h.reach path (mem_append_right _ hpath)
  · exact nodup_nil
  · exact h.descendOnce
  · simp
  · exact h.many
  · intro d hd
    rcases mem_append.1 hd with hd | hd
    · exact h.sound d hd
    · obtain ⟨path, -, -, hdiffers⟩ := (mem_readBelow hleft hright).1 hd
      exact hdiffers
  · refine pairwise_append.2 ⟨h.once, readBelow_once hleft hright h.readOnce hreadDepth, ?_⟩
    intro d hd e he heq
    obtain ⟨path, hpath, hid, -⟩ := (mem_readBelow hleft hright).1 he
    exact h.apart d hd path (mem_append_left _ hpath) (heq ▸ hid)
  · intro d hd path hpath hid
    have hpath : path ∈ state.descend := hpath
    rcases mem_append.1 hd with hd | hd
    · exact h.apart d hd path (mem_append_right _ hpath) hid
    · obtain ⟨other, hother, hotherId, -⟩ := (mem_readBelow hleft hright).1 hd
      have hsame := prefix_eq_of_length hid hotherId
        ((h.depth path (mem_append_right _ hpath)).trans (hreadDepth other hother).symm)
      exact h.many path hpath (hsame ▸ h.few other hother)
  · intro d hdiffers
    rcases h.complete d hdiffers with hd | ⟨path, hpath, hid⟩
    · exact .inl (mem_append_left _ hd)
    · rcases mem_append.1 hpath with hread | hdescend
      · exact .inl (mem_append_right _
          ((mem_readBelow hleft hright).2 ⟨path, hread, hid, hdiffers⟩))
      · exact .inr ⟨path, hdescend, hid⟩

theorem place_walk : Walk left right 0 (place {} [] a.root b.root) := by
  have hroot : below [] left = left := below_eq_self (allBelow_nil left)
  have hroot' : below [] right = right := below_eq_self (allBelow_nil right)
  have hcount : a.root.count = left.length := by
    rw [ha.root, count_summaryBelow hleft (Nat.zero_le _), hroot]
  have hcount' : b.root.count = right.length := by
    rw [hb.root, count_summaryBelow hright (Nat.zero_le _), hroot']
  rw [place, hcount, hcount']
  by_cases hfew : max left.length right.length ≤ leafMax
  · rw [if_pos hfew]
    refine ⟨by simp, by simp, by simp, by simp, ?_, by simp, by simp, by simp, by simp,
      fun d _ => .inr ⟨[], by simp, nil_prefix⟩⟩
    simpa [hroot, hroot'] using hfew
  · rw [if_neg hfew]
    refine ⟨by simp, by simp, by simp, by simp, by simp, ?_, by simp, by simp, by simp,
      fun d _ => .inr ⟨[], by simp, nil_prefix⟩⟩
    simpa [hroot, hroot'] using hfew

include hinj

theorem descendRound_walk (h : Walk left right depth state) (hread : state.read = []) :
    ∃ after, descendRound a b state = some after ∧ Walk left right (depth + 1) after := by
  have hshort := h.short hleft hright
  obtain ⟨cost, hround⟩ := descendRound_eq ha hb hread hshort
  have hparent path (hpath : path ∈ state.descend) : path.length = depth :=
    h.depth path (mem_append_right _ hpath)
  have hplaced {small : Bool} {path : TriePrefix} (hpath : path ∈ state.descend.flatMap
      (placedBelow (summaryBelow sha256 left) (summaryBelow sha256 right) small)) :
      ∃ parent ∈ state.descend, ∃ x, path = parent ++ [x] ∧ path.length ≤ 32 ∧
        (((below path left).length ≤ leafMax ∧ (below path right).length ≤ leafMax) ↔
          small = true) := by
    obtain ⟨parent, hmem, x, rfl, hplace⟩ := mem_placed.1 hpath
    have hlength : (parent ++ [x]).length ≤ 32 := by
      have := hshort parent hmem
      rw [length_append, length_singleton]
      omega
    exact ⟨parent, hmem, x, rfl, hlength,
      ((toPlace_iff hinj hleft hright hlength small).1 hplace).2⟩
  refine ⟨_, hround, ?_⟩
  constructor
  · intro path hpath
    have hdepth {small : Bool} (hmem : path ∈ state.descend.flatMap
        (placedBelow (summaryBelow sha256 left) (summaryBelow sha256 right) small)) :
        path.length = depth + 1 := by
      obtain ⟨parent, hparentMem, x, rfl, -⟩ := hplaced hmem
      rw [length_append, length_singleton, hparent parent hparentMem]
    rcases mem_append.1 hpath with hpath | hpath
    · exact hdepth hpath
    · exact hdepth hpath
  · intro path hpath
    rcases mem_append.1 hpath with hpath | hpath
    · obtain ⟨-, -, -, -, hlength, -⟩ := hplaced hpath
      exact hlength
    · obtain ⟨-, -, -, -, hlength, -⟩ := hplaced hpath
      exact hlength
  · exact placed_once h.descendOnce
  · exact placed_once h.descendOnce
  · intro path hpath
    obtain ⟨-, -, -, -, -, hfew⟩ := hplaced hpath
    exact hfew.2 rfl
  · intro path hpath hfew
    obtain ⟨-, -, -, -, -, hmany⟩ := hplaced hpath
    exact Bool.false_ne_true (hmany.1 hfew)
  · exact h.sound
  · exact h.once
  · intro d hd path hpath hid
    have hnot {small : Bool} (hmem : path ∈ state.descend.flatMap
        (placedBelow (summaryBelow sha256 left) (summaryBelow sha256 right) small)) : False := by
      obtain ⟨parent, hparentMem, x, rfl, -⟩ := hplaced hmem
      exact h.apart d hd parent (mem_append_right _ hparentMem)
        ((prefix_append parent [x]).trans hid)
    rcases mem_append.1 hpath with hpath | hpath
    · exact hnot hpath
    · exact hnot hpath
  · intro d hdiffers
    rcases h.complete d hdiffers with hd | ⟨parent, hmem, hid⟩
    · exact .inl hd
    · rw [hread, nil_append] at hmem
      have hnext := (covered_concat_iff (hshort parent hmem) _).2 ⟨hid, rfl⟩
      have hlength : (parent ++ [byteAt d.id parent.length]).length ≤ 32 := by
        have := hnext.length_le
        rw [d.id.property] at this
        exact this
      have hne : below (parent ++ [byteAt d.id parent.length]) left ≠
          below (parent ++ [byteAt d.id parent.length]) right := by
        intro heq
        have hbelow := (differs_below hleft hright).2 ⟨hnext, hdiffers⟩
        rw [heq] at hbelow
        exact hbelow.ne (hbelow.left_eq.trans hbelow.right_eq.symm)
      refine .inr ⟨_, ?_, hnext⟩
      by_cases hfew : (below (parent ++ [byteAt d.id parent.length]) left).length ≤ leafMax ∧
          (below (parent ++ [byteAt d.id parent.length]) right).length ≤ leafMax
      · refine mem_append_left _ (mem_placed.2 ⟨parent, hmem, _, rfl, ?_⟩)
        exact (toPlace_iff hinj hleft hright hlength true).2 ⟨hne, iff_of_true hfew rfl⟩
      · refine mem_append_right _ (mem_placed.2 ⟨parent, hmem, _, rfl, ?_⟩)
        exact (toPlace_iff hinj hleft hright hlength false).2
          ⟨hne, iff_of_false hfew Bool.false_ne_true⟩

/-- The walk ends: no prefix to come is longer than an id. -/
theorem diffLoop_walk {fuel : Nat} (h : Walk left right depth state) (hdepth : depth ≤ 33)
    (hfuel : 34 ≤ fuel + depth) :
    ∃ after, diffLoop a b fuel state = some after ∧ after.read = [] ∧ after.descend = [] ∧
      ∃ last, Walk left right last after := by
  induction fuel generalizing depth state with
  | zero => omega
  | succ fuel ih =>
    rw [diffLoop]
    by_cases hdone : (state.descend.isEmpty && state.read.isEmpty) = true
    · rw [if_pos hdone]
      simp only [Bool.and_eq_true, List.isEmpty_iff] at hdone
      exact ⟨state, rfl, hdone.2, hdone.1, depth, h⟩
    · have hlevel : depth ≤ 32 := by
        obtain ⟨path, hpath⟩ : ∃ path, path ∈ state.read ++ state.descend := by
          refine exists_mem_of_ne_nil _ fun hnil => hdone ?_
          obtain ⟨hread, hdescend⟩ := append_eq_nil_iff.1 hnil
          rw [hread, hdescend]
          rfl
        exact h.depth path hpath ▸ h.reach path hpath
      obtain ⟨read, hround, hempty, hwalk⟩ := readRound_walk ha hb hleft hright h
      obtain ⟨next, hnext, hwalk⟩ := descendRound_walk hinj ha hb hleft hright hwalk hempty
      rw [if_neg hdone, hround, bind_eq_bind, bind_some, hnext]
      exact ih hwalk (by omega) (by omega)

theorem diffTries_eq :
    ∃ cost visited, (∀ fuel, 34 ≤ fuel → diffTries a b fuel = some (cost, visited)) ∧
      visited.Pairwise (fun d e => d.id ≠ e.id) ∧ ∀ d, d ∈ visited ↔ Differs left right d := by
  by_cases hroot : a.root = b.root
  · have hsame : left = right := by
      rw [ha.root, hb.root, summaryBelow_eq_iff hinj hleft hright (Nat.zero_le _),
        below_eq_self (allBelow_nil left), below_eq_self (allBelow_nil right)] at hroot
      exact hroot
    refine ⟨{}, [], fun fuel _ => if_pos hroot, List.Pairwise.nil, fun d => ?_⟩
    constructor
    · exact fun hd => absurd hd not_mem_nil
    · intro hdiffers
      subst hsame
      exact (hdiffers.ne (hdiffers.left_eq.trans hdiffers.right_eq.symm)).elim
  · have hstart := place_walk ha hb hleft hright
    obtain ⟨after, hloop, hread, hdescend, last, hwalk⟩ :=
      diffLoop_walk hinj ha hb hleft hright hstart (by omega) (le_refl 34)
    refine ⟨after.cost, after.visited, fun fuel hfuel => ?_, hwalk.once, fun d => ?_⟩
    · rw [diffTries, if_neg hroot, diffLoop_mono hloop hfuel]
      rfl
    · refine ⟨hwalk.sound d, fun hdiffers => ?_⟩
      rcases hwalk.complete d hdiffers with hd | ⟨path, hpath, -⟩
      · exact hd
      · rw [hread, hdescend] at hpath
        exact absurd hpath not_mem_nil

end

/-! ## Snapshots as sources -/

/-- A snapshot as a source: it asks for the records of a prefix however many they are. -/
def snapshotSource (sha256 : HashInput → Hash256) (trie : ObjectTrie) : TrieSource where
  root := ⟨trie.size, trie.rootHash⟩
  children paths := paths.mapM (trie.children sha256)
  records paths := paths.mapM fun path => trie.records sha256 path (2 ^ 64 - 1)

theorem snapshotSource_answers {sha256 : HashInput → Hash256} {trie : ObjectTrie}
    {records : List TrieRecord} (h : trie.Holds sha256 records) :
    Answers sha256 (snapshotSource sha256 trie) records where
  root := by
    refine h.summary.trans ?_
    rw [summaryBelow, below_eq_self (allBelow_nil records)]
    rfl
  children paths hshort := by
    refine mapM_eq_map fun path hpath => ?_
    refine (children_canon h.sorted h.canon (hshort path hpath)).trans ?_
    congr 1
    funext x
    have hlevel : 32 - (path ++ [x]).length = 31 - path.length := by
      rw [length_append, length_singleton]
      omega
    rw [summaryBelow, hlevel]
  records paths hfew := by
    refine mapM_eq_map fun path hpath => ?_
    refine (records_canon h.sorted h.canon path (2 ^ 64 - 1)).trans (if_neg ?_)
    exact fun hmany => absurd (hfew path hpath) (not_le.2 hmany.1)

end TrieDiff

open TrieDiff

theorem leafFind_toList (held : LedgerRecords) (id : LedgerId) :
    Trie.leafFind held.toList id = held[id]? := by
  refine Option.ext fun value => ?_
  rw [Trie.leafFind_eq_some_iff (sorted_toList held), OrdMap.mem_toList]

/-- Two sources that answer as tries of their records: the diff ends, and visits
every id whose record differs once, and no other. -/
theorem diff_visits_differences {sha256 : Trie.HashInput → Hash256}
    (hinj : Function.Injective sha256) {a b : TrieSource} {left right : LedgerRecords}
    (ha : Answers sha256 a left.toList) (hb : Answers sha256 b right.toList) :
    ∃ cost visited, (∀ fuel, 34 ≤ fuel → diffTries a b fuel = some (cost, visited)) ∧
      (visited.map (·.id)).Nodup ∧
      ∀ d, d ∈ visited ↔
        d.left = left[d.id]? ∧ d.right = right[d.id]? ∧ left[d.id]? ≠ right[d.id]? := by
  obtain ⟨cost, visited, hdiff, honce, hmem⟩ :=
    diffTries_eq hinj ha hb (sorted_toList left) (sorted_toList right)
  refine ⟨cost, visited, hdiff, pairwise_map.2 honce, fun d => ?_⟩
  rw [hmem]
  constructor
  · rintro ⟨hl, hr, hne⟩
    rw [leafFind_toList] at hl hr
    exact ⟨hl, hr, fun heq => hne (hl.trans (heq.trans hr.symm))⟩
  · rintro ⟨hl, hr, hne⟩
    refine ⟨?_, ?_, ?_⟩
    · rw [leafFind_toList, hl]
    · rw [leafFind_toList, hr]
    · rw [hl, hr]
      exact hne

namespace TwoSnapshots

/-- More ids than a leaf holds, each with its value. -/
def both : LedgerRecords := WideIds.ids.foldl (fun held id => held.insert id [2]) ∅

def left : LedgerRecords := both.insert (WideIds.wideId 200) [2]

def right : LedgerRecords := both.insert (WideIds.wideId 100) [3]

/-- A changed value and an id of one side, of two tries built of their records. -/
theorem two_snapshots_differ : ∃ a b, ObjectTrie.scratch Trie.namedHash left = some a ∧
    ObjectTrie.scratch Trie.namedHash right = some b ∧
    ∃ cost visited, (∀ fuel, 34 ≤ fuel →
        diffTries (snapshotSource Trie.namedHash a) (snapshotSource Trie.namedHash b) fuel =
          some (cost, visited)) ∧
      (visited.map (·.id)).Nodup ∧
      ∀ d, d ∈ visited ↔
        d.left = left[d.id]? ∧ d.right = right[d.id]? ∧ left[d.id]? ≠ right[d.id]? := by
  obtain ⟨a, ha, hholds⟩ := scratch_holds Trie.namedHash left
  obtain ⟨b, hb, hholds'⟩ := scratch_holds Trie.namedHash right
  exact ⟨a, b, ha, hb, diff_visits_differences Trie.namedHash_injective
    (snapshotSource_answers hholds) (snapshotSource_answers hholds')⟩

end TwoSnapshots

end Macha
