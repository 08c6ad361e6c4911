import Macha.Storage.Retention

/-!
# Scanning a retention ledger

`scan_locked` reads records a page at a time from behind a cursor, goes on from the first
record once, and returns at a record that is not before the first one it visited. Where no
record is behind the cursor that is the second record.
-/

namespace Macha

open List

namespace ClassLedger

abbrev Record := ObjectId × ObjectState

/-- `ObjectTrie::next`. -/
def nextRecords (trie : RetentionLedger) (after : Option ObjectId) (limit : Nat) : List Record :=
  (trie.toList.filter fun item => after.all (· < item.1)).take limit

structure Scan where
  cursor : Option ObjectId
  after : Option ObjectId
  start : Option ObjectId := none
  wrapped : Bool := false
  visited : List Record := []

def Scan.visit (scan : Scan) (item : Record) : Scan :=
  { scan with
    start := scan.start.or (some item.1)
    visited := scan.visited ++ [item]
    cursor := some item.1
    after := some item.1 }

section

variable (goesOn : List Record → Bool)

/-- The records of a page, and whether the scan returns at one of them. What the visitor
answers depends on all it was given so far. -/
def visitPage : List Record → Scan → Scan × Bool
  | [], scan => (scan, false)
  | item :: page, scan =>
    if scan.wrapped && scan.start.any (· ≤ item.1) then (scan, true)
    else if goesOn (scan.visit item).visited then visitPage page (scan.visit item)
    else (scan.visit item, true)

def scanLoop (trie : RetentionLedger) (limit : Nat) : Nat → Scan → Option Scan
  | 0, _ => none
  | fuel + 1, scan =>
    if limit ≤ scan.visited.length then some scan
    else
      let page := nextRecords trie scan.after (min 256 (limit - scan.visited.length))
      if page = [] then
        if scan.wrapped || scan.after.isNone then some scan
        else scanLoop trie limit fuel { scan with wrapped := true, after := none }
      else if (visitPage goesOn page scan).2 then some (visitPage goesOn page scan).1
      else scanLoop trie limit fuel (visitPage goesOn page scan).1

/-- `scan_locked`, whose loop ends within this many rounds. -/
def scanLocked (trie : RetentionLedger) (cursor : Option ObjectId) (limit : Nat) : Option Scan :=
  scanLoop goesOn trie limit (limit + 2) { cursor, after := cursor }

end

/-- Cyclic id order, starting after the cursor. -/
def cyclicOrder (trie : RetentionLedger) (cursor : Option ObjectId) : List Record :=
  trie.toList.filter (fun item => cursor.all (· < item.1)) ++
    trie.toList.filter fun item => cursor.any (item.1 ≤ ·)

structure Scan.GoesRound (trie : RetentionLedger) (cursor : Option ObjectId) (limit : Nat)
    (scan : Scan) : Prop where
  visited : scan.visited = (cyclicOrder trie cursor).take limit
  count : scan.visited.length = min limit trie.toList.length
  distinct : (scan.visited.map (·.1)).Nodup
  cursor : scan.cursor = (scan.visited.getLast?.map (·.1)).or cursor

variable {goesOn : List Record → Bool} {trie : RetentionLedger} {cursor : Option ObjectId}
  {limit : Nat} {scan : Scan} {page rest : List Record}

/-! ## Records in order -/

theorem sorted_toList (trie : RetentionLedger) : trie.toList.Pairwise fun x y => x.1 < y.1 :=
  Std.ExtTreeMap.ordered_keys_toList.imp fun h => compare_lt_iff_lt.1 h

theorem filter_behind {item : Record} (h : trie.toList = page ++ item :: rest) :
    (trie.toList.filter fun other => item.1 < other.1) = rest := by
  have hsorted := sorted_toList trie
  rw [h, pairwise_append, pairwise_cons] at hsorted
  obtain ⟨-, ⟨hrest, -⟩, hpage⟩ := hsorted
  have hnone : page.filter (fun other => item.1 < other.1) = [] :=
    filter_eq_nil_iff.2 fun other hother => by simpa using (hpage other hother item mem_cons_self).le
  have hall : rest.filter (fun other => item.1 < other.1) = rest :=
    filter_eq_self.2 fun other hother => decide_eq_true (hrest other hother)
  rw [h, filter_append, hnone, filter_cons, hall]
  simp

theorem toList_eq_append (trie : RetentionLedger) (cursor : Option ObjectId) :
    trie.toList = (trie.toList.filter fun item => cursor.any (item.1 ≤ ·)) ++
      trie.toList.filter fun item => cursor.all (· < item.1) := by
  cases cursor with
  | none => simp
  | some id =>
    have hsorted := sorted_toList trie
    generalize trie.toList = items at hsorted ⊢
    induction items with
    | nil => rfl
    | cons item items ih =>
      obtain ⟨hitem, hitems⟩ := pairwise_cons.1 hsorted
      by_cases hle : item.1 ≤ id
      · simpa [hle] using ih hitems
      · have hlater : ∀ other ∈ items, id < other.1 := fun other hother =>
          (not_le.1 hle).trans (hitem other hother)
        have hnone : items.filter (fun other => other.1 ≤ id) = [] :=
          filter_eq_nil_iff.2 fun other hother => by simpa using hlater other hother
        have hevery : items.filter (fun other => id < other.1) = items :=
          filter_eq_self.2 fun other hother => decide_eq_true (hlater other hother)
        simp [hle, not_le.1 hle, hnone, hevery]

theorem nextRecords_append {read : Nat} (hpage : nextRecords trie cursor read = page)
    (hle : read ≤ limit) (hne : page ≠ []) :
    nextRecords trie cursor limit =
      page ++ nextRecords trie ((page.getLast?.map (·.1)).or cursor) (limit - page.length) := by
  obtain ⟨front, last, rfl⟩ := (eq_nil_or_concat page).resolve_left hne
  have hall := toList_eq_append trie cursor
  unfold nextRecords at hpage ⊢
  generalize (trie.toList.filter fun item => cursor.all (· < item.1)) = ahead at hall hpage ⊢
  obtain ⟨later, rfl⟩ : ∃ later, ahead = front ++ last :: later := by
    refine ⟨ahead.drop read, ?_⟩
    rw [← singleton_append, ← append_assoc, ← concat_eq_append, ← hpage, take_append_drop]
  have hlength : front.length + 1 ≤ limit := by
    have := congrArg length hpage
    simp at this
    omega
  obtain ⟨more, rfl⟩ := Nat.exists_eq_add_of_le hlength
  rw [← append_assoc] at hall
  have hmore : front.length + 1 + more - (front.concat last).length = more := by simp
  rw [hmore, Nat.add_assoc, take_length_add_append, Nat.add_comm 1, take_succ_cons]
  simp [filter_behind hall]

/-! ## Pages -/

theorem foldl_visit (page : List Record) (scan : Scan) :
    page.foldl Scan.visit scan =
      { scan with
        start := scan.start.or (page.head?.map (·.1))
        visited := scan.visited ++ page
        cursor := (page.getLast?.map (·.1)).or scan.cursor
        after := (page.getLast?.map (·.1)).or scan.after } := by
  induction page generalizing scan with
  | nil => simp
  | cons item page ih =>
    rw [foldl_cons, ih]
    cases hlast : page.getLast? <;> simp [Scan.visit, getLast?_cons, hlast]

/-- Either the scan returns within the page, and what follows it does not matter, or it
visits the whole page and goes on behind it. -/
theorem visitPage_append (page rest : List Record) (scan : Scan) :
    (visitPage goesOn page scan).2 = true ∧
        visitPage goesOn (page ++ rest) scan = visitPage goesOn page scan ∨
      visitPage goesOn page scan = (page.foldl Scan.visit scan, false) ∧
        visitPage goesOn (page ++ rest) scan =
          visitPage goesOn rest (page.foldl Scan.visit scan) := by
  induction page generalizing scan with
  | nil => exact .inr ⟨rfl, rfl⟩
  | cons item page ih =>
    simp only [cons_append, visitPage, foldl_cons]
    split
    · exact .inl ⟨rfl, rfl⟩
    · split
      · exact ih _
      · exact .inl ⟨rfl, rfl⟩

/-- What a scan ends with that has read to the end of the ledger, or returned before. -/
def Scan.finish (goesOn : List Record → Bool) (trie : RetentionLedger) (limit : Nat)
    (wrapped : Bool) (read : Scan × Bool) : Scan :=
  if read.2 || limit ≤ read.1.visited.length || wrapped || read.1.after.isNone then read.1
  else (visitPage goesOn (trie.toList.take (limit - read.1.visited.length))
    { read.1 with wrapped := true, after := none }).1

/-- Reading page by page is reading in one page. -/
theorem scanLoop_eq {fuel : Nat}
    (hfuel : limit - scan.visited.length + (if scan.wrapped then 0 else 1) < fuel) :
    scanLoop goesOn trie limit fuel scan = some (Scan.finish goesOn trie limit scan.wrapped
      (visitPage goesOn (nextRecords trie scan.after (limit - scan.visited.length)) scan)) := by
  induction fuel generalizing scan with
  | zero => omega
  | succ fuel ih =>
    unfold scanLoop
    split
    · next hfull =>
      have hnone : nextRecords trie scan.after (limit - scan.visited.length) = [] := by
        simp [nextRecords, Nat.sub_eq_zero_of_le hfull]
      rw [hnone]
      simp [visitPage, Scan.finish, hfull]
    · next hroom =>
      dsimp only
      split
      · next hpage =>
        have hnone : nextRecords trie scan.after (limit - scan.visited.length) = [] := by
          unfold nextRecords at hpage ⊢
          rw [take_eq_nil_iff] at hpage ⊢
          exact .inr (hpage.resolve_left (by omega))
        rw [hnone]
        split
        · next hend => simp [visitPage, Scan.finish, Bool.or_assoc, hend]
        · next hend =>
          have hwrapped : scan.wrapped = false := by simp_all
          rw [ih (by simp_all)]
          simp [visitPage, Scan.finish, hend, hroom, nextRecords]
      · next hpage =>
        rw [nextRecords_append rfl (Nat.min_le_right 256 _) hpage]
        generalize nextRecords trie scan.after (min 256 (limit - scan.visited.length)) = page
          at hpage ⊢
        rcases visitPage_append page _ scan with ⟨hreturned, hsame⟩ | ⟨hvisited, hbehind⟩
        · rw [if_pos hreturned, hsame]
          simp [Scan.finish, hreturned]
        · have hlength := length_pos_of_ne_nil hpage
          rw [hvisited, hbehind, if_neg nofun, foldl_visit, ih]
          · simp [Nat.sub_add_eq]
          · simp only [length_append]
            omega

/-! ## A visitor that never stops -/

theorem visitPage_unwrapped (h : scan.wrapped = false) :
    visitPage (fun _ => true) page scan = (page.foldl Scan.visit scan, false) := by
  induction page generalizing scan with
  | nil => rfl
  | cons item page ih =>
    rw [visitPage, h]
    exact ih h

theorem visitPage_until {start : ObjectId} (hwrapped : scan.wrapped = true)
    (hstart : scan.start = some start) (hpage : ∀ item ∈ page, item.1 < start)
    (hrest : ∀ item ∈ rest.head?, start ≤ item.1) :
    (visitPage (fun _ => true) (page ++ rest) scan).1 = page.foldl Scan.visit scan := by
  induction page generalizing scan with
  | nil =>
    cases rest with
    | nil => rfl
    | cons item rest => simp [visitPage, hwrapped, hstart, hrest item rfl]
  | cons item page ih =>
    have hlt := hpage item mem_cons_self
    have hnot : (scan.wrapped && scan.start.any (· ≤ item.1)) = false := by simp [hstart, hlt]
    rw [cons_append, visitPage, hnot]
    refine ih hwrapped ?_ fun other hother => hpage other (mem_cons_of_mem item hother)
    simp [Scan.visit, hstart]

theorem scanOrder_eq (trie : RetentionLedger) (cursor : Option ObjectId) :
    scanOrder trie cursor =
      if (trie.toList.filter fun item => cursor.all (· < item.1)) = [] then trie.toList.take 1
      else cyclicOrder trie cursor := by
  cases cursor with
  | none =>
    by_cases hnone : trie.toList = []
    · simp [scanOrder, hnone]
    · simp [scanOrder, cyclicOrder, hnone]
  | some id => rfl

theorem scanLocked_eq (trie : RetentionLedger) (cursor : Option ObjectId) (limit : Nat) :
    ∃ scan, scanLocked (fun _ => true) trie cursor limit = some scan ∧
      scan.visited = (scanOrder trie cursor).take limit ∧
      scan.cursor = (scan.visited.getLast?.map (·.1)).or cursor := by
  have hall := toList_eq_append trie cursor
  have hsorted := sorted_toList trie
  unfold scanLocked
  rw [scanLoop_eq (by simp), visitPage_unwrapped rfl, scanOrder_eq]
  refine ⟨_, rfl, ?_⟩
  unfold nextRecords cyclicOrder
  generalize (trie.toList.filter fun item => cursor.all (· < item.1)) = ahead at hall ⊢
  generalize hbehind : (trie.toList.filter fun item => cursor.any (item.1 ≤ ·)) = behind at hall ⊢
  dsimp only [length_nil, Nat.sub_zero]
  by_cases hfull : limit ≤ ahead.length
  · rw [foldl_visit, Scan.finish, if_pos (by simp [hfull])]
    refine ⟨?_, by simp⟩
    split
    · next hnone =>
      have hzero : limit = 0 := by simpa [hnone] using hfull
      simp [hzero]
    · exact (take_append_of_le_length hfull).symm
  rw [take_of_length_le (not_le.1 hfull).le, foldl_visit]
  cases ahead with
  | nil =>
    obtain ⟨more, rfl⟩ : ∃ more, limit = more + 1 := ⟨limit - 1, by simp at hfull; omega⟩
    cases cursor with
    | none => simp_all [Scan.finish]
    | some id =>
      cases hitems : trie.toList with
      | nil => simp [Scan.finish, hitems, visitPage]
      | cons item items =>
        rw [hitems, pairwise_cons] at hsorted
        have hsecond : ∀ other ∈ (items.take more).head?, item.1 ≤ other.1 := fun other hother =>
          (hsorted.1 other (mem_of_mem_take (mem_of_mem_head? hother))).le
        rw [Scan.finish, if_neg (by simp), hitems]
        show (visitPage _ (item :: ([] ++ items.take more)) _).1.visited = _ ∧
          (visitPage _ (item :: ([] ++ items.take more)) _).1.cursor =
            (Option.map _ (visitPage _ (item :: ([] ++ items.take more)) _).1.visited.getLast?).or _
        rw [visitPage, if_neg (by simp), if_pos rfl, visitPage_until rfl rfl (by simp) hsecond]
        simp [Scan.visit]
  | cons first ahead =>
    have hlimit := not_le.1 hfull
    rw [hall, pairwise_append] at hsorted
    rw [Scan.finish, if_neg (by simpa using hlimit), hall, take_append, visitPage_until rfl rfl]
    · rw [foldl_visit, if_neg (cons_ne_nil _ _), take_append, take_of_length_le hlimit.le]
      have hlast l : (l.getLast?.map (·.1)).or
          (((first :: ahead).getLast?.map (·.1)).or cursor) =
            ((first :: ahead ++ l).getLast?.map (·.1)).or cursor := by
        rw [getLast?_append, Option.map_or, Option.or_assoc]
      exact ⟨rfl, hlast _⟩
    · exact fun item hitem => hsorted.2.2 item (mem_of_mem_take hitem) first mem_cons_self
    · intro item hitem
      rw [head?_take] at hitem
      split at hitem
      · cases hitem
      · cases hitem
        exact le_rfl

end ClassLedger

open ClassLedger

/-- For every ledger, cursor and limit: a scan goes round exactly if a record is behind the
cursor, or one record is all there is to visit. -/
theorem retention_scan_goes_round_iff (trie : RetentionLedger) (cursor : Option ObjectId)
    (limit : Nat) :
    (∃ scan, scanLocked (fun _ => true) trie cursor limit = some scan ∧
      scan.GoesRound trie cursor limit) ↔
    limit ≤ 1 ∨ trie.toList.length ≤ 1 ∨ ∃ item ∈ trie.toList, ∀ id ∈ cursor, id < item.1 := by
  obtain ⟨scan, hscan, hvisited, hcursor⟩ := scanLocked_eq trie cursor limit
  have hall := toList_eq_append trie cursor
  have hafter : (∃ item ∈ trie.toList, ∀ id ∈ cursor, id < item.1) ↔
      (trie.toList.filter fun item => cursor.all (· < item.1)) ≠ [] := by
    rw [Ne, filter_eq_nil_iff]
    cases cursor <;> simp [and_assoc]
  rw [hafter]
  rw [scanOrder_eq] at hvisited
  constructor
  · rintro ⟨other, hother, hround⟩
    cases hscan.symm.trans hother
    by_contra hnot
    simp only [not_or, not_not, not_le] at hnot
    have hcount := hround.count
    rw [hvisited, if_pos hnot.2.2, length_take, length_take] at hcount
    omega
  · intro hsafe
    have hperm : (cyclicOrder trie cursor).Perm trie.toList := by
      rw [hall]
      exact perm_append_comm
    have hround : scan.visited = (cyclicOrder trie cursor).take limit := by
      rw [hvisited]
      split
      · next hnone =>
        have hsame : cyclicOrder trie cursor = trie.toList := by
          rw [hnone, append_nil] at hall
          rw [cyclicOrder, hnone, nil_append, ← hall]
        rw [hsame]
        rcases hsafe with hlimit | hone | hsome
        · rw [take_take, Nat.min_eq_left hlimit]
        · rw [take_of_length_le hone]
        · exact absurd hnone hsome
      · rfl
    refine ⟨scan, hscan, hround, ?_, ?_, hcursor⟩
    · rw [hround, length_take, hperm.length_eq]
    · have hkeys : ((cyclicOrder trie cursor).map (·.1)).Nodup :=
        (hperm.map _).nodup_iff.2 (pairwise_map.2 (OrdMap.toList_pairwise_ne trie))
      rw [hround]
      exact hkeys.sublist ((take_sublist _ _).map _)

/-- Of two records one is visited where the cursor is at the last one. -/
theorem retention_scan_stops_early :
    let trie := ((∅ : RetentionLedger).insert [1] {}).insert [2] {}
    ∃ scan, scanLocked (fun _ => true) trie (some [2]) 2 = some scan ∧
      trie.toList.length = 2 ∧ scan.visited.map (·.1) = [[1]] := by
  intro trie
  have hscan : ((scanLocked (fun _ => true) trie (some [2]) 2).any fun scan =>
      trie.toList.length = 2 ∧ scan.visited.map (·.1) = [[1]]) = true := by decide +kernel
  obtain ⟨scan, hscan, hvisited⟩ := (Option.any_eq_true _ _).1 hscan
  exact ⟨scan, hscan, of_decide_eq_true hvisited⟩

end Macha
