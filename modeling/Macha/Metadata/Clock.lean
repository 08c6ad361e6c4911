import Macha.Metadata.Merge

/-!
# Clocks

When one clock covers another, and what a merge makes of two.
-/

namespace Macha

variable {clock other : VersionClock} {dot : MetadataDot}

theorem clockCoversClock_iff : clockCoversClock clock other ↔
      ∀ (node : NodeId) sequence, other[node]? = some sequence →
        ∃ mine, clock[node]? = some mine ∧ sequence ≤ mine := by
  unfold clockCoversClock
  rw [List.all_eq_true]
  constructor
  · intro h node sequence hin
    have hnode := h (node, sequence) ((OrdMap.mem_toList _ _ _).2 hin)
    cases hc : clock[node]? with
    | none => simp [hc] at hnode
    | some mine => exact ⟨mine, rfl, by simpa [hc] using hnode⟩
  · rintro h ⟨node, sequence⟩ hin
    rcases h node sequence ((OrdMap.mem_toList _ _ _).1 hin) with ⟨mine, hmine, hle⟩
    simp [hmine, hle]

theorem clockCoversClock_refl (clock : VersionClock) : clockCoversClock clock clock :=
  clockCoversClock_iff.2 fun _ sequence h => ⟨sequence, h, Nat.le_refl _⟩

theorem clockCoversClock_trans {a b c : VersionClock} (hab : clockCoversClock a b)
    (hbc : clockCoversClock b c) : clockCoversClock a c := by
  rw [clockCoversClock_iff] at *
  intro node sequence h
  rcases hbc node sequence h with ⟨middle, hmiddle, hle⟩
  rcases hab node middle hmiddle with ⟨mine, hmine, hle'⟩
  exact ⟨mine, hmine, Nat.le_trans hle hle'⟩

theorem clockCovers_iff :
    clockCovers clock dot ↔ ∃ mine, clock[dot.author]? = some mine ∧ dot.sequence ≤ mine := by
  unfold clockCovers
  cases clock[dot.author]? <;> simp

theorem clockCovers_mono (h : clockCoversClock clock other) (hdot : clockCovers other dot) :
    clockCovers clock dot := by
  rw [clockCoversClock_iff] at h
  rw [clockCovers_iff] at *
  rcases hdot with ⟨theirs, htheirs, hle⟩
  rcases h _ _ htheirs with ⟨mine, hmine, hle'⟩
  exact ⟨mine, hmine, Nat.le_trans hle hle'⟩

theorem clockCoversClock_insert {node : NodeId} {sequence : Nat}
    (h : clock.getD node 0 < sequence) : clockCoversClock (clock.insert node sequence) clock := by
  rw [clockCoversClock_iff]
  intro other theirs htheirs
  by_cases hnode : node = other
  · subst hnode
    rw [Std.ExtTreeMap.getD_eq_getD_getElem?, htheirs, Option.getD_some] at h
    exact ⟨sequence, OrdMap.getElem?_insert_self _ _ _, Nat.le_of_lt h⟩
  · exact ⟨theirs, by rw [OrdMap.getElem?_insert_of_ne _ _ hnode, htheirs], Nat.le_refl _⟩

theorem unseen_of_beyond {author : NodeId} (hauthor : dot.author = author)
    (h : clock.getD author 0 < dot.sequence) :
    dot.isSet ∧ clockCovers clock dot = false := by
  constructor
  · simp only [MetadataDot.isSet, bne_iff_ne, ne_eq]
    omega
  · unfold clockCovers
    rw [Std.ExtTreeMap.getD_eq_getD_getElem?] at h
    rw [hauthor]
    cases hc : clock[author]? with
    | none => rfl
    | some mine =>
      rw [hc, Option.getD_some] at h
      simp only [decide_eq_false_iff_not]
      omega

theorem getD_le_of_covers (h : clockCoversClock clock other) (author : NodeId) :
    other.getD author 0 ≤ clock.getD author 0 := by
  rw [Std.ExtTreeMap.getD_eq_getD_getElem?, Std.ExtTreeMap.getD_eq_getD_getElem?]
  cases ho : other[author]? with
  | none => simp
  | some theirs =>
    rcases clockCoversClock_iff.1 h author theirs ho with ⟨mine, hmine, hle⟩
    simp [hmine, hle]

end Macha
