import Mathlib.Data.Prod.Lex
import Mathlib.Tactic.Common

/-!
# Picking one of two by a rank

An operation that takes a value from the operand with the greater key, ties by a
context that it also combines. Over three operands it is associative where the
context that decides a tie is the same in whichever order they are combined.
-/

namespace Macha

section

variable {α β : Type} [LinearOrder α] [LinearOrder β] {x x' : α} {y y' : β}

theorem fst_le_of_toLex_le (h : toLex (x, y) ≤ toLex (x', y')) : x ≤ x' := by
  rcases Prod.Lex.toLex_le_toLex.1 h with h | h
  · exact h.le
  · exact h.1.le

theorem snd_le_of_toLex_le (h : toLex (x, y) ≤ toLex (x', y')) (heq : x = x') : y ≤ y' := by
  rcases Prod.Lex.toLex_le_toLex.1 h with h | h
  · exact absurd h (not_lt.2 heq.ge)
  · exact h.2

theorem toLex_le_of_toLex_le {γ : Type} [LinearOrder γ] {z z' : γ}
    (h : toLex (x, y) ≤ toLex (x', y')) (hsnd : y ≤ y' → z ≤ z') :
    toLex (x, z) ≤ toLex (x', z') :=
  Prod.Lex.toLex_le_toLex.2 ((Prod.Lex.toLex_le_toLex.1 h).imp_right (And.imp_right hsnd))

theorem toLex_le_of_le (hfst : x ≤ x') (hsnd : x = x' → y ≤ y') :
    toLex (x, y) ≤ toLex (x', y') :=
  Prod.Lex.toLex_le_toLex.2 (hfst.lt_or_eq.imp_right fun heq => ⟨heq, hsnd heq⟩)

end

variable {ρ κ χ γ : Type} [LinearOrder κ] [LinearOrder χ] [LinearOrder γ]

/-- What is compared: the key, then the context, then the value itself. -/
def pickRank (key : ρ → κ) (context : ρ → χ) (value : ρ → γ) (x : ρ) : κ ×ₗ χ ×ₗ γ :=
  toLex (key x, toLex (context x, value x))

/-- The key is the greater of the two, and the value that of the greater rank. -/
structure Picks (op : ρ → ρ → ρ) (key : ρ → κ) (context : ρ → χ) (value : ρ → γ) : Prop where
  comm : ∀ a b, op a b = op b a
  key_op : ∀ a b, key (op a b) = max (key a) (key b)
  value_op : ∀ a b, pickRank key context value b ≤ pickRank key context value a →
    value (op a b) = value a

/-- Of three, those that share the greatest key agree. -/
def TiesAgree (key : ρ → κ) (value : ρ → γ) (a b c : ρ) : Prop :=
  ∀ x ∈ [a, b, c], ∀ y ∈ [a, b, c], key x = key y → (∀ z ∈ [a, b, c], key z ≤ key x) →
    value x = value y

/-- The one yields to both others; of these one yields too, or has the greater key. -/
structure FallsBehind (key : ρ → κ) (yields : ρ → ρ → Prop) (z x y : ρ) : Prop where
  left : yields z x
  right : yields z y
  rest : yields x y ∨ yields y x ∨ key z < key x ∨ key z < key y

/-- The tie among three falls alike in whichever order they are combined: those that share
the greatest key agree, or one of the three falls behind. -/
def TieSettled (key : ρ → κ) (value : ρ → γ) (yields : ρ → ρ → Prop) (a b c : ρ) : Prop :=
  TiesAgree key value a b c ∨ FallsBehind key yields a b c ∨ FallsBehind key yields b c a ∨
    FallsBehind key yields c a b

namespace Picks

variable {op : ρ → ρ → ρ} {key : ρ → κ} {context : ρ → χ} {value : ρ → γ}

section

variable (h : Picks op key context value) {a b c : ρ}

include h

theorem value_op_of_le
    (hle : pickRank key context value a ≤ pickRank key context value b) :
    value (op a b) = value b := by
  rw [h.comm]
  exact h.value_op b a hle

theorem eq_or (a b : ρ) :
    key (op a b) = key a ∧ value (op a b) = value a ∨
      key (op a b) = key b ∧ value (op a b) = value b := by
  rcases le_total (pickRank key context value b) (pickRank key context value a) with hle | hle
  · exact .inl ⟨(h.key_op a b).trans (max_eq_left (fst_le_of_toLex_le hle)), h.value_op a b hle⟩
  · exact .inr ⟨(h.key_op a b).trans (max_eq_right (fst_le_of_toLex_le hle)),
      h.value_op_of_le hle⟩

theorem value_op_congr (heq : pickRank key context value b = pickRank key context value c) :
    value (op a b) = value (op a c) := by
  have hvalue : value b = value c :=
    congrArg (fun r => (ofLex (ofLex r).2).2) heq
  rcases le_total (pickRank key context value a) (pickRank key context value b) with hle | hle
  · rw [h.value_op_of_le hle, h.value_op_of_le (heq ▸ hle), hvalue]
  · rw [h.value_op a b hle, h.value_op a c (heq ▸ hle)]

/-- One that changes no context takes nothing from a rank it is below. -/
theorem rank_op (hrank : pickRank key context value b ≤ pickRank key context value a)
    (hcontext : context (op a b) = context a) :
    pickRank key context value (op a b) = pickRank key context value a := by
  unfold pickRank
  rw [h.key_op, max_eq_left (fst_le_of_toLex_le hrank), hcontext, h.value_op a b hrank]

theorem assoc_of_agree (hagree : TiesAgree key value a b c) :
    value (op a (op b c)) = value (op (op a b) c) := by
  -- both sides have the greatest key, and the value of one of the three with it
  have hleft : ∃ x ∈ [a, b, c], key (op a (op b c)) = key x ∧ value (op a (op b c)) = value x := by
    rcases h.eq_or a (op b c) with ha | ⟨hk, hv⟩
    · exact ⟨a, by simp, ha⟩
    · rcases h.eq_or b c with hb | hc
      · exact ⟨b, by simp, hk.trans hb.1, hv.trans hb.2⟩
      · exact ⟨c, by simp, hk.trans hc.1, hv.trans hc.2⟩
  have hright : ∃ y ∈ [a, b, c], key (op (op a b) c) = key y ∧ value (op (op a b) c) = value y := by
    rcases h.eq_or (op a b) c with ⟨hk, hv⟩ | hc
    · rcases h.eq_or a b with ha | hb
      · exact ⟨a, by simp, hk.trans ha.1, hv.trans ha.2⟩
      · exact ⟨b, by simp, hk.trans hb.1, hv.trans hb.2⟩
    · exact ⟨c, by simp, hc⟩
  obtain ⟨x, hx, hkx, hvx⟩ := hleft
  obtain ⟨y, hy, hky, hvy⟩ := hright
  rw [hvx, hvy]
  have hmax : key (op a (op b c)) = max (key a) (max (key b) (key c)) := by
    rw [h.key_op, h.key_op]
  have hsame : key (op (op a b) c) = max (key a) (max (key b) (key c)) := by
    rw [h.key_op, h.key_op, max_assoc]
  refine hagree x hx y hy (by rw [← hkx, ← hky, hmax, hsame]) ?_
  rw [← hkx, hmax]
  simp

variable {yields : ρ → ρ → Prop}

/-- Whichever two are combined first, the one behind takes no part. -/
theorem same_of_behind
    (hrank : ∀ z x, yields z x → pickRank key context value z ≤ pickRank key context value x)
    (hcontext : ∀ z x, yields z x → context (op x z) = context x) {z x y : ρ}
    (hz : FallsBehind key yields z x y) :
    value (op x (op y z)) = value (op z (op x y)) ∧
      value (op y (op z x)) = value (op z (op x y)) := by
  have hyields : ∀ {u v}, yields u v →
      pickRank key context value (op v u) = pickRank key context value v :=
    fun hu => h.rank_op (hrank _ _ hu) (hcontext _ _ hu)
  have hlt : ∀ {u}, key z < key u → u = x ∨ u = y →
      pickRank key context value z ≤ pickRank key context value (op x y) := by
    rintro u hlt hu
    refine Prod.Lex.toLex_le_toLex.2 (.inl (hlt.trans_le ?_))
    rw [h.key_op]
    rcases hu with rfl | rfl
    · exact le_max_left _ _
    · exact le_max_right _ _
  have hxy : value (op z (op x y)) = value (op x y) := by
    refine h.value_op_of_le ?_
    rcases hz.rest with hyield | hyield | hkey | hkey
    · rw [h.comm, hyields hyield]
      exact hrank z y hz.right
    · rw [hyields hyield]
      exact hrank z x hz.left
    · exact hlt hkey (.inl rfl)
    · exact hlt hkey (.inr rfl)
  refine ⟨(h.value_op_congr (hyields hz.right)).trans hxy.symm, ?_⟩
  rw [hxy, h.comm z x, h.value_op_congr (hyields hz.left), h.comm]

theorem assoc_of_settled
    (hrank : ∀ z x, yields z x → pickRank key context value z ≤ pickRank key context value x)
    (hcontext : ∀ z x, yields z x → context (op x z) = context x)
    (hsettled : TieSettled key value yields a b c) :
    value (op a (op b c)) = value (op (op a b) c) := by
  rcases hsettled with hagree | hbehind | hbehind | hbehind
  · exact h.assoc_of_agree hagree
  · rw [h.comm (op a b) c]
    exact (h.same_of_behind hrank hcontext hbehind).2.symm
  · rw [h.comm (op a b) c]
    obtain ⟨hleft, hright⟩ := h.same_of_behind hrank hcontext hbehind
    exact hright.trans hleft.symm
  · rw [h.comm (op a b) c]
    exact (h.same_of_behind hrank hcontext hbehind).1

end

end Picks

end Macha
