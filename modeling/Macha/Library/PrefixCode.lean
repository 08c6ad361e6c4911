import Mathlib

/-!
# Prefix codes over numbers

Codes that can be written one after another and read back. A code gives a
computable injection into lists of numbers: an address that never collides.
-/

namespace Macha

/-- A value written before a tail, such that both can be told from the text. -/
structure PrefixCode (α : Type) where
  write : α → List Nat → List Nat
  write_inj : ∀ {a b s t}, write a s = write b t → a = b ∧ s = t

namespace PrefixCode

variable {α β : Type}

def tokens (c : PrefixCode α) (a : α) : List Nat := c.write a []

theorem tokens_injective (c : PrefixCode α) : Function.Injective c.tokens :=
  fun _ _ h => (c.write_inj h).1

def nat : PrefixCode Nat where
  write n s := n :: s
  write_inj h := by simpa using h

/-- A type that injects into a coded one. -/
def lift (c : PrefixCode β) (f : α → β) (hf : Function.Injective f) : PrefixCode α where
  write a s := c.write (f a) s
  write_inj h := ⟨hf (c.write_inj h).1, (c.write_inj h).2⟩

def pair (c : PrefixCode α) (d : PrefixCode β) : PrefixCode (α × β) where
  write x s := c.write x.1 (d.write x.2 s)
  write_inj h := by
    obtain ⟨h₁, h₂⟩ := c.write_inj h
    obtain ⟨h₃, h₄⟩ := d.write_inj h₂
    exact ⟨Prod.ext h₁ h₃, h₄⟩

def writeList (c : PrefixCode α) : List α → List Nat → List Nat
  | [], s => 0 :: s
  | a :: as, s => 1 :: c.write a (writeList c as s)

def list (c : PrefixCode α) : PrefixCode (List α) where
  write := c.writeList
  write_inj {as} := by
    induction as with
    | nil =>
      intro bs s t h
      cases bs <;> simp_all [writeList]
    | cons a as ih =>
      intro bs s t h
      cases bs with
      | nil => simp [writeList] at h
      | cons b bs =>
        simp only [writeList, List.cons.injEq, true_and] at h
        obtain ⟨hab, hrest⟩ := c.write_inj h
        obtain ⟨has, hst⟩ := ih hrest
        exact ⟨by rw [hab, has], hst⟩

def option (c : PrefixCode α) : PrefixCode (Option α) where
  write
    | none, s => 0 :: s
    | some a, s => 1 :: c.write a s
  write_inj {a b s t} h := by
    cases a <;> cases b <;> simp at h
    · exact ⟨rfl, h⟩
    · obtain ⟨hab, hst⟩ := c.write_inj h
      exact ⟨by rw [hab], hst⟩

def bool : PrefixCode Bool := nat.lift Bool.toNat fun a b h => by cases a <;> cases b <;> simp_all

def int : PrefixCode Int :=
  (bool.pair nat).lift (fun n => (decide (n < 0), n.natAbs)) fun a b h => by
    simp only [Prod.mk.injEq, decide_eq_decide] at h
    omega

end PrefixCode

end Macha
