import Mathlib

/-!
# Files of frames

A file that is only appended to, as the list of its bytes: big-endian lengths,
reads at an offset, and the scan that reads frame after frame until none begins.
What a read finds is not changed by bytes appended later.
-/

namespace Macha

open List

def be32 (n : Nat) : List Nat :=
  [n / 2 ^ 24 % 256, n / 2 ^ 16 % 256, n / 2 ^ 8 % 256, n % 256]

@[irreducible] def readBe32 : List Nat → Nat
  | [a, b, c, d] => a * 2 ^ 24 + b * 2 ^ 16 + c * 2 ^ 8 + d
  | _ => 0

theorem readBe32_be32 {n : Nat} (h : n < 2 ^ 32) : readBe32 (be32 n) = n := by
  unfold be32 readBe32
  dsimp only
  omega

def pread (file : List Nat) (offset count : Nat) : Option (List Nat) :=
  if offset + count ≤ file.length then some ((file.drop offset).take count) else none

variable {file : List Nat}

theorem pread_eq_some (front bytes back : List Nat) {offset count : Nat}
    (hfile : file = front ++ bytes ++ back) (hoffset : offset = front.length)
    (hcount : count = bytes.length) : pread file offset count = some bytes := by
  subst hfile hoffset hcount
  unfold pread
  rw [if_pos (by simp), append_assoc, drop_left, take_left]

theorem pread_append {offset count : Nat} {bytes : List Nat}
    (h : pread file offset count = some bytes) (more : List Nat) :
    pread (file ++ more) offset count = some bytes := by
  unfold pread at h ⊢
  split at h
  · next hle =>
    rw [if_pos (by rw [length_append]; omega), ← h]
    congr 1
    rw [drop_append_of_le_length (by omega), take_append_of_le_length]
    rw [length_drop]
    omega
  · cases h

theorem pread_eq_none {offset count : Nat} (h : file.length < offset + count) :
    pread file offset count = none :=
  if_neg (by omega)

section

variable {β : Type}

/-- Reads frames from the offset until none begins: their values, and where it stopped. -/
def scanFrames (frameAt : Nat → Option (β × Nat)) : Nat → Nat → List β × Nat
  | 0, offset => ([], offset)
  | fuel + 1, offset =>
    match frameAt offset with
    | none => ([], offset)
    | some (value, size) =>
      let (rest, stop) := scanFrames frameAt fuel (offset + size)
      (value :: rest, stop)

/-- Frames with these values follow one another between the two offsets. -/
inductive Framed (frameAt : Nat → Option (β × Nat)) : Nat → List β → Nat → Prop
  | nil (offset : Nat) : Framed frameAt offset [] offset
  | cons {offset size stop : Nat} {value : β} {values : List β} :
      frameAt offset = some (value, size) → Framed frameAt (offset + size) values stop →
        Framed frameAt offset (value :: values) stop

variable {frameAt other : Nat → Option (β × Nat)} {offset stop : Nat} {values : List β}

section

variable (h : Framed frameAt offset values stop)

include h

theorem Framed.mono (hkeeps : ∀ place found, frameAt place = some found → other place = some found) :
    Framed other offset values stop := by
  induction h with
  | nil offset => exact .nil offset
  | cons hframe _ ih => exact .cons (hkeeps _ _ hframe) ih

theorem Framed.snoc {value : β} {size : Nat} (hlast : frameAt stop = some (value, size)) :
    Framed frameAt offset (values ++ [value]) (stop + size) := by
  induction h with
  | nil offset => exact .cons hlast (.nil _)
  | cons hframe _ ih => exact .cons hframe (ih hlast)

theorem scanFrames_eq (hstop : frameAt stop = none) {fuel : Nat} (hfuel : values.length < fuel) :
    scanFrames frameAt fuel offset = (values, stop) := by
  induction h generalizing fuel with
  | nil offset =>
    obtain ⟨fuel, rfl⟩ := Nat.exists_eq_add_of_lt hfuel
    unfold scanFrames
    rw [hstop]
  | @cons offset size stop value values hframe _ ih =>
    rw [length_cons] at hfuel
    cases fuel with
    | zero => omega
    | succ fuel =>
      unfold scanFrames
      rw [hframe]
      dsimp only
      rw [ih hstop (by omega)]

theorem Framed.length_le (hsize : ∀ place value size, frameAt place = some (value, size) → 0 < size) :
    offset + values.length ≤ stop := by
  induction h with
  | nil offset => exact Nat.le_refl _
  | cons hframe _ ih =>
    have hpos := hsize _ _ _ hframe
    rw [length_cons]
    omega

end

end

end Macha
