import Macha.Library.Splice
import Macha.Metadata.Types

/-!
# Replay of a data generation

The writes and truncates of a generation stand in the order of their sequence, the bytes of
the writes in a spool. Publication replays them over the base in chunks, as the byte budget
and viewers let it, and commits the result; after a crash before the published marker the
same generation is replayed over what was committed.
-/

namespace Macha

open List

namespace Fuse

inductive DataOp where
  | write (offset length spoolOffset : Nat)
  | truncate (size : Nat)
deriving DecidableEq

namespace DataOp

/-- The file after the operation, as the overlay presents it: a write past the end fills the
gap with zeros, and so does a write of no bytes. -/
def apply (spool content : ByteString) : DataOp → ByteString
  | .write offset length spoolOffset =>
    splice 0 offset ((spool.drop spoolOffset).take length) content
  | .truncate size => resize 0 size content

end DataOp

def applyOps (spool : ByteString) (ops : List DataOp) (content : ByteString) : ByteString :=
  ops.foldl (DataOp.apply spool) content

/-- The turns of the loops of `replay_data_quantum` from a place in the operations, an offset
into the first of them and the writer's content, to the content that is committed. A chunk
may be cut anywhere, as a yield keeps the place; a short read from the spool has no turn. -/
inductive Replays (spool : ByteString) : List DataOp → Nat → ByteString → ByteString → Prop where
  | commit {content : ByteString} : Replays spool [] 0 content content
  | truncate {size : Nat} {ops : List DataOp} {content committed : ByteString} :
      Replays spool ops 0 (resize 0 size content) committed →
        Replays spool (.truncate size :: ops) 0 content committed
  | chunk {offset length spoolOffset done chunk : Nat} {ops : List DataOp}
      {content committed : ByteString} (hpos : 0 < chunk) (hlength : done + chunk ≤ length)
      (hread : spoolOffset + done + chunk ≤ spool.length) :
      Replays spool (.write offset length spoolOffset :: ops) (done + chunk)
        (splice 0 (offset + done) ((spool.drop (spoolOffset + done)).take chunk) content)
        committed →
      Replays spool (.write offset length spoolOffset :: ops) done content committed
  | advance {offset length spoolOffset : Nat} {ops : List DataOp}
      {content committed : ByteString} :
      Replays spool ops 0 content committed →
        Replays spool (.write offset length spoolOffset :: ops) length content committed

section

variable (spool : ByteString) (ops : List DataOp)

/-- A byte after the operation, from the byte before it; past the end stands zero. -/
def DataOp.byte (p before : Nat) : DataOp → Nat
  | .write offset length spoolOffset =>
    let data := (spool.drop spoolOffset).take length
    if offset ≤ p ∧ p < offset + data.length then data.getD (p - offset) 0 else before
  | .truncate size => if p < size then before else 0

def DataOp.sized (before : Nat) : DataOp → Nat
  | .write offset length spoolOffset =>
    max before (offset + ((spool.drop spoolOffset).take length).length)
  | .truncate size => size

theorem getD_applyOps (p : Nat) (content : ByteString) : (applyOps spool ops content).getD p 0 =
      ops.foldl (fun b op => op.byte spool p b) (content.getD p 0) := by
  induction ops generalizing content with
  | nil => rfl
  | cons op ops ih =>
    have hbyte : (op.apply spool content).getD p 0 = op.byte spool p (content.getD p 0) := by
      cases op with
      | write offset length spoolOffset => exact getD_splice 0 offset p _ content
      | truncate size => exact getD_resize 0 size p content
    rw [foldl_cons, ← hbyte]
    exact ih (op.apply spool content)

theorem length_applyOps (content : ByteString) : (applyOps spool ops content).length =
      ops.foldl (fun n op => op.sized spool n) content.length := by
  induction ops generalizing content with
  | nil => rfl
  | cons op ops ih =>
    have hsize : (op.apply spool content).length = op.sized spool content.length := by
      cases op with
      | write offset length spoolOffset => exact length_splice 0 offset _ content
      | truncate size => exact length_resize 0 size content
    rw [foldl_cons, ← hsize]
    exact ih (op.apply spool content)

theorem bytes_kept_or_decided (p : Nat) : (∀ b, ops.foldl (fun b op => op.byte spool p b) b = b) ∨
      ∃ v, ∀ b, ops.foldl (fun b op => op.byte spool p b) b = v := by
  induction ops with
  | nil => exact .inl fun b => rfl
  | cons op ops ih =>
    rcases ih with hkept | ⟨v, hv⟩
    · have hop : (∀ b, op.byte spool p b = b) ∨ ∃ v, ∀ b, op.byte spool p b = v := by
        cases op with
        | write offset length spoolOffset =>
          simp only [DataOp.byte]
          split
          · exact .inr ⟨_, fun b => rfl⟩
          · exact .inl fun b => rfl
        | truncate size =>
          simp only [DataOp.byte]
          split
          · exact .inl fun b => rfl
          · exact .inr ⟨0, fun b => rfl⟩
      simpa only [foldl_cons, hkept] using hop
    · exact .inr ⟨v, fun b => hv _⟩

/-- The operations extend the file to a size, or the last truncate and what follows decide
its size. -/
theorem size_extended_or_decided :
    (∃ e, ∀ n, ops.foldl (fun n op => op.sized spool n) n = max n e) ∨
      ∃ s, ∀ n, ops.foldl (fun n op => op.sized spool n) n = s := by
  induction ops with
  | nil => exact .inl ⟨0, fun n => (Nat.max_zero n).symm⟩
  | cons op ops ih =>
    rcases ih with ⟨e, he⟩ | ⟨s, hs⟩
    · cases op with
      | write offset length spoolOffset =>
        refine .inl ⟨max (offset + ((spool.drop spoolOffset).take length).length) e, ?_⟩
        intro n
        rw [foldl_cons, he]
        exact Nat.max_assoc _ _ _
      | truncate size =>
        refine .inr ⟨max size e, ?_⟩
        intro n
        rw [foldl_cons, he]
        rfl
    · exact .inr ⟨s, fun n => hs _⟩

theorem applyOps_applyOps (base : ByteString) :
    applyOps spool ops (applyOps spool ops base) = applyOps spool ops base := by
  refine eq_of_getD 0 ?_ fun p _ => ?_
  · rw [length_applyOps spool ops (applyOps spool ops base), length_applyOps]
    rcases size_extended_or_decided spool ops with ⟨e, he⟩ | ⟨s, hs⟩
    · simp only [he]
      omega
    · simp only [hs]
  · rw [getD_applyOps spool ops p (applyOps spool ops base), getD_applyOps]
    rcases bytes_kept_or_decided spool ops p with hkept | ⟨v, hv⟩
    · simp only [hkept]
    · simp only [hv]

/-- The writer is not called for a write of no bytes. -/
def DataOp.replayed : DataOp → Bool
  | .write _ length _ => decide (length ≠ 0)
  | .truncate _ => true

/-- What reaches the writer from an offset into the first operation. -/
def pending : List DataOp → Nat → List DataOp
  | .write offset length spoolOffset :: rest, done =>
    (.write (offset + done) (length - done) (spoolOffset + done) :: rest).filter DataOp.replayed
  | ops, _ => ops.filter DataOp.replayed

theorem Replays.eq {done : Nat} {content committed : ByteString}
    (h : Replays spool ops done content committed) :
    committed = applyOps spool (pending ops done) content := by
  have hrest : ∀ ops, pending ops 0 = ops.filter DataOp.replayed := by
    intro ops
    unfold pending
    split <;> rfl
  induction h with
  | commit => rfl
  | truncate h ih => exact ih.trans (by rw [hrest]; rfl)
  | @chunk offset length spoolOffset done chunk ops content committed hpos hlength hread h ih =>
    rw [ih]
    have hlen : ((spool.drop (spoolOffset + done)).take chunk).length = chunk := by
      rw [length_take, length_drop]
      omega
    have hsplit : length - done = chunk + (length - (done + chunk)) := by omega
    by_cases hlast : length = done + chunk
    · simp [pending, DataOp.replayed, hlast, hpos.ne', applyOps, DataOp.apply]
    · have hone : length - done ≠ 0 := by omega
      have htwo : length - (done + chunk) ≠ 0 := by omega
      simp only [pending, filter_cons, DataOp.replayed, hone, htwo, ne_eq,
        not_false_eq_true, decide_true, if_true, applyOps, foldl_cons, DataOp.apply]
      rw [hsplit, take_add, splice_append, hlen, drop_drop, Nat.add_assoc, Nat.add_assoc]
  | advance h ih =>
    rw [ih, hrest]
    simp [pending, DataOp.replayed]

end

/-- A generation applied again to what it made changes nothing, and so does its replay, in
whatever chunks, over what an earlier replay committed. -/
theorem replay_idempotent (spool : ByteString) (ops : List DataOp) (base : ByteString) :
    applyOps spool ops (applyOps spool ops base) = applyOps spool ops base ∧
      ∀ committed again, Replays spool ops 0 base committed →
        Replays spool ops 0 committed again → again = committed := by
  refine ⟨applyOps_applyOps spool ops base, ?_⟩
  intro committed again hfirst hsecond
  rw [hsecond.eq, hfirst.eq, applyOps_applyOps]

/-- A write past the end, a cut and an extension, replayed first in one chunk and then in
two. -/
theorem replay_idempotent_gap :
    let ops := [DataOp.write 4 2 0, .truncate 5, .truncate 7]
    Replays [8, 9] ops 0 [1, 2] [1, 2, 0, 0, 8, 0, 0] ∧
      Replays [8, 9] ops 0 [1, 2, 0, 0, 8, 0, 0] [1, 2, 0, 0, 8, 0, 0] ∧
      ([1, 2, 0, 0, 8, 0, 0] : ByteString) = [1, 2, 0, 0, 8, 0, 0] := by
  intro ops
  have hfirst : Replays [8, 9] ops 0 [1, 2] [1, 2, 0, 0, 8, 0, 0] :=
    .chunk (show 0 < 2 by decide) (by decide) (by decide)
      (.advance (.truncate (.truncate .commit)))
  have hsecond : Replays [8, 9] ops 0 [1, 2, 0, 0, 8, 0, 0] [1, 2, 0, 0, 8, 0, 0] :=
    .chunk (show 0 < 1 by decide) (by decide) (by decide)
      (.chunk (show 0 < 1 by decide) (by decide) (by decide)
        (.advance (.truncate (.truncate .commit))))
  exact ⟨hfirst, hsecond, (replay_idempotent [8, 9] ops [1, 2]).2 _ _ hfirst hsecond⟩

end Fuse

end Macha
