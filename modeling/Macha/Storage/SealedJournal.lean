import Macha.Library.Collect
import Macha.Library.Frames
import Macha.Metadata.Types

/-!
# The sealed journal

An append writes one frame at the end of the file and counts it in `bytes_`; the
count is not touched when the write fails, while the kernel has appended what it
took. Replay reads frames from the start and stops where none opens, so the file
has to be whole frames up to the last one that anybody relies on.
-/

namespace Macha

open List Option

/-- What `aes_gcm_seal` returns. -/
structure SealedBox where
  nonce : ByteString
  tag : ByteString
  ciphertext : ByteString
deriving DecidableEq

/-- `aes_gcm_seal` and `aes_gcm_open` under one key and associated data; sealing
is given the nonce it draws. -/
structure AesGcm where
  sealBox : (nonce : ByteString) → (plaintext : ByteString) → SealedBox
  openBox : SealedBox → Option ByteString
  nonce_sealBox : ∀ nonce plaintext, (sealBox nonce plaintext).nonce = nonce
  length_tag : ∀ nonce plaintext, (sealBox nonce plaintext).tag.length = 16
  openBox_sealBox : ∀ nonce plaintext, openBox (sealBox nonce plaintext) = some plaintext

/-- The bytes of the length, the nonce and the tag. -/
def frameHeader : Nat := 4 + 12 + 16

/-- A call of `append` or `append_unsynced`, and how the file system treats it. -/
structure JournalCall where
  plaintext : ByteString
  nonce : { nonce : ByteString // nonce.length = 12 }
  /-- `append`, which syncs. -/
  synced : Bool
  /-- The bytes of its frame that reach the file before `write` fails; a frame that
  is no longer is written whole. -/
  reaches : Nat
  syncFails : Bool

/-- The journal in memory and its file. -/
structure SealedJournal where
  file : ByteString := []
  bytes : Nat := 0
deriving DecidableEq

section

variable (gcm : AesGcm) (maxFrame maxReadFrame : Nat)

namespace JournalCall

/-- `seal_frame`, which refuses a frame that is too large. -/
def sealFrame (call : JournalCall) : Option ByteString :=
  let sealed := gcm.sealBox call.nonce.1 call.plaintext
  if maxFrame < sealed.ciphertext.length then none
  else some (be32 sealed.ciphertext.length ++ sealed.nonce ++ sealed.tag ++ sealed.ciphertext)

end JournalCall

namespace SealedJournal

/-- `append_unsynced`: the frame's offset, unless it throws. -/
def appendUnsynced (journal : SealedJournal) (call : JournalCall) : SealedJournal × Option Nat :=
  match call.sealFrame gcm maxFrame with
  | none => (journal, none)
  | some frame =>
    if call.reaches < frame.length then
      ({ journal with file := journal.file ++ frame.take call.reaches }, none)
    else ({ file := journal.file ++ frame, bytes := journal.bytes + frame.length },
      some journal.bytes)

/-- `append` syncs after it; an error there is thrown with the frame written and counted. -/
def call (journal : SealedJournal) (call : JournalCall) : SealedJournal × Option Nat :=
  let (journal, offset) := journal.appendUnsynced gcm maxFrame call
  if call.synced && call.syncFails then (journal, none) else (journal, offset)

/-- The journal after the calls, and what those that succeeded wrote, with its offset. -/
def calls (journal : SealedJournal) : List JournalCall → SealedJournal × List (ByteString × Nat)
  | [] => (journal, [])
  | c :: cs =>
    let (journal, offset) := journal.call gcm maxFrame c
    let (journal, succeeded) := journal.calls cs
    (journal, (offset.map (c.plaintext, ·)).toList ++ succeeded)

end SealedJournal

/-- The frame `replay` finds at an offset, and its size. -/
def replayFrame (file : ByteString) (offset : Nat) : Option (ByteString × Nat) := do
  let lengthBytes ← pread file offset 4
  let length := readBe32 lengthBytes
  guard (length ≤ maxReadFrame)
  guard (offset + (frameHeader + length) ≤ file.length)
  let nonce ← pread file (offset + 4) 12
  let tag ← pread file (offset + 16) 16
  let ciphertext ← pread file (offset + 32) length
  let plaintext ← gcm.openBox { nonce, tag, ciphertext }
  some (plaintext, frameHeader + length)

def readFrame (file : ByteString) (limit offset : Nat) : Option ByteString := do
  guard (offset + frameHeader ≤ limit)
  let lengthBytes ← pread file offset 4
  let length := readBe32 lengthBytes
  guard (length ≤ maxFrame ∧ offset + frameHeader + length ≤ limit)
  let nonce ← pread file (offset + 4) 12
  let tag ← pread file (offset + 16) 16
  let ciphertext ← pread file (offset + 32) length
  gcm.openBox { nonce, tag, ciphertext }

namespace SealedJournal

/-- `replay` of a file: what it delivers to a callback that never throws, and where
it truncates. A frame takes room, so the length of the file is fuel enough. -/
def replay (file : ByteString) : List ByteString × Nat :=
  scanFrames (replayFrame gcm maxReadFrame file) (file.length + 1) 0

/-- The journal after a restart has replayed the file. -/
def restarted (file : ByteString) : SealedJournal where
  file := file.take (replay gcm maxReadFrame file).2
  bytes := (replay gcm maxReadFrame file).2

def readAt (journal : SealedJournal) (offset : Nat) : Option ByteString :=
  readFrame gcm maxFrame journal.file journal.bytes offset

end SealedJournal

end

/-! ## A frame that was written whole -/

section

variable {gcm : AesGcm} {maxFrame maxReadFrame : Nat}

open JournalCall

variable {call : JournalCall} {frame file : ByteString}

theorem sealFrame_eq (h : call.sealFrame gcm maxFrame = some frame) :
    (gcm.sealBox call.nonce.1 call.plaintext).ciphertext.length ≤ maxFrame ∧
      frame = be32 (gcm.sealBox call.nonce.1 call.plaintext).ciphertext.length ++ call.nonce.1 ++
        (gcm.sealBox call.nonce.1 call.plaintext).tag ++
          (gcm.sealBox call.nonce.1 call.plaintext).ciphertext := by
  unfold sealFrame at h
  dsimp only at h
  split at h
  · cases h
  · next hle =>
    cases h
    refine ⟨Nat.le_of_not_lt hle, ?_⟩
    rw [gcm.nonce_sealBox]

/-- A whole frame in the file: what lies where. -/
structure FrameAt (gcm : AesGcm) (call : JournalCall) (file : ByteString) (offset : Nat) :
    Prop where
  length : pread file offset 4 =
    some (be32 (gcm.sealBox call.nonce.1 call.plaintext).ciphertext.length)
  nonce : pread file (offset + 4) 12 = some (gcm.sealBox call.nonce.1 call.plaintext).nonce
  tag : pread file (offset + 16) 16 = some (gcm.sealBox call.nonce.1 call.plaintext).tag
  ciphertext : pread file (offset + 32) (gcm.sealBox call.nonce.1 call.plaintext).ciphertext.length =
    some (gcm.sealBox call.nonce.1 call.plaintext).ciphertext

theorem sealFrame_length (h : call.sealFrame gcm maxFrame = some frame) :
    frame.length = frameHeader + (gcm.sealBox call.nonce.1 call.plaintext).ciphertext.length := by
  have htag := gcm.length_tag call.nonce.1 call.plaintext
  have hnonce := call.nonce.2
  rw [(sealFrame_eq h).2]
  simp only [length_append, be32, length_cons, length_nil, frameHeader]
  omega

theorem frameAt_of_sealFrame (h : call.sealFrame gcm maxFrame = some frame)
    (front back : ByteString) :
    FrameAt gcm call (front ++ frame ++ back) front.length := by
  have htag := gcm.length_tag call.nonce.1 call.plaintext
  have hnonce := call.nonce.2
  have hbe : ∀ n, (be32 n).length = 4 := fun _ => rfl
  rw [(sealFrame_eq h).2]
  generalize hbox : gcm.sealBox call.nonce.1 call.plaintext = box at *
  have hbefore : box.nonce = call.nonce.1 := by rw [← hbox, gcm.nonce_sealBox]
  constructor
  · rw [hbox]
    refine pread_eq_some front _ (call.nonce.1 ++ box.tag ++ box.ciphertext ++ back) ?_ rfl
      (hbe _).symm
    simp only [append_assoc]
  · rw [hbox, hbefore]
    refine pread_eq_some (front ++ be32 box.ciphertext.length) _
      (box.tag ++ box.ciphertext ++ back) ?_ ?_ hnonce.symm
    · simp only [append_assoc]
    · rw [length_append, hbe]
  · rw [hbox]
    refine pread_eq_some (front ++ be32 box.ciphertext.length ++ call.nonce.1) _
      (box.ciphertext ++ back) ?_ ?_ htag.symm
    · simp only [append_assoc]
    · simp only [length_append, hbe, hnonce]
  · rw [hbox]
    refine pread_eq_some (front ++ be32 box.ciphertext.length ++ call.nonce.1 ++ box.tag) _ back
      ?_ ?_ rfl
    · simp only [append_assoc]
    · simp only [length_append, hbe, hnonce, htag]

variable {offset : Nat}

theorem FrameAt.append (h : FrameAt gcm call file offset) (more : ByteString) :
    FrameAt gcm call (file ++ more) offset :=
  ⟨pread_append h.length more, pread_append h.nonce more, pread_append h.tag more,
    pread_append h.ciphertext more⟩

theorem replayFrame_eq (hframe : call.sealFrame gcm maxFrame = some frame)
    (h : FrameAt gcm call file offset) (hread : maxFrame ≤ maxReadFrame) (hu32 : maxFrame < 2 ^ 32)
    (hfits : offset + frame.length ≤ file.length) :
    replayFrame gcm maxReadFrame file offset = some (call.plaintext, frame.length) := by
  have hle := (sealFrame_eq hframe).1
  have hlength := sealFrame_length hframe
  have hbe := readBe32_be32 (Nat.lt_of_le_of_lt hle hu32)
  rw [hlength] at hfits
  unfold replayFrame
  rw [h.length, bind_eq_bind, bind_some]
  dsimp only
  rw [hbe, guard_of (hle.trans hread), guard_of hfits, h.nonce, h.tag, h.ciphertext]
  show bind (gcm.openBox (gcm.sealBox call.nonce.1 call.plaintext)) _ = _
  rw [gcm.openBox_sealBox, hlength]
  rfl

theorem readFrame_eq {limit : Nat} (hframe : call.sealFrame gcm maxFrame = some frame)
    (h : FrameAt gcm call file offset) (hu32 : maxFrame < 2 ^ 32)
    (hfits : offset + frame.length ≤ limit) :
    readFrame gcm maxFrame file limit offset = some call.plaintext := by
  have hle := (sealFrame_eq hframe).1
  have hlength := sealFrame_length hframe
  have hbe := readBe32_be32 (Nat.lt_of_le_of_lt hle hu32)
  have hheader : offset + frameHeader ≤ limit := by omega
  have hlimit : _ ∧ offset + frameHeader + _ ≤ limit := ⟨hle, by rw [Nat.add_assoc, ← hlength]; exact hfits⟩
  unfold readFrame
  rw [guard_of hheader, bind_eq_bind, bind_some, h.length, bind_eq_bind,
    bind_some]
  dsimp only
  rw [hbe, guard_of hlimit, h.nonce, h.tag, h.ciphertext]
  exact gcm.openBox_sealBox _ _

theorem replayFrame_append {found : ByteString × Nat}
    (h : replayFrame gcm maxReadFrame file offset = some found) (more : ByteString) :
    replayFrame gcm maxReadFrame (file ++ more) offset = some found := by
  unfold replayFrame at h ⊢
  obtain ⟨lengthBytes, hlength, h⟩ := bind_eq_some_iff.1 h
  obtain ⟨hmax, h⟩ := guard_bind_eq_some h
  obtain ⟨hfits, h⟩ := guard_bind_eq_some h
  obtain ⟨nonce, hnonce, h⟩ := bind_eq_some_iff.1 h
  obtain ⟨tag, htag, h⟩ := bind_eq_some_iff.1 h
  obtain ⟨ciphertext, hciphertext, h⟩ := bind_eq_some_iff.1 h
  rw [pread_append hlength, bind_eq_bind, bind_some]
  dsimp only
  rw [guard_of hmax, guard_of (by rw [length_append]; omega), pread_append hnonce,
    pread_append htag, pread_append hciphertext]
  exact h

theorem replayFrame_size {offset size : Nat} {plaintext : ByteString}
    (h : replayFrame gcm maxReadFrame file offset = some (plaintext, size)) : 0 < size := by
  obtain ⟨lengthBytes, -, h⟩ := bind_eq_some_iff.1 h
  obtain ⟨-, h⟩ := guard_bind_eq_some h
  obtain ⟨-, h⟩ := guard_bind_eq_some h
  obtain ⟨nonce, -, h⟩ := bind_eq_some_iff.1 h
  obtain ⟨tag, -, h⟩ := bind_eq_some_iff.1 h
  obtain ⟨ciphertext, -, h⟩ := bind_eq_some_iff.1 h
  obtain ⟨opened, -, h⟩ := bind_eq_some_iff.1 h
  cases h
  unfold frameHeader
  omega

theorem readFrame_past_limit {limit offset : Nat} (h : limit ≤ offset) :
    readFrame gcm maxFrame file limit offset = none := by
  unfold readFrame
  rw [show (guard (offset + frameHeader ≤ limit) : Option Unit) = none from
    if_neg (by unfold frameHeader; omega)]
  rfl

end

/-! ## What a call leaves -/

section

variable (gcm : AesGcm) (maxFrame : Nat)

namespace JournalCall

def writesWhole (call : JournalCall) : Bool :=
  (call.sealFrame gcm maxFrame).any fun frame => decide (frame.length ≤ call.reaches)

def tears (call : JournalCall) : Bool :=
  (call.sealFrame gcm maxFrame).any fun frame =>
    decide (0 < call.reaches ∧ call.reaches < frame.length)

def succeeds (call : JournalCall) : Bool :=
  call.writesWhole gcm maxFrame && !(call.synced && call.syncFails)

end JournalCall

end

section

variable {gcm : AesGcm} {maxFrame maxReadFrame : Nat} {call : JournalCall}

namespace SealedJournal

section

variable (journal : SealedJournal)

theorem call_of_whole (h : call.writesWhole gcm maxFrame = true) :
    ∃ frame, call.sealFrame gcm maxFrame = some frame ∧ journal.call gcm maxFrame call =
        ({ file := journal.file ++ frame, bytes := journal.bytes + frame.length },
          if call.succeeds gcm maxFrame then some journal.bytes else none) := by
  obtain ⟨frame, hframe, hle⟩ := (any_eq_true _ _).1 h
  refine ⟨frame, hframe, ?_⟩
  have hwhole : call.writesWhole gcm maxFrame = true := h
  unfold SealedJournal.call appendUnsynced JournalCall.succeeds
  rw [hwhole, hframe]
  dsimp only
  rw [if_neg (Nat.not_lt_of_le (of_decide_eq_true hle))]
  cases call.synced && call.syncFails <;> rfl

theorem call_of_not_whole (h : call.writesWhole gcm maxFrame = false) :
    ∃ part, (call.tears gcm maxFrame = false → part = []) ∧
      journal.call gcm maxFrame call = ({ journal with file := journal.file ++ part }, none) := by
  unfold SealedJournal.call appendUnsynced
  cases hframe : call.sealFrame gcm maxFrame with
  | none =>
    refine ⟨[], fun _ => rfl, ?_⟩
    rw [append_nil]
    dsimp only
    split <;> rfl
  | some frame =>
    have hshort : call.reaches < frame.length := by
      unfold JournalCall.writesWhole at h
      rw [hframe, any_some] at h
      exact Nat.lt_of_not_le (of_decide_eq_false h)
    refine ⟨frame.take call.reaches, fun htears => ?_, ?_⟩
    · unfold JournalCall.tears at htears
      rw [hframe, any_some] at htears
      have hnone := of_decide_eq_false htears
      have hzero : call.reaches = 0 := by omega
      rw [hzero, take_zero]
    · dsimp only
      rw [if_pos hshort]
      split <;> rfl

theorem not_succeeds_of_not_whole (h : call.writesWhole gcm maxFrame = false) :
    call.succeeds gcm maxFrame = false := by
  unfold JournalCall.succeeds
  rw [h]
  rfl

theorem call_offset (call : JournalCall) : (journal.call gcm maxFrame call).2 =
      if call.succeeds gcm maxFrame then some journal.bytes else none := by
  cases hwhole : call.writesWhole gcm maxFrame with
  | true =>
    obtain ⟨frame, -, hcall⟩ := journal.call_of_whole hwhole
    rw [hcall]
  | false =>
    obtain ⟨part, -, hcall⟩ := journal.call_of_not_whole hwhole
    rw [hcall, not_succeeds_of_not_whole hwhole]
    rfl

theorem call_grows (call : JournalCall) : journal.bytes ≤ (journal.call gcm maxFrame call).1.bytes ∧
      ∃ more, (journal.call gcm maxFrame call).1.file = journal.file ++ more := by
  cases hwhole : call.writesWhole gcm maxFrame with
  | true =>
    obtain ⟨frame, -, hcall⟩ := journal.call_of_whole hwhole
    rw [hcall]
    exact ⟨Nat.le_add_right _ _, frame, rfl⟩
  | false =>
    obtain ⟨part, -, hcall⟩ := journal.call_of_not_whole hwhole
    rw [hcall]
    exact ⟨Nat.le_refl _, part, rfl⟩

theorem calls_cons (c : JournalCall) (cs : List JournalCall) :
    journal.calls gcm maxFrame (c :: cs) =
      (((journal.call gcm maxFrame c).1.calls gcm maxFrame cs).1,
        ((journal.call gcm maxFrame c).2.map (c.plaintext, ·)).toList ++
          ((journal.call gcm maxFrame c).1.calls gcm maxFrame cs).2) :=
  rfl

theorem calls_append (a b : List JournalCall) : journal.calls gcm maxFrame (a ++ b) =
      (((journal.calls gcm maxFrame a).1.calls gcm maxFrame b).1,
        (journal.calls gcm maxFrame a).2 ++
          ((journal.calls gcm maxFrame a).1.calls gcm maxFrame b).2) := by
  induction a generalizing journal with
  | nil => rfl
  | cons c a ih =>
    rw [cons_append, calls_cons, calls_cons, ih, append_assoc]

theorem calls_grow (cs : List JournalCall) :
    (∃ more, (journal.calls gcm maxFrame cs).1.file = journal.file ++ more) ∧
      ∀ entry ∈ (journal.calls gcm maxFrame cs).2, journal.bytes ≤ entry.2 := by
  induction cs generalizing journal with
  | nil => exact ⟨⟨[], (append_nil _).symm⟩, nofun⟩
  | cons c cs ih =>
    obtain ⟨hbytes, more, hfile⟩ := @call_grows gcm maxFrame journal c
    obtain ⟨⟨rest, hrest⟩, hoffsets⟩ := ih (journal.call gcm maxFrame c).1
    rw [calls_cons]
    refine ⟨⟨more ++ rest, ?_⟩, fun entry hentry => ?_⟩
    · rw [hrest, hfile, append_assoc]
    · rcases mem_append.1 hentry with hentry | hentry
      · rw [call_offset] at hentry
        split at hentry
        · rw [mem_singleton.1 hentry]
        · cases hentry
      · exact hbytes.trans (hoffsets entry hentry)

theorem plaintexts_calls (cs : List JournalCall) : (journal.calls gcm maxFrame cs).2.map (·.1) =
      (cs.filter fun c => c.succeeds gcm maxFrame).map (·.plaintext) := by
  induction cs generalizing journal with
  | nil => rfl
  | cons c cs ih =>
    rw [calls_cons, map_append, ih, call_offset, filter_cons]
    split <;> rfl

end

/-! ## A file of whole frames -/

/-- The count is the length of the file, which is whole frames with these
plaintexts, and what succeeded is where it was said to be. -/
structure Intact (gcm : AesGcm) (maxFrame maxReadFrame : Nat) (journal : SealedJournal)
    (delivered : List ByteString) (succeeded : List (ByteString × Nat)) : Prop where
  bytes : journal.bytes = journal.file.length
  framed : Framed (replayFrame gcm maxReadFrame journal.file) 0 delivered journal.file.length
  readable : ∀ entry ∈ succeeded, ∃ call frame, call.sealFrame gcm maxFrame = some frame ∧
    call.plaintext = entry.1 ∧ FrameAt gcm call journal.file entry.2 ∧
      entry.2 + frame.length ≤ journal.file.length

variable {journal : SealedJournal} {delivered : List ByteString}
  {succeeded : List (ByteString × Nat)}

theorem intact_empty : Intact gcm maxFrame maxReadFrame {} [] [] :=
  ⟨rfl, .nil 0, nofun⟩

section

variable (inv : Intact gcm maxFrame maxReadFrame journal delivered succeeded)

include inv

/-- Replay delivers the whole frames and stops where no more opens. -/
theorem Intact.replay {file more : ByteString} (hfile : file = journal.file ++ more)
    (hstop : replayFrame gcm maxReadFrame file journal.file.length = none) :
    replay gcm maxReadFrame file = (delivered, journal.file.length) := by
  have hframed : Framed (replayFrame gcm maxReadFrame file) 0 delivered journal.file.length := by
    rw [hfile]
    exact inv.framed.mono fun place found hfound => replayFrame_append hfound _
  have hcount := hframed.length_le fun _ _ _ hfound => replayFrame_size hfound
  refine scanFrames_eq hframed hstop ?_
  rw [hfile, length_append]
  omega

theorem Intact.readAt (hu32 : maxFrame < 2 ^ 32) {entry : ByteString × Nat}
    (hentry : entry ∈ succeeded) : journal.readAt gcm maxFrame entry.2 = some entry.1 := by
  obtain ⟨call, frame, hframe, hplain, hat, hfits⟩ := inv.readable entry hentry
  unfold SealedJournal.readAt
  rw [inv.bytes, readFrame_eq hframe hat hu32 hfits, hplain]

variable (hread : maxFrame ≤ maxReadFrame) (hu32 : maxFrame < 2 ^ 32)

include hread hu32

theorem Intact.step (htears : call.tears gcm maxFrame = false) :
    Intact gcm maxFrame maxReadFrame (journal.call gcm maxFrame call).1
      (delivered ++ if call.writesWhole gcm maxFrame then [call.plaintext] else [])
      (succeeded ++ ((journal.call gcm maxFrame call).2.map (call.plaintext, ·)).toList) := by
  cases hwhole : call.writesWhole gcm maxFrame with
  | false =>
    obtain ⟨part, hpart, hcall⟩ := journal.call_of_not_whole hwhole
    rw [hcall, hpart htears, append_nil]
    simp only [Bool.false_eq_true, if_false, append_nil, map_none, toList_none]
    exact inv
  | true =>
    obtain ⟨frame, hframe, hcall⟩ := journal.call_of_whole hwhole
    have hhere : FrameAt gcm call (journal.file ++ frame) journal.file.length := by
      have hplace := frameAt_of_sealFrame hframe journal.file []
      rwa [append_nil] at hplace
    have hlength : (journal.file ++ frame).length = journal.file.length + frame.length :=
      length_append
    rw [hcall]
    refine ⟨?_, ?_, fun entry hentry => ?_⟩
    · rw [hlength, inv.bytes]
    · rw [hlength]
      refine (inv.framed.mono fun place found hfound => replayFrame_append hfound _).snoc ?_
      exact replayFrame_eq hframe hhere hread hu32 (by rw [hlength])
    · rcases mem_append.1 hentry with hentry | hentry
      · obtain ⟨call', frame', hframe', hplain, hat, hfits⟩ := inv.readable entry hentry
        refine ⟨call', frame', hframe', hplain, hat.append frame, ?_⟩
        rw [hlength]
        omega
      · split at hentry
        · rw [mem_singleton.1 hentry]
          dsimp only
          rw [inv.bytes, hlength]
          exact ⟨call, frame, hframe, rfl, hhere, Nat.le_refl _⟩
        · cases hentry

theorem Intact.calls {cs : List JournalCall} (htears : ∀ c ∈ cs, c.tears gcm maxFrame = false) :
    Intact gcm maxFrame maxReadFrame (journal.calls gcm maxFrame cs).1
      (delivered ++ (cs.filter fun c => c.writesWhole gcm maxFrame).map (·.plaintext))
      (succeeded ++ (journal.calls gcm maxFrame cs).2) := by
  induction cs generalizing journal delivered succeeded with
  | nil =>
    rw [filter_nil, map_nil, append_nil]
    show Intact _ _ _ journal delivered (succeeded ++ [])
    rw [append_nil]
    exact inv
  | cons c cs ih =>
    have hstep := ih (inv.step hread hu32 (htears c mem_cons_self))
      fun c' hc' => htears c' (mem_cons_of_mem _ hc')
    rw [calls_cons, ← append_assoc]
    refine Eq.mp ?_ hstep
    congr 1
    rw [append_assoc, filter_cons]
    split <;> rfl

end

end SealedJournal

end

section

variable (gcm : AesGcm) (maxFrame maxReadFrame : Nat)

open SealedJournal

/-- The file the calls leave, from an empty one. -/
def fileAfter (calls : List JournalCall) : ByteString :=
  (SealedJournal.calls gcm maxFrame {} calls).1.file

/-- After a restart replay delivers the plaintexts of the calls that succeeded, in
order, and each is at the offset its call returned. -/
def JournalDurable (calls : List JournalCall) : Prop :=
  (replay gcm maxReadFrame (fileAfter gcm maxFrame calls)).1 =
      (SealedJournal.calls gcm maxFrame {} calls).2.map (·.1) ∧
    ∀ entry ∈ (SealedJournal.calls gcm maxFrame {} calls).2,
      (restarted gcm maxReadFrame (fileAfter gcm maxFrame calls)).readAt gcm maxFrame entry.2 =
        some entry.1

/-- Opening rejects what is not a frame as it was sealed: no frame opens where the
first torn one begins. -/
def TornRejected (calls : List JournalCall) : Prop :=
  ∀ before call after, calls = before ++ call :: after → call.tears gcm maxFrame = true →
    (∀ c ∈ before, c.tears gcm maxFrame = false) →
      replayFrame gcm maxReadFrame (fileAfter gcm maxFrame calls)
        (fileAfter gcm maxFrame before).length = none

/-- No call succeeds after one that left a part of its frame, and a call that fails
with its whole frame written comes after such a one. -/
def NothingAfterTorn (calls : List JournalCall) : Prop :=
  ∀ before call after, calls = before ++ call :: after →
    (call.tears gcm maxFrame = true → ∀ c ∈ after, c.succeeds gcm maxFrame = false) ∧
      (call.writesWhole gcm maxFrame = true → call.succeeds gcm maxFrame = false →
        ∃ c ∈ before, c.tears gcm maxFrame = true)

end

section

variable {gcm : AesGcm} {maxFrame maxReadFrame : Nat}

open SealedJournal

variable {cs clean rest : List JournalCall}

/-- A sublist picked by a stronger test is the whole list only when the tests agree. -/
theorem filter_plaintexts_eq_iff :
    (cs.filter fun c => c.writesWhole gcm maxFrame).map (·.plaintext) =
        (cs.filter fun c => c.succeeds gcm maxFrame).map (·.plaintext) ↔
      ∀ c ∈ cs, c.writesWhole gcm maxFrame = true → c.succeeds gcm maxFrame = true := by
  have hsub : ∀ xs : List JournalCall, (xs.filter fun c => c.succeeds gcm maxFrame).length ≤
      (xs.filter fun c => c.writesWhole gcm maxFrame).length := by
    intro xs
    refine (monotone_filter_right xs fun c hc => ?_).length_le
    exact (Bool.and_eq_true _ _ ▸ hc : _ ∧ _).1
  constructor
  · intro heq c hc hwhole
    obtain ⟨front, back, rfl⟩ := append_of_mem hc
    by_contra hfails
    have hlengths := congrArg List.length heq
    simp only [length_map, filter_append, length_append, filter_cons, hwhole,
      if_true, length_cons, if_neg hfails] at hlengths
    have hfront := hsub front
    have hback := hsub back
    omega
  · intro hall
    congr 1
    refine filter_congr fun c hc => ?_
    cases hwhole : c.writesWhole gcm maxFrame with
    | true => rw [hall c hc hwhole]
    | false => rw [not_succeeds_of_not_whole hwhole]

theorem filter_succeeds_eq_nil (h : ∀ c ∈ cs, c.succeeds gcm maxFrame = false) :
    (cs.filter fun c => c.succeeds gcm maxFrame) = [] :=
  filter_eq_nil_iff.2 fun c hc => Bool.eq_false_iff.1 (h c hc)

theorem journalDurable_split (hread : maxFrame ≤ maxReadFrame) (hu32 : maxFrame < 2 ^ 32)
    (hclean : ∀ c ∈ clean, c.tears gcm maxFrame = false)
    (hstop : replayFrame gcm maxReadFrame (fileAfter gcm maxFrame (clean ++ rest))
      (fileAfter gcm maxFrame clean).length = none) :
    JournalDurable gcm maxFrame maxReadFrame (clean ++ rest) ↔
      (∀ c ∈ clean, c.writesWhole gcm maxFrame = true → c.succeeds gcm maxFrame = true) ∧
        ∀ c ∈ rest, c.succeeds gcm maxFrame = false := by
  have inv := @Intact.calls gcm maxFrame maxReadFrame _ _ _ intact_empty hread hu32 clean hclean
  obtain ⟨⟨more, hmore⟩, hoffsets⟩ :=
    @calls_grow gcm maxFrame (SealedJournal.calls gcm maxFrame {} clean).1 rest
  have hsplit := @calls_append gcm maxFrame {} clean rest
  have hfile : fileAfter gcm maxFrame (clean ++ rest) = fileAfter gcm maxFrame clean ++ more := by
    unfold fileAfter
    rw [hsplit]
    exact hmore
  have hreplay := inv.replay hfile hstop
  have hrestarted : restarted gcm maxReadFrame (fileAfter gcm maxFrame (clean ++ rest)) =
      (SealedJournal.calls gcm maxFrame {} clean).1 := by
    unfold restarted
    rw [hreplay, hfile]
    show SealedJournal.mk (List.take _ _) _ = SealedJournal.mk _ _
    rw [inv.bytes]
    exact congrArg₂ SealedJournal.mk take_left rfl
  have hplain := @plaintexts_calls gcm maxFrame {} clean
  have hrest := @plaintexts_calls gcm maxFrame (SealedJournal.calls gcm maxFrame {} clean).1 rest
  unfold JournalDurable
  rw [hreplay, hrestarted, hsplit]
  rw [map_append, hplain, hrest]
  constructor
  · rintro ⟨hdelivered, hreadable⟩
    have hnone : ∀ c ∈ rest, c.succeeds gcm maxFrame = false := by
      intro c hc
      by_contra hsucceeds
      rw [Bool.not_eq_false] at hsucceeds
      have hmem : c.plaintext ∈ ((SealedJournal.calls gcm maxFrame {} clean).1.calls gcm maxFrame
          rest).2.map (·.1) := by
        rw [hrest]
        exact List.mem_map_of_mem (mem_filter.2 ⟨hc, hsucceeds⟩)
      obtain ⟨entry, hentry, -⟩ := List.mem_map.1 hmem
      have hpast : readAt gcm maxFrame (SealedJournal.calls gcm maxFrame {} clean).1 entry.2 =
          none := readFrame_past_limit (hoffsets entry hentry)
      rw [hreadable entry (mem_append_right _ hentry)] at hpast
      cases hpast
    refine ⟨filter_plaintexts_eq_iff.1 ?_, hnone⟩
    rw [filter_succeeds_eq_nil hnone, map_nil, append_nil] at hdelivered
    exact hdelivered
  · rintro ⟨hwhole, hnone⟩
    have hnil := filter_succeeds_eq_nil hnone
    rw [hnil, map_nil, append_nil]
    refine ⟨filter_plaintexts_eq_iff.2 hwhole, fun entry hentry => ?_⟩
    have hempty : ((SealedJournal.calls gcm maxFrame {} clean).1.calls gcm maxFrame rest).2 = [] := by
      rw [hnil, map_nil] at hrest
      exact map_eq_nil_iff.1 hrest
    rw [hempty, append_nil] at hentry
    exact inv.readAt hu32 hentry

theorem not_whole_of_tears {call : JournalCall} (h : call.tears gcm maxFrame = true) :
    call.writesWhole gcm maxFrame = false := by
  obtain ⟨frame, hframe, hpart⟩ := (any_eq_true _ _).1 h
  unfold JournalCall.writesWhole
  rw [hframe, any_some]
  exact decide_eq_false (Nat.not_le_of_lt (of_decide_eq_true hpart).2)

theorem exists_split_right {α : Type} {clean rest before after : List α} {x : α}
    (h : clean ++ rest = before ++ x :: after) (hx : x ∉ clean) :
    ∃ middle, before = clean ++ middle ∧ rest = middle ++ x :: after := by
  rcases append_eq_append_iff.1 h with ⟨middle, hbefore, hrest⟩ | ⟨middle, hclean, hrest⟩
  · exact ⟨middle, hbefore, hrest⟩
  · cases middle with
    | nil => exact ⟨[], by rw [append_nil, hclean, append_nil], hrest.symm⟩
    | cons y middle =>
      obtain ⟨rfl, -⟩ := List.cons.inj hrest
      rw [hclean] at hx
      exact absurd (mem_append_right _ mem_cons_self) hx

theorem nothingAfterTorn_split (hclean : ∀ c ∈ clean, c.tears gcm maxFrame = false)
    (hrest : ∀ call after, rest = call :: after → call.tears gcm maxFrame = true) :
    NothingAfterTorn gcm maxFrame (clean ++ rest) ↔
      (∀ c ∈ clean, c.writesWhole gcm maxFrame = true → c.succeeds gcm maxFrame = true) ∧
        ∀ c ∈ rest, c.succeeds gcm maxFrame = false := by
  constructor
  · intro h
    refine ⟨fun c hc hwhole => ?_, fun c hc => ?_⟩
    · obtain ⟨before, after, rfl⟩ := append_of_mem hc
      by_contra hfails
      obtain ⟨torn, htorn, htears⟩ := (h before c (after ++ rest) (by simp)).2 hwhole
        (Bool.eq_false_iff.2 hfails)
      rw [hclean torn (mem_append_left _ htorn)] at htears
      cases htears
    · cases rest with
      | nil => cases hc
      | cons call after =>
        have htears := hrest call after rfl
        rcases mem_cons.1 hc with rfl | hc
        · exact not_succeeds_of_not_whole (not_whole_of_tears htears)
        · exact (h clean call after rfl).1 htears c hc
  · rintro ⟨hwhole, hnone⟩ before call after heq
    constructor
    · intro htears c hc
      have hnot : call ∉ clean := fun hmem => by
        rw [hclean call hmem] at htears
        cases htears
      obtain ⟨middle, -, rfl⟩ := exists_split_right heq hnot
      exact hnone c (mem_append_right _ (mem_cons_of_mem _ hc))
    · intro hcall hfails
      have hnot : call ∉ clean := fun hmem => by
        rw [hwhole call hmem hcall] at hfails
        cases hfails
      obtain ⟨middle, rfl, rfl⟩ := exists_split_right heq hnot
      cases middle with
      | nil =>
        rw [not_whole_of_tears (hrest call after rfl)] at hcall
        cases hcall
      | cons torn middle =>
        exact ⟨torn, mem_append_right _ mem_cons_self, hrest torn _ rfl⟩

/-- Durability of a journal, exactly: whatever the calls and wherever each of them
stops writing. -/
theorem sealed_journal_durable_iff (hread : maxFrame ≤ maxReadFrame) (hu32 : maxFrame < 2 ^ 32)
    (calls : List JournalCall) (hrejected : TornRejected gcm maxFrame maxReadFrame calls) :
    JournalDurable gcm maxFrame maxReadFrame calls ↔ NothingAfterTorn gcm maxFrame calls := by
  by_cases htorn : ∃ c ∈ calls, c.tears gcm maxFrame = true
  · obtain ⟨before, call, after, rfl, hcall, hbefore⟩ := exists_first_of_exists htorn
    have hclean : ∀ c ∈ before, c.tears gcm maxFrame = false :=
      fun c hc => Bool.eq_false_iff.2 (hbefore c hc)
    rw [journalDurable_split hread hu32 hclean (hrejected before call after rfl hcall hclean),
      nothingAfterTorn_split hclean]
    rintro _ _ ⟨⟩
    exact hcall
  · have hclean : ∀ c ∈ calls, c.tears gcm maxFrame = false :=
      fun c hc => Bool.eq_false_iff.2 fun h => htorn ⟨c, hc, h⟩
    have hend : replayFrame gcm maxReadFrame (fileAfter gcm maxFrame (calls ++ []))
        (fileAfter gcm maxFrame calls).length = none := by
      rw [append_nil]
      unfold replayFrame
      rw [pread_eq_none (Nat.lt_add_of_pos_right (by decide))]
      rfl
    have hdurable := journalDurable_split hread hu32 hclean hend
    have hnothing := @nothingAfterTorn_split gcm maxFrame calls [] hclean nofun
    rw [append_nil] at hdurable hnothing
    rw [hdurable, hnothing]

end

namespace TornAppend

/-- A seal that is told by its tag. -/
def gcm : AesGcm where
  sealBox nonce plaintext := ⟨nonce, replicate 16 7, plaintext⟩
  openBox box := if box.tag = replicate 16 7 then some box.ciphertext else none
  nonce_sealBox _ _ := rfl
  length_tag _ _ := rfl
  openBox_sealBox _ _ := rfl

def nonce : { nonce : ByteString // nonce.length = 12 } := ⟨replicate 12 9, rfl⟩

/-- The disk takes two bytes of the frame. -/
def torn : JournalCall := ⟨[1], nonce, true, 2, false⟩

def whole : JournalCall := ⟨[5], nonce, true, 33, false⟩

theorem rejected_first : TornRejected gcm 100 100 [torn, whole] := by
  intro before call after heq htears _
  rcases before with _ | ⟨first, _ | ⟨second, _ | ⟨third, before⟩⟩⟩
  · cases heq
    decide +kernel
  · cases heq
    exact absurd htears (by decide +kernel)
  · cases heq
  · cases heq

theorem rejected_last : TornRejected gcm 100 100 [whole, torn] := by
  intro before call after heq htears _
  rcases before with _ | ⟨first, _ | ⟨second, _ | ⟨third, before⟩⟩⟩
  · cases heq
    exact absurd htears (by decide +kernel)
  · cases heq
    decide +kernel
  · cases heq
  · cases heq

/-- An append that succeeded after a torn one is lost by the restart. -/
theorem append_after_torn_is_lost :
    TornRejected gcm 100 100 [torn, whole] ∧ whole.succeeds gcm 100 = true ∧
      (SealedJournal.replay gcm 100 (fileAfter gcm 100 [torn, whole])).1 = [] ∧
        ¬ JournalDurable gcm 100 100 [torn, whole] := by
  have hlost : (SealedJournal.replay gcm 100 (fileAfter gcm 100 [torn, whole])).1 = [] := by
    decide +kernel
  have hsucceeded : (SealedJournal.calls gcm 100 {} [torn, whole]).2.map (·.1) = [[5]] := by
    decide +kernel
  refine ⟨rejected_first, by decide +kernel, hlost, fun hdurable => ?_⟩
  have hdelivered := hdurable.1
  rw [hlost, hsucceeded] at hdelivered
  cases hdelivered

/-- A torn append at the end does no harm. -/
theorem append_before_torn_is_kept : JournalDurable gcm 100 100 [whole, torn] := by
  refine (sealed_journal_durable_iff (Nat.le_refl _) (by decide) _ rejected_last).2 ?_
  intro before call after heq
  rcases before with _ | ⟨first, _ | ⟨second, _ | ⟨third, before⟩⟩⟩
  · cases heq
    exact ⟨fun h => absurd h (by decide +kernel), fun _ h => absurd h (by decide +kernel)⟩
  · cases heq
    exact ⟨fun _ => nofun, fun h => absurd h (by decide +kernel)⟩
  · cases heq
  · cases heq

end TornAppend

end Macha
