import Macha.Library.Run
import Macha.Metadata.HistoryCode
import Macha.Metadata.HistoryRebuild

/-!
# The history log

`history.log` is opened for appending, so that what a failed write leaves stays in
the file, while `history_bytes_` counts only what was written whole and synced. The
next frame goes to the end of the file and is recorded at `history_bytes_`. As long
as the two agree the file is whole frames, each where it was recorded.
-/

namespace Macha

open List

/-- An append by `append_history`, `store_commit` or `import_history`, and how the
file system treats it. -/
structure HistoryAppend where
  entry : MetadataHistoryEntry
  sized : entry.Sized
  nonce : GcmNonce
  /-- The bytes of the frame that reach the file before `write` fails; a frame that
  is no longer is written whole. -/
  reaches : Nat
  /-- `fsync` or `close` fails. -/
  syncFails : Bool

/-- The log and what is known of it in memory. -/
structure HistoryLog where
  file : ByteString := []
  historyBytes : Nat := 0
  history : HistoryIndex := ∅
  /-- The frames of the appends that returned, where they were recorded. -/
  appended : List HistoryFrame := []

inductive LogEvent
  | append (call : HistoryAppend)
  | restart

/-- What `load_history` makes of a frame. -/
inductive ScannedFrame
  | entry (frame : HistoryFrame)
  | skipped
  /-- It throws. -/
  | tooLarge
deriving DecidableEq

section

variable (codec : CommitCodec) (gcm : StreamGcm)

namespace HistoryLog

/-- The append: one of a commit that is here does nothing, and what the callers check
before it is that the entry fits what is here. -/
def append (log : HistoryLog) (call : HistoryAppend) : HistoryLog :=
  if (log.history[call.entry.hash]?).isSome then log
  else if codec.loadable log.history call.entry then
    match encodeHistoryFrame gcm call.nonce call.entry with
    | none => log
    | some frame =>
      if call.reaches < frame.length then
        { log with file := log.file ++ frame.take call.reaches }
      else if call.syncFails then { log with file := log.file ++ frame }
      else
        { file := log.file ++ frame
          historyBytes := log.historyBytes + frame.length
          history := log.history.insert call.entry.hash
            (call.entry.index log.historyBytes frame.length)
          appended := log.appended ++ [⟨log.historyBytes, frame.length, call.entry⟩] }
  else log

end HistoryLog

def readIndexedEntry (file : ByteString) (index : HistoryIndexEntry) :
    Option MetadataHistoryEntry := do
  guard (4 ≤ index.frameBytes)
  let bytes ← pread file index.fileOffset index.frameBytes
  let envelope ← (do Reader.fixed (← Reader.uint 4) : Reader ByteString).whole bytes
  match openHistoryEnvelope gcm envelope with
  | .entry e =>
    guard (e.matchesIndex index = true)
    some e
  | _ => none

/-- The frame `load_history` finds at an offset, and its size. The last frame of the
file is cut off if it does not authenticate. -/
def scanHistoryFrame (file : ByteString) (offset : Nat) : Option (ScannedFrame × Nat) := do
  let header ← pread file offset 4
  let length := uintOf header
  if maxHistoryRecord < length then some (.tooLarge, 4)
  else do
    let envelope ← pread file (offset + 4) length
    match openHistoryEnvelope gcm envelope with
    | .entry e => some (.entry ⟨offset, 4 + length, e⟩, 4 + length)
    | .undecodable => some (.skipped, 4 + length)
    | .unauthentic =>
      if offset + (4 + length) = file.length then none else some (.skipped, 4 + length)

/-- The frames up to where the file is cut off. A frame takes room, so the length of
the file is fuel enough. -/
def scanHistory (file : ByteString) : List ScannedFrame × Nat :=
  scanFrames (scanHistoryFrame gcm file) (file.length + 1) 0

namespace ScannedFrame

def entry? : ScannedFrame → Option HistoryFrame
  | .entry frame => some frame
  | _ => none

end ScannedFrame

def recoveredFrames (file : ByteString) : List HistoryFrame :=
  (scanHistory gcm file).1.filterMap ScannedFrame.entry?

namespace HistoryLog

/-- `load_history` in the next process, unless it throws. -/
def load (log : HistoryLog) : Option HistoryLog := do
  let scanned := scanHistory gcm log.file
  guard (ScannedFrame.tooLarge ∉ scanned.1)
  some
    { file := log.file.take scanned.2
      historyBytes := scanned.2
      history := (recoveredFrames gcm log.file).foldl
        (fun history f => codec.indexEntry history f.entry f.fileOffset f.frameBytes) ∅
      appended := log.appended }

def step (log : HistoryLog) : LogEvent → Option HistoryLog
  | .append call => some (log.append codec gcm call)
  | .restart => log.load codec gcm

end HistoryLog

abbrev LogStep := Computes (HistoryLog.step codec gcm)

/-- Each append that returned is readable where it was recorded, and a restart
recovers them in order, each where it was. -/
structure AppendsDurable (log : HistoryLog) : Prop where
  readable : ∀ f ∈ log.appended,
    readIndexedEntry gcm log.file (f.entry.index f.fileOffset f.frameBytes) = some f.entry
  inOrder : log.appended.Sublist (recoveredFrames gcm log.file)
  recovered : ∃ loaded, log.load codec gcm = some loaded ∧ ∀ f ∈ log.appended,
    loaded.history[f.entry.hash]? = some (f.entry.index f.fileOffset f.frameBytes) ∧
      readIndexedEntry gcm loaded.file (f.entry.index f.fileOffset f.frameBytes) = some f.entry

/-- An append that writes: its record is within the limit of the loader; if bytes of it
reach the file, the file is whole frames before; and if it returns, its entry is one
the reader accepts and the file is as long as was counted. -/
def AppendsAligned (t : Transition HistoryLog LogEvent) : Prop :=
  ∀ call, t.event = .append call → t.before.history[call.entry.hash]? = none →
    call.entry.frameSize - 4 ≤ maxHistoryRecord ∧
      (0 < call.reaches → (scanHistory gcm t.before.file).2 = t.before.file.length) ∧
        (call.entry.frameSize ≤ call.reaches → call.syncFails = false →
          call.entry.readable = true ∧ t.before.historyBytes = t.before.file.length)

end

/-! ## Frames that were written -/

/-- A frame as `encode_history_frame` makes it, within the limit of the loader. -/
structure WrittenFrame (gcm : StreamGcm) where
  entry : MetadataHistoryEntry
  sized : entry.Sized
  nonce : GcmNonce
  bytes : ByteString
  encoded : encodeHistoryFrame gcm nonce entry = some bytes
  fits : entry.frameSize - 4 ≤ maxHistoryRecord

namespace WrittenFrame

section

variable {gcm : StreamGcm} {file front back : ByteString}

section

variable (w : WrittenFrame gcm)

theorem length_bytes : w.bytes.length = w.entry.frameSize :=
  length_encodeHistoryFrame w.sized w.encoded

theorem length_pos : 4 < w.bytes.length := by
  rw [w.length_bytes]
  unfold MetadataHistoryEntry.frameSize
  omega

theorem exists_envelope : ∃ envelope : ByteString,
    w.bytes = writeUint 4 envelope.length ++ envelope ∧ envelope.length < 256 ^ 4 ∧
      envelope.length ≤ maxHistoryRecord ∧ w.bytes.length = 4 + envelope.length ∧
        openHistoryEnvelope gcm envelope =
          if w.entry.readable = true then .entry w.entry else .undecodable := by
  obtain ⟨plaintext, hencode, hu32, henvelope, hbytes⟩ := encodeHistoryFrame_eq_some w.encoded
  have hlength : w.bytes.length = 4 + (historyEnvelope gcm w.nonce plaintext).length := by
    rw [hbytes, length_append, length_writeUint]
  have hfits := w.fits
  rw [← w.length_bytes] at hfits
  exact ⟨_, hbytes, henvelope, by omega, hlength, openHistoryEnvelope_seal w.sized hencode hu32⟩

def frameAt (w : WrittenFrame gcm) (offset : Nat) : HistoryFrame :=
  ⟨offset, w.bytes.length, w.entry⟩

/-- What the loader makes of it there. -/
def scanned (w : WrittenFrame gcm) (offset : Nat) : ScannedFrame :=
  if w.entry.readable = true then .entry (w.frameAt offset) else .skipped

theorem scanHistoryFrame_eq (hfile : file = front ++ w.bytes ++ back) :
    scanHistoryFrame gcm file front.length = some (w.scanned front.length, w.bytes.length) := by
  obtain ⟨envelope, hbytes, hu32, hmax, hlength, hopen⟩ := w.exists_envelope
  have hheader : pread file front.length 4 = some (writeUint 4 envelope.length) := by
    refine pread_eq_some front _ (envelope ++ back) ?_ rfl (length_writeUint _ _).symm
    rw [hfile, hbytes]
    simp only [append_assoc]
  have henvelope : pread file (front.length + 4) envelope.length = some envelope := by
    refine pread_eq_some (front ++ writeUint 4 envelope.length) _ back ?_ ?_ rfl
    · rw [hfile, hbytes]
      simp only [append_assoc]
    · rw [length_append, length_writeUint]
  unfold scanHistoryFrame scanned frameAt
  rw [hheader, Option.bind_eq_bind, Option.bind_some]
  rw [uintOf_writeUint hu32, if_neg (Nat.not_lt_of_le hmax), henvelope, Option.bind_some,
    hopen, hlength]
  by_cases hreadable : w.entry.readable = true
  · rw [if_pos hreadable, if_pos hreadable]
  · rw [if_neg hreadable, if_neg hreadable]

theorem readIndexedEntry_eq (hreadable : w.entry.readable = true)
    (hfile : file = front ++ w.bytes ++ back) :
    readIndexedEntry gcm file (w.entry.index front.length w.bytes.length) = some w.entry := by
  obtain ⟨envelope, hbytes, hu32, -, hlength, hopen⟩ := w.exists_envelope
  have hread : Reads (do Reader.fixed (← Reader.uint 4) : Reader ByteString) w.bytes envelope := by
    rw [hbytes]
    exact (Reads.uint hu32).bind (Reads.fixed rfl)
  have hfour : 4 ≤ (w.entry.index front.length w.bytes.length).frameBytes :=
    Nat.le_of_lt w.length_pos
  have hpread : pread file (w.entry.index front.length w.bytes.length).fileOffset
      (w.entry.index front.length w.bytes.length).frameBytes = some w.bytes :=
    pread_eq_some front w.bytes back hfile rfl rfl
  rw [if_pos hreadable] at hopen
  unfold readIndexedEntry
  rw [guard_of hfour, Option.bind_eq_bind, Option.bind_some, hpread, Option.bind_eq_bind,
    Option.bind_some, hread.whole, Option.bind_some, hopen]
  dsimp only
  rw [guard_of (w.entry.matchesIndex_index _ _)]
  rfl

theorem scanHistoryFrame_torn {count : Nat} (hcount : count < w.bytes.length)
    (hfile : file = front ++ w.bytes.take count) :
    scanHistoryFrame gcm file front.length = none := by
  obtain ⟨envelope, hbytes, hu32, hmax, hlength, -⟩ := w.exists_envelope
  have hsize : file.length = front.length + count := by
    rw [hfile, length_append, length_take]
    omega
  unfold scanHistoryFrame
  by_cases hheader : count < 4
  · rw [pread_eq_none (by omega)]
    rfl
  · have htake : w.bytes.take count = writeUint 4 envelope.length ++ envelope.take (count - 4) := by
      rw [hbytes, take_append, length_writeUint, take_of_length_le]
      rw [length_writeUint]
      omega
    have hread : pread file front.length 4 = some (writeUint 4 envelope.length) := by
      refine pread_eq_some front _ (envelope.take (count - 4)) ?_ rfl (length_writeUint _ _).symm
      rw [hfile, htake, append_assoc]
    rw [hread, Option.bind_eq_bind, Option.bind_some]
    rw [uintOf_writeUint hu32, if_neg (Nat.not_lt_of_le hmax), pread_eq_none (by omega)]
    rfl

end

end

end WrittenFrame

/-! ## Files of written frames -/

section

variable {codec : CommitCodec} {gcm : StreamGcm}

def bytesOf (ws : List (WrittenFrame gcm)) : ByteString := ws.flatMap (·.bytes)

/-- The frames one after another from an offset. -/
def framesFrom : Nat → List (WrittenFrame gcm) → List HistoryFrame
  | _, [] => []
  | offset, w :: ws => w.frameAt offset :: framesFrom (offset + w.bytes.length) ws

def scannedFrom : Nat → List (WrittenFrame gcm) → List ScannedFrame
  | _, [] => []
  | offset, w :: ws => w.scanned offset :: scannedFrom (offset + w.bytes.length) ws

/-- The end of the file: a part of a frame, or nothing. -/
def TornTail (gcm : StreamGcm) (tail : ByteString) : Prop :=
  tail = [] ∨ ∃ w : WrittenFrame gcm, ∃ count < w.bytes.length, tail = w.bytes.take count

theorem bytesOf_append (ws vs : List (WrittenFrame gcm)) :
    bytesOf (ws ++ vs) = bytesOf ws ++ bytesOf vs := flatMap_append

theorem bytesOf_singleton (w : WrittenFrame gcm) : bytesOf [w] = w.bytes :=
  append_nil w.bytes

theorem framesFrom_append (offset : Nat) (ws vs : List (WrittenFrame gcm)) :
    framesFrom offset (ws ++ vs) =
      framesFrom offset ws ++ framesFrom (offset + (bytesOf ws).length) vs := by
  induction ws generalizing offset with
  | nil => rfl
  | cons w ws ih =>
    rw [cons_append, framesFrom, ih, framesFrom, cons_append, bytesOf, bytesOf,
      flatMap_cons, length_append, Nat.add_assoc]

variable {ws : List (WrittenFrame gcm)}

theorem exists_of_mem_framesFrom {offset : Nat} {f : HistoryFrame} (h : f ∈ framesFrom offset ws) :
    ∃ front w back, ws = front ++ w :: back ∧ f = w.frameAt (offset + (bytesOf front).length) := by
  induction ws generalizing offset with
  | nil => cases h
  | cons w ws ih =>
    rcases mem_cons.1 h with rfl | h
    · exact ⟨[], w, ws, rfl, rfl⟩
    · obtain ⟨front, v, back, rfl, rfl⟩ := ih h
      refine ⟨w :: front, v, back, rfl, ?_⟩
      rw [bytesOf, bytesOf, flatMap_cons, length_append, Nat.add_assoc]

theorem framed_written (front : ByteString) (ws : List (WrittenFrame gcm)) (back : ByteString) :
    Framed (scanHistoryFrame gcm (front ++ bytesOf ws ++ back)) front.length
      (scannedFrom front.length ws) (front.length + (bytesOf ws).length) := by
  induction ws generalizing front with
  | nil => exact .nil _
  | cons w ws ih =>
    have hfile : front ++ bytesOf (w :: ws) ++ back = front ++ w.bytes ++ (bytesOf ws ++ back) := by
      simp only [bytesOf, flatMap_cons, append_assoc]
    have hrest := ih (front ++ w.bytes)
    have hstop : (front ++ w.bytes).length + (bytesOf ws).length =
        front.length + (bytesOf (w :: ws)).length := by
      simp only [bytesOf, flatMap_cons, length_append, Nat.add_assoc]
    rw [hstop, length_append] at hrest
    refine .cons (w.scanHistoryFrame_eq hfile) ?_
    have hsame : front ++ w.bytes ++ bytesOf ws ++ back = front ++ bytesOf (w :: ws) ++ back := by
      rw [hfile, append_assoc (front ++ w.bytes)]
    rw [← hsame]
    exact hrest

theorem length_scannedFrom (offset : Nat) (ws : List (WrittenFrame gcm)) :
    (scannedFrom offset ws).length ≤ (bytesOf ws).length := by
  induction ws generalizing offset with
  | nil => exact Nat.le_refl _
  | cons w ws ih =>
    have hrest := ih (offset + w.bytes.length)
    have hpos := w.length_pos
    rw [scannedFrom, length_cons, bytesOf, flatMap_cons, length_append]
    unfold bytesOf at hrest
    omega

theorem scanHistory_eq {tail : ByteString} (htail : TornTail gcm tail) :
    scanHistory gcm (bytesOf ws ++ tail) = (scannedFrom 0 ws, (bytesOf ws).length) := by
  have hframed := framed_written [] ws tail
  have hcount := length_scannedFrom 0 ws
  rw [nil_append, length_nil, Nat.zero_add] at hframed
  refine scanFrames_eq hframed ?_ ?_
  · rcases htail with rfl | ⟨w, count, hcount, rfl⟩
    · unfold scanHistoryFrame
      rw [append_nil, pread_eq_none (by omega)]
      rfl
    · exact w.scanHistoryFrame_torn hcount rfl
  · rw [length_append]
    omega

theorem tooLarge_notMem (offset : Nat) (ws : List (WrittenFrame gcm)) :
    ScannedFrame.tooLarge ∉ scannedFrom offset ws := by
  induction ws generalizing offset with
  | nil => exact not_mem_nil
  | cons w ws ih =>
    rw [scannedFrom, mem_cons, not_or]
    refine ⟨?_, ih _⟩
    unfold WrittenFrame.scanned
    split <;> nofun

theorem filterMap_scannedFrom (offset : Nat) (ws : List (WrittenFrame gcm)) :
    (scannedFrom offset ws).filterMap ScannedFrame.entry? =
      (framesFrom offset ws).filter fun f => f.entry.readable := by
  induction ws generalizing offset with
  | nil => rfl
  | cons w ws ih =>
    rw [scannedFrom, framesFrom, filterMap_cons, filter_cons, ih]
    unfold WrittenFrame.scanned WrittenFrame.frameAt
    by_cases hreadable : w.entry.readable = true
    · rw [if_pos hreadable, if_pos hreadable]
      rfl
    · rw [if_neg hreadable, if_neg hreadable]
      rfl

theorem recoveredFrames_eq {tail : ByteString} (htail : TornTail gcm tail) :
    recoveredFrames gcm (bytesOf ws ++ tail) =
      (framesFrom 0 ws).filter fun f => f.entry.readable := by
  unfold recoveredFrames
  rw [scanHistory_eq htail, filterMap_scannedFrom]

def indexFrames (codec : CommitCodec) (history : HistoryIndex) (frames : List HistoryFrame) :
    HistoryIndex :=
  frames.foldl (fun history f => codec.loadEntry history f.entry f.fileOffset f.frameBytes) history

theorem foldl_filter_readable (history : HistoryIndex) (frames : List HistoryFrame) :
    (frames.filter fun f => f.entry.readable).foldl
      (fun history f => codec.indexEntry history f.entry f.fileOffset f.frameBytes) history =
        indexFrames codec history frames := by
  induction frames generalizing history with
  | nil => rfl
  | cons f frames ih =>
    unfold indexFrames
    rw [filter_cons, foldl_cons]
    by_cases hreadable : f.entry.readable = true
    · rw [if_pos hreadable, foldl_cons, ih]
      unfold CommitCodec.loadEntry
      rw [if_pos hreadable]
      rfl
    · rw [if_neg hreadable, ih]
      unfold CommitCodec.loadEntry
      rw [if_neg hreadable]
      rfl

theorem load_written (log : HistoryLog) {tail : ByteString} (hfile : log.file = bytesOf ws ++ tail)
    (htail : TornTail gcm tail) :
    log.load codec gcm = some {
        file := bytesOf ws
        historyBytes := (bytesOf ws).length
        history := indexFrames codec ∅ (framesFrom 0 ws)
        appended := log.appended } := by
  unfold HistoryLog.load
  rw [hfile, scanHistory_eq htail, recoveredFrames_eq htail, foldl_filter_readable]
  dsimp only
  rw [guard_of (tooLarge_notMem 0 ws), take_left]
  rfl

theorem indexFrames_keeps {history : HistoryIndex} {frames : List HistoryFrame} {hash : Hash256}
    (h : ∀ f ∈ frames, f.entry.hash ≠ hash) :
    (indexFrames codec history frames)[hash]? = history[hash]? := by
  induction frames generalizing history with
  | nil => rfl
  | cons f frames ih =>
    exact (ih fun g hg => h g (mem_cons_of_mem _ hg)).trans
      (codec.loadEntry_of_ne (h f mem_cons_self) _ _)

/-- The log holds the frames that were counted, then frames whose append failed after
the write, then part of a frame. -/
structure LogSound (codec : CommitCodec) (gcm : StreamGcm) (log : HistoryLog)
    (kept extra : List (WrittenFrame gcm)) (tail : ByteString) : Prop where
  file : log.file = bytesOf (kept ++ extra) ++ tail
  torn : TornTail gcm tail
  bytes : log.historyBytes = (bytesOf kept).length
  index : log.history = indexFrames codec ∅ (framesFrom 0 kept)
  extra : ∀ w ∈ extra, log.history[w.entry.hash]? = none
  inOrder : log.appended.Sublist ((framesFrom 0 kept).filter fun f => f.entry.readable)
  placed : ∀ f ∈ log.appended,
    log.history[f.entry.hash]? = some (f.entry.index f.fileOffset f.frameBytes)

namespace LogSound

variable {log next : HistoryLog} {kept extra : List (WrittenFrame gcm)} {tail : ByteString}

section

variable (inv : LogSound codec gcm log kept extra tail)

include inv

/-- The frames that failed after the write do not get in the way of those that did not. -/
theorem placed_all {f : HistoryFrame} (hf : f ∈ log.appended) :
    (indexFrames codec ∅ (framesFrom 0 (kept ++ extra)))[f.entry.hash]? =
      some (f.entry.index f.fileOffset f.frameBytes) := by
  have hplaced := inv.placed f hf
  rw [framesFrom_append, indexFrames, foldl_append]
  show (indexFrames codec (indexFrames codec ∅ (framesFrom 0 kept)) _)[f.entry.hash]? = _
  rw [← inv.index, indexFrames_keeps, hplaced]
  intro g hg heq
  obtain ⟨front, w, back, rfl, rfl⟩ := exists_of_mem_framesFrom hg
  have hnone := inv.extra w (mem_append_right _ mem_cons_self)
  rw [show w.entry.hash = f.entry.hash from heq, hplaced] at hnone
  cases hnone

omit inv in
theorem readable_kept {f : HistoryFrame}
    (hf : f ∈ (framesFrom 0 ws).filter fun f => f.entry.readable) (back : ByteString) :
    readIndexedEntry gcm (bytesOf ws ++ back) (f.entry.index f.fileOffset f.frameBytes) =
      some f.entry := by
  obtain ⟨hmem, hreadable⟩ := mem_filter.1 hf
  obtain ⟨front, w, rest, rfl, rfl⟩ := exists_of_mem_framesFrom hmem
  have hfile : bytesOf (front ++ w :: rest) ++ back =
      bytesOf front ++ w.bytes ++ (bytesOf rest ++ back) := by
    simp only [bytesOf, flatMap_append, flatMap_cons, append_assoc]
  rw [Nat.zero_add]
  exact w.readIndexedEntry_eq hreadable hfile

theorem sublist_all :
    log.appended.Sublist ((framesFrom 0 (kept ++ extra)).filter fun f => f.entry.readable) := by
  rw [framesFrom_append, filter_append]
  exact inv.inOrder.trans (sublist_append_left _ _)

theorem appendsDurable : AppendsDurable codec gcm log where
  readable f hf := by
    rw [inv.file]
    exact readable_kept (inv.sublist_all.subset hf) tail
  inOrder := by
    rw [inv.file, recoveredFrames_eq inv.torn]
    exact inv.sublist_all
  recovered := by
    refine ⟨_, load_written log inv.file inv.torn, fun f hf => ⟨inv.placed_all hf, ?_⟩⟩
    have hread := readable_kept (inv.sublist_all.subset hf) []
    rwa [append_nil] at hread

omit inv in
theorem empty : LogSound codec gcm {} [] [] [] :=
  ⟨rfl, .inl rfl, rfl, rfl, nofun, List.Sublist.refl _, nofun⟩

theorem tail_nil (h : (scanHistory gcm log.file).2 = log.file.length) : tail = [] := by
  rw [inv.file, scanHistory_eq inv.torn, length_append] at h
  exact eq_nil_of_length_eq_zero (by omega)

theorem extra_nil (h : log.historyBytes = log.file.length) : extra = [] ∧ tail = [] := by
  rw [inv.file, inv.bytes, bytesOf_append, length_append, length_append] at h
  refine ⟨?_, eq_nil_of_length_eq_zero (by omega)⟩
  cases extra with
  | nil => rfl
  | cons w extra =>
    have hpos := w.length_pos
    rw [bytesOf, bytesOf, flatMap_cons, length_append] at h
    omega

theorem restart (h : log.load codec gcm = some next) :
    LogSound codec gcm next (kept ++ extra) [] [] := by
  rw [load_written log inv.file inv.torn] at h
  cases h
  refine ⟨?_, .inl rfl, rfl, rfl, nofun, inv.sublist_all, fun f hf => inv.placed_all hf⟩
  rw [append_nil, append_nil]

theorem tear (w : WrittenFrame gcm) {count : Nat} (hcount : count < w.bytes.length)
    (hwhole : 0 < count → tail = []) :
    ∃ tail', LogSound codec gcm { log with file := log.file ++ w.bytes.take count } kept extra
      tail' := by
  by_cases hzero : 0 < count
  · refine ⟨w.bytes.take count, ?_, .inr ⟨w, count, hcount, rfl⟩, inv.bytes, inv.index, inv.extra,
      inv.inOrder, inv.placed⟩
    rw [inv.file, hwhole hzero, append_nil]
  · have hnone : w.bytes.take count = [] := by
      rw [Nat.eq_zero_of_not_pos hzero, take_zero]
    rw [hnone, append_nil]
    exact ⟨tail, inv⟩

omit inv in
theorem leave (inv : LogSound codec gcm log kept extra []) (w : WrittenFrame gcm)
    (hnew : log.history[w.entry.hash]? = none) :
    LogSound codec gcm { log with file := log.file ++ w.bytes } kept (extra ++ [w]) [] := by
  refine ⟨?_, .inl rfl, inv.bytes, inv.index, fun v hv => ?_, inv.inOrder, inv.placed⟩
  · rw [inv.file, ← append_assoc kept, bytesOf_append (kept ++ extra), bytesOf_singleton,
      append_nil, append_nil]
  · rcases mem_append.1 hv with hv | hv
    · exact inv.extra v hv
    · rw [mem_singleton.1 hv]
      exact hnew

omit inv in
theorem count (inv : LogSound codec gcm log kept [] []) (w : WrittenFrame gcm)
    (hnew : log.history[w.entry.hash]? = none) (hreadable : w.entry.readable = true)
    (hloadable : codec.loadable log.history w.entry = true) :
    LogSound codec gcm {
        file := log.file ++ w.bytes
        historyBytes := log.historyBytes + w.bytes.length
        history := log.history.insert w.entry.hash
          (w.entry.index log.historyBytes w.bytes.length)
        appended := log.appended ++ [⟨log.historyBytes, w.bytes.length, w.entry⟩] }
      (kept ++ [w]) [] [] := by
  have hframes : framesFrom 0 (kept ++ [w]) = framesFrom 0 kept ++ [w.frameAt log.historyBytes] := by
    rw [framesFrom_append, Nat.zero_add, ← inv.bytes]
    rfl
  refine ⟨?_, .inl rfl, ?_, ?_, nofun, ?_, fun f hf => ?_⟩
  · rw [inv.file, append_nil, append_nil, append_nil, append_nil, bytesOf_append, bytesOf_singleton]
  · rw [bytesOf_append, length_append, bytesOf_singleton, inv.bytes]
  · rw [hframes, indexFrames, foldl_append]
    show _ = codec.loadEntry (indexFrames codec ∅ (framesFrom 0 kept)) _ _ _
    rw [← inv.index]
    exact (codec.loadEntry_of_new hreadable hloadable hnew _ _).symm
  · rw [hframes, filter_append]
    refine inv.inOrder.append ?_
    rw [filter_cons_of_pos (by exact hreadable)]
    exact List.Sublist.refl _
  · rcases mem_append.1 hf with hf | hf
    · have hplaced := inv.placed f hf
      have hne : w.entry.hash ≠ f.entry.hash := by
        intro heq
        rw [← heq, hnew] at hplaced
        cases hplaced
      exact (OrdMap.getElem?_insert_of_ne _ _ hne).trans hplaced
    · rw [mem_singleton.1 hf]
      exact OrdMap.getElem?_insert_self _ _ _

theorem append {call : HistoryAppend} (hsafe : AppendsAligned gcm ⟨log, .append call, next⟩)
    (h : log.append codec gcm call = next) :
    ∃ kept extra tail, LogSound codec gcm next kept extra tail := by
  subst h
  unfold HistoryLog.append
  split
  · exact ⟨kept, extra, tail, inv⟩
  · next habsent =>
    have hnew := Option.not_isSome_iff_eq_none.1 habsent
    obtain ⟨hfits, hwhole, hreturns⟩ := hsafe call rfl hnew
    split
    · next hloadable =>
      split
      · exact ⟨kept, extra, tail, inv⟩
      · next frame hframe =>
        let w : WrittenFrame gcm := ⟨call.entry, call.sized, call.nonce, frame, hframe, hfits⟩
        have hlength : frame.length = call.entry.frameSize := w.length_bytes
        split
        · next hshort =>
          obtain ⟨tail', inv'⟩ := inv.tear w hshort fun hpos => inv.tail_nil (hwhole hpos)
          exact ⟨kept, extra, tail', inv'⟩
        · next hlong =>
          have hpos : 4 < frame.length := w.length_pos
          have htail := inv.tail_nil (hwhole (by omega))
          subst htail
          split
          · exact ⟨kept, extra ++ [w], [], inv.leave w hnew⟩
          · next hsynced =>
            obtain ⟨hreadable, haligned⟩ := hreturns (by omega)
              (Bool.eq_false_iff.2 hsynced)
            obtain ⟨rfl, -⟩ := inv.extra_nil haligned
            exact ⟨kept ++ [w], [], [], inv.count w hnew hreadable hloadable⟩
    · exact ⟨kept, extra, tail, inv⟩

end

end LogSound

theorem logSound_of_run {events : List (Transition HistoryLog LogEvent)} {last : HistoryLog}
    (run : Run (Traced (LogStep codec gcm)) {} events last)
    (hsafe : Always (fun _ t => AppendsAligned gcm t) events) :
    ∃ kept extra tail, LogSound codec gcm last kept extra tail := by
  refine run.invariant_of_always
    (P := fun log => ∃ kept extra tail, LogSound codec gcm log kept extra tail) hsafe
    ⟨[], [], [], LogSound.empty⟩ ?_
  rintro log event next hstep ⟨kept, extra, tail, inv⟩ hlast
  cases event with
  | append call => exact inv.append hlast (Option.some_inj.1 hstep)
  | restart => exact ⟨_, _, _, inv.restart hstep⟩

end

/-! ## An append after one that failed -/

namespace GenerationCommits

/-- Commits without a payload are told apart by their generation. -/
def metadataHash (generation : Nat) (previous : Hash256) (payload : ByteString) : Hash256 :=
  if previous = Hash256.zero ∧ payload = [] then generation :: 99 :: replicate 30 0
  else [generation, previous.length] ++ previous ++ payload

theorem metadataHash_short {g h : Nat} {q : Hash256} {e : ByteString}
    (heq : g :: 99 :: replicate 30 0 = [h, q.length] ++ q ++ e) : False := by
  obtain ⟨-, htail⟩ := List.cons.inj heq
  obtain ⟨hlength, hrest⟩ := List.cons.inj htail
  have hsize : 30 = (q ++ e).length := congrArg List.length hrest
  rw [length_append] at hsize
  omega

theorem metadataHash_inj {g h : Nat} {p q : Hash256} {d e : ByteString}
    (heq : metadataHash g p d = metadataHash h q e) : g = h ∧ p = q ∧ d = e := by
  unfold metadataHash at heq
  split at heq
  · next hp =>
    split at heq
    · next hq =>
      exact ⟨(List.cons.inj heq).1, hp.1.trans hq.1.symm, hp.2.trans hq.2.symm⟩
    · exact (metadataHash_short heq).elim
  · split at heq
    · exact (metadataHash_short heq.symm).elim
    · exact NumberedCommits.metadataHash_inj heq

def codec : CommitCodec where
  metadataHash := metadataHash
  decodeSnapshot _ := none
  encodeSnapshot _ := none
  decodeDelta _ := none
  legacyFileId _ := 0
  applier := none
  metadataHash_injective := metadataHash_inj
  mergeParents_encodeSnapshot := nofun

def tag : ByteString := replicate 16 9

def gcm : StreamGcm where
  sealBox nonce plaintext := ⟨nonce, tag, plaintext⟩
  openBox box := if box.tag = tag then some box.ciphertext else none
  nonce_sealBox _ _ := rfl
  length_tag _ _ := rfl
  openBox_sealBox _ _ := rfl
  length_ciphertext _ _ := rfl

def entry (generation : Nat) : MetadataHistoryEntry where
  generation := generation
  previous := Hash256.zero
  hash := metadataHash generation Hash256.zero []
  previousKnown := false
  mergeParents := []
  body := .full
  payload := []

theorem sized_entry {generation : Nat} (h : generation < 256 ^ 8) : (entry generation).Sized :=
  ⟨h, rfl, rfl, nofun⟩

/-- An append that writes no more than these bytes. -/
def call (generation : Nat) (h : generation < 256 ^ 8) (reaches : Nat) : HistoryAppend :=
  ⟨entry generation, sized_entry h, ⟨replicate 12 1, rfl⟩, reaches, false⟩

end GenerationCommits

namespace RetriedAppend

open GenerationCommits

/-- The first append fails after ten bytes, and is tried again. -/
def events : List LogEvent :=
  [.append (call 1 (by decide) 10), .append (call 1 (by decide) 1000)]

def last : HistoryLog := (events.foldlM (HistoryLog.step codec gcm) {}).getD {}

theorem possible : (events.foldlM (HistoryLog.step codec gcm) {}).isSome = true := by
  decide +kernel

/-- It returns, and the entry is not where it was recorded; a restart does not find it. -/
theorem returned_append_lost :
    ∃ trace, Run (Traced (LogStep codec gcm)) {} trace last ∧ trace.map (·.event) = events ∧
      last.appended = [⟨0, 118, entry 1⟩] ∧
        readIndexedEntry gcm last.file ((entry 1).index 0 118) = none ∧
          recoveredFrames gcm last.file = [] ∧ ¬ AppendsDurable codec gcm last := by
  obtain ⟨trace, run, htrace⟩ := exists_run_last possible (rfl : _ = last)
  have happended : last.appended = [⟨0, 118, entry 1⟩] := by decide +kernel
  have hunread : readIndexedEntry gcm last.file ((entry 1).index 0 118) = none := by
    decide +kernel
  refine ⟨trace, run, htrace, happended, hunread, by decide +kernel, fun hdurable => ?_⟩
  have hread := hdurable.readable ⟨0, 118, entry 1⟩ (by
    exact mem_cons_self)
  rw [hunread] at hread
  cases hread

end RetriedAppend

/-- Over every run of appends that return or fail after any part of their frame, and of
restarts, an append that returned is readable where it was recorded and is recovered in
order, as long as after a failed append that left bytes none returns before the next
restart, and nothing is written after part of a frame. -/
theorem history_appends_durable {codec : CommitCodec} {gcm : StreamGcm}
    {events : List (Transition HistoryLog LogEvent)} {last : HistoryLog}
    (run : Run (Traced (LogStep codec gcm)) {} events last)
    (hsafe : Always (fun _ t => AppendsAligned gcm t) events) :
    AppendsDurable codec gcm last := by
  obtain ⟨kept, extra, tail, inv⟩ := logSound_of_run run hsafe
  exact inv.appendsDurable

namespace TornThenRestarted

open GenerationCommits

def first : HistoryLog := HistoryLog.append codec gcm {} (call 1 (by decide) 1000)

def torn : HistoryLog := first.append codec gcm (call 2 (by decide) 10)

def restarted : HistoryLog := (torn.load codec gcm).getD {}

def last : HistoryLog := restarted.append codec gcm (call 2 (by decide) 1000)

/-- What the failed append left is cut off by the restart, and the next one returns. -/
theorem appends_survive_restart :
    last.appended = [⟨0, 118, entry 1⟩, ⟨118, 118, entry 2⟩] ∧ AppendsDurable codec gcm last := by
  refine ⟨by decide +kernel, ?_⟩
  have hrestarted : LogStep codec gcm torn .restart restarted := computes_getD (by decide +kernel)
  refine history_appends_durable
    (Run.trace_snoc (u := last) (Run.trace_snoc (Run.trace_snoc (u := torn)
      (Run.trace_snoc (u := first) .refl
        (show LogStep codec gcm {} (.append (call 1 (by decide) 1000)) first from rfl))
        (show LogStep codec gcm first (.append (call 2 (by decide) 10)) torn from rfl))
        hrestarted)
        (show LogStep codec gcm restarted (.append (call 2 (by decide) 1000)) last from rfl)) ?_
  refine always_snoc.2 ⟨always_snoc.2 ⟨always_snoc.2 ⟨always_snoc.2 ⟨always_nil _, ?_⟩, ?_⟩,
    nofun⟩, ?_⟩
  · rintro _ ⟨⟩ -
    exact ⟨by decide, fun _ => by decide +kernel, fun _ _ => ⟨by decide, rfl⟩⟩
  · rintro _ ⟨⟩ -
    exact ⟨by decide, fun _ => by decide +kernel, fun h => absurd h (by decide)⟩
  · rintro _ ⟨⟩ -
    exact ⟨by decide, fun _ => by decide +kernel, fun _ _ => ⟨by decide, by decide +kernel⟩⟩

end TornThenRestarted

end Macha
