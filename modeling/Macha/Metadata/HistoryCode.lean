import Macha.Library.Wire
import Macha.Metadata.History
import Macha.Storage.SealedJournal

/-!
# The bytes of a history entry

`encode_metadata_history_entry` writes the fields one after another, and
`decode_metadata_history_entry` reads them and then checks them. The writer does
not make the reader's checks: what is read back is exactly what the reader accepts.
A frame of `history.log` is the entry sealed, with the length of the envelope
before it.
-/

namespace Macha

open List

namespace HistoryBody

def code : HistoryBody → Nat
  | .full => 1
  | .delta => 2

def ofCode : Nat → Option HistoryBody
  | 1 => some .full
  | 2 => some .delta
  | _ => none

theorem ofCode_code (body : HistoryBody) : ofCode body.code = some body := by
  cases body <;> rfl

theorem code_lt (body : HistoryBody) : body.code < 256 ^ 1 := by
  cases body <;> decide

end HistoryBody

namespace MetadataHistoryEntry

/-- The widths the source's types give the fields. -/
structure Sized (e : MetadataHistoryEntry) : Prop where
  generation : e.generation < 256 ^ 8
  previous : e.previous.length = 32
  hash : e.hash.length = 32
  mergeParents : ∀ parent ∈ e.mergeParents, parent.length = 32

/-- `encode_metadata_history_entry`, unless it throws. -/
def encode (e : MetadataHistoryEntry) : Option ByteString := do
  guard (e.mergeParents.length ≤ 64)
  guard (e.payload.length < 256 ^ 4)
  some (writeUint 1 e.body.code ++ (writeUint 8 e.generation ++ (e.previous ++ (e.hash ++
    (writeUint 1 e.previousKnown.toNat ++ (writeUint 4 e.mergeParents.length ++
      (e.mergeParents.flatMap id ++ writeBlob e.payload)))))))

def reader : Reader MetadataHistoryEntry := do
  let code ← Reader.uint 1
  let body ← StateT.lift (HistoryBody.ofCode code)
  let generation ← Reader.uint 8
  let previous ← Reader.fixed 32
  let hash ← Reader.fixed 32
  let previousKnown ← Reader.uint 1
  let parents ← Reader.uint 4
  Reader.check (parents ≤ 64)
  let mergeParents ← (Reader.fixed 32).many parents
  let payload ← Reader.blob blobLimit
  pure
    { generation := generation
      previous := previous
      hash := hash
      previousKnown := decide (previousKnown ≠ 0)
      mergeParents := mergeParents
      body := body
      payload := payload }

def decode (data : ByteString) : Option MetadataHistoryEntry := do
  let e ← reader.whole data
  guard (e.decodes = true)
  some e

theorem decides_toNat (b : Bool) : decide (b.toNat ≠ 0) = b := by
  cases b <;> rfl

variable {data : ByteString} {e : MetadataHistoryEntry}

theorem reads_encode (sized : e.Sized) (h : e.encode = some data)
    (hpayload : e.payload.length ≤ blobLimit) :
    Reads reader data e := by
  obtain ⟨hparents, h⟩ := guard_bind_eq_some h
  obtain ⟨hu32, h⟩ := guard_bind_eq_some h
  cases h
  refine (Reads.uint e.body.code_lt).bind ?_
  rw [e.body.ofCode_code]
  refine @Reads.bind _ _ [] _ _ _ _ _ (fun _ => rfl) ?_
  refine (Reads.uint sized.generation).bind ((Reads.fixed sized.previous).bind
    ((Reads.fixed sized.hash).bind ((Reads.uint ?_).bind ((Reads.uint ?_).bind
      (Reads.check_bind hparents ((Reads.many fun parent hparent => ?_).bind ?_))))))
  · cases e.previousKnown <;> decide
  · omega
  · exact Reads.fixed (sized.mergeParents parent hparent)
  · rw [decides_toNat]
    exact (Reads.blob hpayload hu32).map fun payload => { e with payload := payload }

theorem decode_encode (sized : e.Sized) (h : e.encode = some data)
    (hpayload : e.payload.length ≤ blobLimit) :
    decode data = if e.decodes = true then some e else none := by
  unfold decode
  rw [(reads_encode sized h hpayload).whole, Option.bind_eq_bind, Option.bind_some]
  split
  · next hdecodes =>
    rw [guard_of hdecodes]
    rfl
  · next hdecodes =>
    rw [show (guard (e.decodes = true) : Option Unit) = none from if_neg hdecodes]
    rfl

theorem length_flatMap_id {parents : List Hash256} (h : ∀ parent ∈ parents, parent.length = 32) :
    (parents.flatMap id).length = 32 * parents.length := by
  induction parents with
  | nil => rfl
  | cons parent parents ih =>
    have hparent := h parent mem_cons_self
    have hrest := ih fun p hp => h p (mem_cons_of_mem _ hp)
    rw [flatMap_cons, length_append, hrest, length_cons, id, hparent]
    omega

theorem length_encode (sized : e.Sized) (h : e.encode = some data) :
    data.length = e.encodedSize := by
  obtain ⟨-, h⟩ := guard_bind_eq_some h
  obtain ⟨-, h⟩ := guard_bind_eq_some h
  cases h
  simp only [length_append, length_writeUint, length_writeBlob,
    length_flatMap_id sized.mergeParents, sized.previous, sized.hash]
  unfold encodedSize
  omega

end MetadataHistoryEntry

/-- AES-GCM is a stream mode: the ciphertext is as long as the plaintext. -/
structure StreamGcm extends AesGcm where
  length_ciphertext : ∀ nonce plaintext,
    (sealBox nonce plaintext).ciphertext.length = plaintext.length

abbrev GcmNonce := { nonce : ByteString // nonce.length = 12 }

section

variable (gcm : StreamGcm)

/-- What a frame seals, with the length of the ciphertext before it. -/
def historyEnvelope (nonce : GcmNonce) (plaintext : ByteString) : ByteString :=
  let box := gcm.sealBox nonce.1 plaintext
  box.nonce ++ (box.tag ++ writeBlob box.ciphertext)

/-- The frame `encode_history_frame` makes with a nonce, unless it throws. -/
def encodeHistoryFrame (nonce : GcmNonce) (e : MetadataHistoryEntry) : Option ByteString := do
  let plaintext ← e.encode
  guard (plaintext.length < 256 ^ 4)
  let envelope := historyEnvelope gcm nonce plaintext
  guard (envelope.length < 256 ^ 4)
  some (writeUint 4 envelope.length ++ envelope)

def envelopeReader : Reader SealedBox := do
  let nonce ← Reader.fixed 12
  let tag ← Reader.fixed 16
  let ciphertext ← Reader.blob blobLimit
  pure ⟨nonce, tag, ciphertext⟩

/-- What becomes of an envelope that is read. -/
inductive OpenedFrame
  | entry (e : MetadataHistoryEntry)
  | unauthentic
  | undecodable
deriving DecidableEq

def openHistoryEnvelope (envelope : ByteString) : OpenedFrame :=
  match envelopeReader.whole envelope with
  | none => .undecodable
  | some box =>
    match gcm.openBox box with
    | none => .unauthentic
    | some plaintext =>
      match MetadataHistoryEntry.decode plaintext with
      | none => .undecodable
      | some e => .entry e

end

section

variable {gcm : StreamGcm} {nonce : GcmNonce} {e : MetadataHistoryEntry}
  {plaintext frame : ByteString}

theorem length_historyEnvelope :
    (historyEnvelope gcm nonce plaintext).length = 12 + 16 + 4 + plaintext.length := by
  unfold historyEnvelope
  simp only [length_append, length_writeBlob, gcm.nonce_sealBox, gcm.length_tag,
    gcm.length_ciphertext]
  omega

theorem encodeHistoryFrame_eq_some (h : encodeHistoryFrame gcm nonce e = some frame) :
    ∃ plaintext, e.encode = some plaintext ∧ plaintext.length < 256 ^ 4 ∧
      (historyEnvelope gcm nonce plaintext).length < 256 ^ 4 ∧
        frame = writeUint 4 (historyEnvelope gcm nonce plaintext).length ++
          historyEnvelope gcm nonce plaintext := by
  obtain ⟨plaintext, hplaintext, h⟩ := Option.bind_eq_some_iff.1 h
  obtain ⟨hsize, h⟩ := guard_bind_eq_some h
  obtain ⟨henvelope, h⟩ := guard_bind_eq_some h
  cases h
  exact ⟨plaintext, hplaintext, hsize, henvelope, rfl⟩

theorem length_encodeHistoryFrame (sized : e.Sized)
    (h : encodeHistoryFrame gcm nonce e = some frame) : frame.length = e.frameSize := by
  obtain ⟨plaintext, hencode, -, -, rfl⟩ := encodeHistoryFrame_eq_some h
  rw [length_append, length_writeUint, length_historyEnvelope,
    MetadataHistoryEntry.length_encode sized hencode]
  unfold MetadataHistoryEntry.frameSize
  omega

/-- What was sealed opens to the entry exactly when the reader accepts it; it is
never refused as unauthentic. -/
theorem openHistoryEnvelope_seal (sized : e.Sized) (hencode : e.encode = some plaintext)
    (hu32 : plaintext.length < 256 ^ 4) :
    openHistoryEnvelope gcm (historyEnvelope gcm nonce plaintext) =
      if e.readable = true then .entry e else .undecodable := by
  have hnonce : (gcm.sealBox nonce.1 plaintext).nonce.length = 12 := by
    rw [gcm.nonce_sealBox]
    exact nonce.2
  have htag := gcm.length_tag nonce.1 plaintext
  have hsize := gcm.length_ciphertext nonce.1 plaintext
  have hbox : (gcm.sealBox nonce.1 plaintext).ciphertext.length < 256 ^ 4 := by
    rw [hsize]
    exact hu32
  have hencoded := MetadataHistoryEntry.length_encode sized hencode
  unfold openHistoryEnvelope historyEnvelope MetadataHistoryEntry.readable
  by_cases hlimit : e.encodedSize ≤ blobLimit
  · have hpayload : e.payload.length ≤ blobLimit := by
      unfold MetadataHistoryEntry.encodedSize at hlimit
      omega
    have hfits : (gcm.sealBox nonce.1 plaintext).ciphertext.length ≤ blobLimit := by
      rw [hsize, hencoded]
      exact hlimit
    have hread : Reads envelopeReader _ (gcm.sealBox nonce.1 plaintext) :=
      (Reads.fixed hnonce).bind ((Reads.fixed htag).bind
        ((Reads.blob hfits hbox).map (SealedBox.mk _ _)))
    rw [hread.whole, decide_eq_true hlimit, Bool.and_true]
    dsimp only
    rw [gcm.openBox_sealBox]
    dsimp only
    rw [MetadataHistoryEntry.decode_encode sized hencode hpayload]
    by_cases hdecodes : e.decodes = true
    · rw [if_pos hdecodes, if_pos hdecodes]
    · rw [if_neg hdecodes, if_neg hdecodes]
  · have hover : blobLimit < (gcm.sealBox nonce.1 plaintext).ciphertext.length := by
      rw [hsize, hencoded]
      exact Nat.lt_of_not_le hlimit
    have hreject : Rejects envelopeReader _ :=
      Rejects.bind (Reads.fixed hnonce) (Rejects.bind (Reads.fixed htag)
        (Rejects.bind_left (Rejects.blob hover hbox) _))
    rw [hreject.whole, decide_eq_false hlimit, Bool.and_false]
    rfl

end

end Macha
