import Tide.Format.Framing
import Tide.Format.Writer

/-!
# Writing a record and framing it

A record that `tide_write_record` appends is framed where it lies, with the fields and the
payload it was given (`framing_roundTrip`).

The other way round, a record that `tide_decode_record_prefix` and
`tide_validate_record_integrity` accept is what the writer makes of its fields and its payload
if and only if its reserved byte is zero (`canonical_iff`): the decoder skips that byte, and
nothing else of a record is left open by its fields.
-/

namespace Tide

/-! ### What a frame holds -/

/-- The payload of a framed record. -/
def RecordFrame.payload (f : RecordFrame) (data : Bytes) : Bytes :=
  slice data f.payloadOffset (f.payloadEnd - f.payloadOffset)

/-- A framed record, from its prefix to its checksum. -/
def RecordFrame.bytes (f : RecordFrame) (data : Bytes) : Bytes :=
  slice data f.offset (f.crcEnd - f.offset)

/-- The record at `offset` is accepted, as the frame `f`. -/
structure Accepts (data : Bytes) (size offset : ℕ) (depth : UInt8) (f : RecordFrame) : Prop where
  within : size ≤ data.length
  sized : size ≤ sizeMax
  framed : decodeRecordPrefix data size offset depth = .frame f
  intact : validateRecordIntegrity data f = .ok ()

/-- The fields of a frame are those of the record that lies there, which ends within the bytes at
hand. -/
theorem frameAt_holds (h : RecordHead) {data payload : Bytes} {offset : ℕ}
    (hfit : h.SizeFits payload.length) (hl : Lies data offset (h.bytes payload)) (depth : UInt8) :
    (h.frameAt offset payload.length depth).payload data = payload ∧
      (h.frameAt offset payload.length depth).bytes data = h.bytes payload ∧
      (h.frameAt offset payload.length depth).payloadSize.toNat = payload.length := by
  refine ⟨?_, ?_, h.toNat_payloadSize hfit⟩
  · have hn : offset + h.headerSize payload.length + payload.length -
        (offset + h.headerSize payload.length) = payload.length := by
      omega
    simp only [RecordFrame.payload, RecordHead.frameAt, hn]
    exact h.lies_payload hl
  · have hn : offset + h.size payload.length - offset = (h.bytes payload).length := by
      rw [h.length_bytes]
      omega
    simp only [RecordFrame.bytes, RecordHead.frameAt, hn]
    exact hl

/-- **What an accepted record is**: the bytes of its fields, of its payload and of some reserved
byte. -/
theorem Accepts.holds {data : Bytes} {size offset : ℕ} {depth : UInt8} {f : RecordFrame}
    (hacc : Accepts data size offset depth f) :
    ∃ reserved : UInt8, f.alignmentLog2 ≤ 4 ∧
      RecordHead.SizeFits ⟨f.type, f.flags, f.alignmentLog2, reserved, f.sequence⟩
        (f.payload data).length ∧
      f.bytes data = RecordHead.bytes ⟨f.type, f.flags, f.alignmentLog2, reserved, f.sequence⟩
        (f.payload data) ∧
      (f.bytes data).length ≤ sizeMax := by
  obtain ⟨h, payload, ha, hfit, hl, hle, rfl⟩ :=
    (framed_iff hacc.within hacc.sized).mp ⟨hacc.framed, hacc.intact⟩
  obtain ⟨hpayload, hbytes, -⟩ := frameAt_holds h hfit hl depth
  have hmax := hacc.sized
  refine ⟨h.reserved, ha, ?_, ?_, ?_⟩
  · rw [hpayload]
    exact hfit
  · rw [hpayload, hbytes]
    rfl
  · rw [hbytes, h.length_bytes]
    omega

/-! ### From the writer to the decoder -/

/-- **Framing round trip**: a record that was appended is framed where it lies, whatever comes
behind it, with the fields and the payload it was given, and it is intact. -/
theorem framing_roundTrip (out : Buffer) (type flags : UInt16) (alignmentLog2 : UInt8)
    (sequence : UInt64) (payload behind : Bytes) (depth : UInt8)
    (hpayload : payload.length ≤ sizeMax)
    (hsize : ((writeRecord out type flags alignmentLog2 sequence payload).2.data ++
      behind).length ≤ sizeMax)
    (hok : (writeRecord out type flags alignmentLog2 sequence payload).1 = .ok) :
    let written := (writeRecord out type flags alignmentLog2 sequence payload).2.data
    let data := written ++ behind
    ∃ f, decodeRecordPrefix data data.length out.data.length depth = .frame f ∧
      f.type = type ∧ f.flags = flags ∧ f.alignmentLog2 = alignmentLog2 ∧ f.sequence = sequence ∧
      f.payloadSize.toNat = payload.length ∧ f.payload data = payload ∧ f.crcEnd = written.length ∧
      validateRecordIntegrity data f = .ok () := by
  intro written data
  have ha : alignmentLog2 ≤ 4 := by
    by_contra hbig
    rw [writeRecord, if_pos (UInt8.not_le.mp hbig)] at hok
    cases hok
  obtain ⟨hfit, hwritten⟩ := writeRecord_ok ha hpayload hok
  generalize hh : (⟨type, flags, alignmentLog2, 0, sequence⟩ : RecordHead) = h at hfit hwritten
  have hdata : data = out.data ++ (h.bytes payload ++ behind) := by
    rw [← List.append_assoc, ← hwritten]
  have hl : Lies data out.data.length (h.bytes payload) := by
    rw [hdata]
    exact lies_mid ..
  have hend : out.data.length + h.size payload.length = written.length := by
    rw [show written = _ from hwritten, List.length_append, h.length_bytes]
  have hle : out.data.length + h.size payload.length ≤ data.length := by
    rw [hend, List.length_append]
    omega
  obtain ⟨hslice, -, hpayloadSize⟩ := frameAt_holds h hfit hl depth
  subst hh
  obtain ⟨hframed, hintact⟩ := (framed_iff (Nat.le_refl _) hsize).mpr ⟨_, payload, ha,
    hfit, hl, hle, rfl⟩
  exact ⟨_, hframed, rfl, rfl, rfl, rfl, hpayloadSize, hslice, hend, hintact⟩

/-- A skippable record with one byte of payload. -/
def sampleRecord : Bytes :=
  [0x00, 0x80, 0x00, 0x00, 0x0a, 0x00, 0x00, 0x00, 0x01, 0x00, 0x04, 0x7e, 0x7c, 0x3e, 0x2c]

/-- It is written as here, and framed with two bytes behind it. -/
theorem sampleRecord_roundTrip :
    ∃ f, decodeRecordPrefix (sampleRecord ++ [1, 2]) 17 0 0 = .frame f ∧
    f.payload (sampleRecord ++ [1, 2]) = [4] ∧ f.crcEnd = 15 ∧
      validateRecordIntegrity (sampleRecord ++ [1, 2]) f = .ok () := by
  have hrun : (writeRecord (Buffer.empty 0 (Stream'.const true)) 0x8000 0 0 0 [4]).1 = .ok ∧
      (writeRecord (Buffer.empty 0 (Stream'.const true)) 0x8000 0 0 0 [4]).2.data = sampleRecord :=
        by decide +kernel
  have htrip := framing_roundTrip (Buffer.empty 0 (Stream'.const true)) 0x8000 0 0 0 [4] [1,
    2] 0 (by decide)
    (by rw [hrun.2]; decide) hrun.1
  dsimp only at htrip
  rw [hrun.2] at htrip
  obtain ⟨f, hframed, -, -, -, -, -, hpayload, hend, hintact⟩ := htrip
  exact ⟨f, hframed, hpayload, hend, hintact⟩

/-! ### From the decoder to the writer -/

/-- The eighth byte of a record is its reserved byte. -/
theorem RecordHead.bytes_getElem?_seven (h : RecordHead) (payload : Bytes) :
    (h.bytes payload)[7]? = some h.reserved := by
  simp only [RecordHead.bytes, RecordHead.body, RecordHead.prefixBytes, List.append_assoc]
  rfl

/-- The eighth byte of an accepted record. -/
theorem Accepts.reserved {data : Bytes} {size offset : ℕ} {depth : UInt8} {f : RecordFrame}
    (hacc : Accepts data size offset depth f) :
    (f.bytes data)[7]? = data[offset + 7]? := by
  obtain ⟨h, payload, -, -, -, -, rfl⟩ := (framed_iff hacc.within hacc.sized).mp ⟨hacc.framed,
    hacc.intact⟩
  have hsize := h.size_ge payload.length
  simp only [RecordFrame.bytes, RecordHead.frameAt, slice]
  rw [List.getElem?_take, if_pos (by omega), List.getElem?_drop]

/-- What the writer makes of the fields and the payload of an accepted record, in an empty buffer
with memory enough: the record with a reserved byte of zero. -/
theorem Accepts.rewritten {data : Bytes} {size offset : ℕ} {depth : UInt8} {f : RecordFrame}
    (hacc : Accepts data size offset depth f) :
    (writeRecord (Buffer.empty 0 (Stream'.const true)) f.type f.flags f.alignmentLog2 f.sequence
      (f.payload data)).1 = .ok ∧
      (writeRecord (Buffer.empty 0 (Stream'.const true)) f.type f.flags f.alignmentLog2 f.sequence
        (f.payload data)).2.data =
        RecordHead.bytes ⟨f.type, f.flags, f.alignmentLog2, 0, f.sequence⟩ (f.payload data) := by
  obtain ⟨reserved, ha, hfit, hbytes, hmax⟩ := hacc.holds
  have hpayload : (f.payload data).length ≤ sizeMax := by
    unfold RecordHead.SizeFits at hfit
    omega
  -- the sizes are those of the record that was accepted
  have hlen : (RecordHead.bytes ⟨f.type, f.flags, f.alignmentLog2, 0, f.sequence⟩
      (f.payload data)).length ≤ sizeMax := by
    rw [hbytes, RecordHead.length_bytes] at hmax
    rw [RecordHead.length_bytes]
    exact hmax
  have hok : (writeRecord (Buffer.empty 0 (Stream'.const true)) f.type f.flags f.alignmentLog2
      f.sequence (f.payload data)).1 = .ok := by
    rw [writeRecord_eq _ f.type f.flags ha f.sequence hpayload hfit]
    refine appendAll_fits rfl ⟨?_, .inl rfl⟩
    rw [flatten_recordPieces]
    exact hlen
  refine ⟨hok, ?_⟩
  rw [(writeRecord_ok ha hpayload hok).2]
  rfl

/-- **When an accepted record is canonical**: the writer makes these bytes of its fields and its
payload if and only if its reserved byte is zero, and of two accepted records with the same fields
and the same payload the bytes are the same if and only if the reserved byte is. -/
theorem canonical_iff {data : Bytes} {size offset : ℕ} {depth : UInt8} {f : RecordFrame}
    (hacc : Accepts data size offset depth f) :
    ((writeRecord (Buffer.empty 0 (Stream'.const true)) f.type f.flags f.alignmentLog2 f.sequence
      (f.payload data)).1 = .ok ∧
        (writeRecord (Buffer.empty 0 (Stream'.const true)) f.type f.flags f.alignmentLog2 f.sequence
          (f.payload data)).2.data =
          f.bytes data ↔
      data[offset + 7]? = some 0) ∧
      ∀ (data' : Bytes) (size' offset' : ℕ) (depth' : UInt8) (f' : RecordFrame),
        Accepts data' size' offset' depth' f' →
        f'.type = f.type → f'.flags = f.flags → f'.alignmentLog2 = f.alignmentLog2 →
          f'.sequence = f.sequence →
        f'.payload data' = f.payload data →
        (f'.bytes data' = f.bytes data ↔ data'[offset' + 7]? = data[offset + 7]?) := by
  obtain ⟨hok, hrewritten⟩ := hacc.rewritten
  obtain ⟨reserved, -, -, hbytes, -⟩ := hacc.holds
  have hseven := hacc.reserved
  rw [hbytes, RecordHead.bytes_getElem?_seven] at hseven
  constructor
  · rw [hrewritten, hbytes, ← hseven, Option.some_inj]
    constructor
    · rintro ⟨-, heq⟩
      have hbyte := congrArg (·[7]?) heq
      simp only [RecordHead.bytes_getElem?_seven, Option.some_inj] at hbyte
      exact hbyte.symm
    · rintro rfl
      exact ⟨hok, rfl⟩
  · intro data' size' offset' depth' f' hacc' htype hflags halignment hsequence hpayload
    obtain ⟨reserved', -, -, hbytes', -⟩ := hacc'.holds
    have hseven' := hacc'.reserved
    rw [hbytes', RecordHead.bytes_getElem?_seven] at hseven'
    rw [htype, hflags, halignment, hsequence, hpayload] at hbytes'
    rw [← hseven, ← hseven', Option.some_inj, hbytes, hbytes']
    constructor
    · intro heq
      have hbyte := congrArg (·[7]?) heq
      simp only [RecordHead.bytes_getElem?_seven, Option.some_inj] at hbyte
      exact hbyte
    · rintro rfl
      rfl

/-- The same record with a reserved byte of one. -/
def sampleReserved : Bytes :=
  [0x00, 0x80, 0x00, 0x00, 0x0a, 0x00, 0x00, 0x01, 0x01, 0x00, 0x04, 0xc6, 0xd6, 0x7b, 0xf1]

/-- The frame of both. -/
def sampleFrame : RecordFrame := ⟨0x8000, 0, 10, 0, 1, 0, 0, 10, 11, 11, 15, 0⟩

theorem sampleRecord_accepted : Accepts sampleRecord 15 0 0 sampleFrame :=
  ⟨by decide, by decide, by decide +kernel, by decide +kernel⟩

theorem sampleReserved_accepted : Accepts sampleReserved 15 0 0 sampleFrame :=
  ⟨by decide, by decide, by decide +kernel, by decide +kernel⟩

/-- The writer makes the one of its fields and its payload. -/
theorem sampleRecord_canonical :
    (writeRecord (Buffer.empty 0 (Stream'.const true)) 0x8000 0 0 0
      (sampleFrame.payload sampleRecord)).1 = .ok ∧
      (writeRecord (Buffer.empty 0 (Stream'.const true)) 0x8000 0 0 0
        (sampleFrame.payload sampleRecord)).2.data =
        sampleFrame.bytes sampleRecord :=
  (canonical_iff sampleRecord_accepted).1.mpr (by decide)

/-- The other is accepted too, as the same record, though the writer does not make it. -/
theorem sampleReserved_not_canonical :
    (¬ ∀ (data : Bytes) (size offset : ℕ) (depth : UInt8) (f : RecordFrame),
      Accepts data size offset depth f →
        (writeRecord (Buffer.empty 0 (Stream'.const true)) f.type f.flags f.alignmentLog2 f.sequence
          (f.payload data)).2.data =
          f.bytes data) ∧
      ¬ ∀ (data data' : Bytes) (size offset : ℕ) (depth : UInt8) (f : RecordFrame),
        Accepts data size offset depth f →
        Accepts data' size offset depth f → f.payload data' = f.payload data →
          f.bytes data' = f.bytes data := by
  constructor
  · intro h
    have hwritten := h sampleReserved 15 0 0 sampleFrame sampleReserved_accepted
    rw [sampleReserved_accepted.rewritten.2] at hwritten
    have hbyte := congrArg (·[7]?) hwritten
    simp only [RecordHead.bytes_getElem?_seven] at hbyte
    revert hbyte
    decide
  · intro h
    have hsame := h sampleRecord sampleReserved 15 0 0 sampleFrame sampleRecord_accepted
      sampleReserved_accepted (by decide)
    revert hsame
    decide

end Tide
