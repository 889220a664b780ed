import Tide.Format.Record

/-!
# The canonical writer

The model of `src/format/writer.c`. `writeRecord` appends a record piece by piece
(prefix, payload, padding, checksum), and each of the four appends may hit the
buffer's limit or fail to allocate. The pieces are those of the record of
`Tide.Format.Record` (`writeRecord_eq`, `flatten_recordPieces`), and the payloads
are built in the same way (`encodeStreamPayload_eq`, `encodePacketPayload_eq`).
-/

namespace Tide

/-- `tide_magic`. -/
def magicBytes : Bytes := [0x54, 0x49, 0x44, 0x45, 0x31, 0x0d, 0x0a, 0x1a]

/-- The header but for its checksum. -/
def headerBody (movieTimeBase : Rational) (uuid : Bytes) : Bytes :=
  magicBytes ++ writeU16 1 ++ writeU16 0 ++ uuid ++ writeU32 movieTimeBase.numerator ++
    writeU32 movieTimeBase.denominator ++ writeU64 0 ++ writeU64 0 ++ writeU64 (64 * 1024 * 1024) ++
      writeU64 0

/-- `tide_write_header`. -/
def writeHeader (out : Buffer) (movieTimeBase : Rational) (uuid : Bytes) : Status × Buffer :=
  if !rationalIsValid movieTimeBase || uuid == List.replicate 16 0 then (.invalidArgument, out)
  else
    let header := headerBody movieTimeBase uuid
    bufferAppend out (header ++ writeU32 (crc32c header))

/-- `tide_write_record`. -/
def writeRecord (out : Buffer) (type flags : UInt16) (alignmentLog2 : UInt8) (sequence : UInt64)
    (payload : Bytes) : Status × Buffer :=
  if alignmentLog2 > 4 then (.invalidArgument, out)
  else
    let payloadSize := UInt64.ofNat payload.length
    let headerSize := 8 + uleb128Size payloadSize + uleb128Size sequence
    if headerSize > 65535 then (.resource, out)
    else
      let recordPrefix := writeU16 type ++ writeU16 flags ++ writeU16 (UInt16.ofNat headerSize) ++
        [alignmentLog2, 0] ++
        writeUleb128 payloadSize ++ writeUleb128 sequence
      match checkedAddU64 (UInt64.ofNat headerSize) payloadSize with
      | none => (.resource, out)
      | some unpaddedSize =>
        match alignU64 unpaddedSize (1 <<< alignmentLog2.toUInt64) with
        | none => (.resource, out)
        | some paddedSize =>
          let paddingSize := (paddedSize - unpaddedSize).toNat
          let crcStart := out.data.length
          andThen (bufferAppend out recordPrefix) fun out =>
          andThen (bufferAppend out payload) fun out =>
          andThen (bufferAppendZero out paddingSize) fun out =>
          bufferAppend out (writeU32 (crc32c (out.data.drop crcStart)))

/-- The fixed part of a stream descriptor, `fixed[24]`. -/
def streamFixed (stream : StreamInfo) : Bytes :=
  writeU32 stream.trackId ++ writeU32 stream.generation ++ writeU16 stream.mediaKind ++
    writeU16 0 ++
    writeU32 stream.codecTag ++ writeU32 stream.timeBase.numerator ++
      writeU32 stream.timeBase.denominator

/-- `tide_encode_stream_payload`. -/
def encodeStreamPayload (out : Buffer) (stream : StreamInfo) : Status × Buffer :=
  if !rationalIsValid stream.timeBase then (.invalidArgument, out)
  else
    andThen (bufferAppend out (streamFixed stream)) fun out =>
    andThen (bufferAppend out (writeUleb128 (UInt64.ofNat stream.config.length))) fun out =>
    bufferAppend out stream.config

/-- The fixed part of a packet, `fixed[TIDE_PACKET_FIXED_SIZE]`. -/
def packetFixed (packet : PacketInfo) : Bytes :=
  writeU32 packet.trackId ++ writeU32 packet.generation ++ writeU64 packet.packetSeq ++
    writeI64 packet.dts ++
    writeI64 packet.pts ++ writeI64 packet.duration ++ writeU32 packet.flags

/-- `tide_encode_packet_payload`. -/
def encodePacketPayload (out : Buffer) (packet : PacketInfo) : Status × Buffer :=
  if packet.duration < 0 then (.invalidArgument, out)
  else
    andThen (bufferAppend out (packetFixed packet)) fun out =>
    andThen (bufferAppend out (writeUleb128 (UInt64.ofNat packet.payload.length))) fun out =>
    bufferAppend out packet.payload

/-! ### What is written -/

/-- The pieces of a record. -/
def recordPieces (h : RecordHead) (payload : Bytes) : List Bytes :=
  [h.prefixBytes payload.length, payload,
    List.replicate (h.paddedSize payload.length - (h.headerSize payload.length + payload.length)) 0,
    writeU32 (crc32c (h.body payload))]

theorem flatten_recordPieces (h : RecordHead) (payload : Bytes) :
    (recordPieces h payload).flatten = h.bytes payload := by
  simp [recordPieces, RecordHead.bytes, RecordHead.body]

/-- The four appends are those of the record's pieces: the checksum is taken of the
bytes appended before it. -/
theorem appends_eq_appendAll (out : Buffer) (h : RecordHead) (payload : Bytes) :
    (andThen (bufferAppend out (h.prefixBytes payload.length)) fun out₁ =>
      andThen (bufferAppend out₁ payload) fun out₂ =>
      andThen (bufferAppendZero out₂ (h.paddedSize payload.length -
        (h.headerSize payload.length + payload.length))) fun out₃ =>
      bufferAppend out₃ (writeU32 (crc32c (out₃.data.drop out.data.length)))) =
    appendAll out (recordPieces h payload) := by
  simp only [recordPieces, appendAll, bufferAppendZero_eq, andThen_pure]
  by_cases h1 : (bufferAppend out (h.prefixBytes payload.length)).1 = .ok
  swap; · rw [andThen_of_ne h1, andThen_of_ne h1]
  have e1 : bufferAppend out (h.prefixBytes payload.length) =
      (.ok, (bufferAppend out (h.prefixBytes payload.length)).2) :=
    Prod.ext h1 rfl
  have d1 := bufferAppend_ok h1
  generalize (bufferAppend out (h.prefixBytes payload.length)).2 = b₁ at e1 d1
  rw [e1, andThen_ok, andThen_ok]
  by_cases h2 : (bufferAppend b₁ payload).1 = .ok
  swap; · rw [andThen_of_ne h2, andThen_of_ne h2]
  have e2 : bufferAppend b₁ payload = (.ok, (bufferAppend b₁ payload).2) := Prod.ext h2 rfl
  have d2 := bufferAppend_ok h2
  generalize (bufferAppend b₁ payload).2 = b₂ at e2 d2
  rw [e2, andThen_ok, andThen_ok]
  generalize hz : List.replicate (h.paddedSize payload.length -
    (h.headerSize payload.length + payload.length)) (0 : UInt8) = zeros
  by_cases h3 : (bufferAppend b₂ zeros).1 = .ok
  swap; · rw [andThen_of_ne h3, andThen_of_ne h3]
  have e3 : bufferAppend b₂ zeros = (.ok, (bufferAppend b₂ zeros).2) := Prod.ext h3 rfl
  have d3 := bufferAppend_ok h3
  generalize (bufferAppend b₂ zeros).2 = b₃ at e3 d3
  have hbody : b₃.data.drop out.data.length = h.body payload := by
    rw [d3, d2, d1, RecordHead.body, hz]
    simp
  rw [e3, andThen_ok, andThen_ok, hbody]

/-- **What `tide_write_record` does**: it appends the pieces of the record, one after
the other, if the sizes do not wrap. -/
theorem writeRecord_eq (out : Buffer) (type flags : UInt16) {alignmentLog2 : UInt8}
    (ha : alignmentLog2 ≤ 4) (sequence : UInt64) {payload : Bytes} (hp : payload.length ≤ sizeMax)
    (hs : RecordHead.SizeFits ⟨type, flags, alignmentLog2, 0, sequence⟩ payload.length) :
    writeRecord out type flags alignmentLog2 sequence payload =
      appendAll out (recordPieces ⟨type, flags, alignmentLog2, 0, sequence⟩ payload) := by
  set h : RecordHead := ⟨type, flags, alignmentLog2, 0, sequence⟩ with hh
  have hsz : sizeMax = 2 ^ 64 - 1 := rfl
  have hb := h.headerSize_bounds payload.length
  have hle := h.le_paddedSize payload.length
  have hpl : (UInt64.ofNat payload.length).toNat = payload.length :=
    UInt64.toNat_ofNat_of_lt' (by change _ < 2 ^ 64; omega)
  have hheader : 8 + uleb128Size (UInt64.ofNat payload.length) + uleb128Size sequence =
      h.headerSize payload.length := by
    rw [uleb128Size_eq, uleb128Size_eq]; rfl
  have hhl : (UInt64.ofNat (h.headerSize payload.length)).toNat = h.headerSize payload.length :=
    UInt64.toNat_ofNat_of_lt' (by change _ < 2 ^ 64; omega)
  unfold RecordHead.SizeFits at hs
  have hun : (UInt64.ofNat (h.headerSize payload.length + payload.length)).toNat =
      h.headerSize payload.length + payload.length :=
    UInt64.toNat_ofNat_of_lt' (by change _ < 2 ^ 64; omega)
  have hadd : checkedAddU64 (UInt64.ofNat (h.headerSize payload.length))
      (UInt64.ofNat payload.length) =
        some (UInt64.ofNat (h.headerSize payload.length + payload.length)) := by
    rw [checkedAddU64_eq_some_iff, hhl, hpl, hun]
  have hpadle : h.paddedSize payload.length ≤ h.headerSize payload.length + payload.length +
      (2 ^ h.alignmentLog2.toNat - 1) :=
    Nat.div_mul_le_self ..
  have hpad : (UInt64.ofNat (h.paddedSize payload.length)).toNat = h.paddedSize payload.length :=
    UInt64.toNat_ofNat_of_lt' (by change _ < 2 ^ 64; omega)
  have halign : alignU64 (UInt64.ofNat (h.headerSize payload.length + payload.length))
      (1 <<< alignmentLog2.toUInt64) = some (UInt64.ofNat (h.paddedSize payload.length)) := by
    rw [alignU64_eq_some_iff _ _ ha, hun, hpad]
    exact ⟨by change _ + (2 ^ h.alignmentLog2.toNat - 1) < _; omega, rfl⟩
  have hsub : (UInt64.ofNat (h.paddedSize payload.length) -
      UInt64.ofNat (h.headerSize payload.length + payload.length)).toNat =
        h.paddedSize payload.length - (h.headerSize payload.length + payload.length) := by
    rw [UInt64.toNat_sub_of_le _ _ (by rw [UInt64.le_iff_toNat_le, hpad, hun]; exact hle),
      hpad, hun]
  rw [writeRecord, if_neg (by simpa using ha)]
  simp only [hheader]
  rw [if_neg (by omega), hadd]
  simp only [halign, hsub]
  exact appends_eq_appendAll out h payload

/-- A record whose sizes would wrap is not begun. -/
theorem writeRecord_wraps (out : Buffer) (type flags : UInt16) {alignmentLog2 : UInt8}
    (ha : alignmentLog2 ≤ 4) (sequence : UInt64) {payload : Bytes} (hp : payload.length ≤ sizeMax)
    (hs : ¬ RecordHead.SizeFits ⟨type, flags, alignmentLog2, 0, sequence⟩ payload.length) :
    writeRecord out type flags alignmentLog2 sequence payload = (.resource, out) := by
  set h : RecordHead := ⟨type, flags, alignmentLog2, 0, sequence⟩ with hh
  have hsz : sizeMax = 2 ^ 64 - 1 := rfl
  have hb := h.headerSize_bounds payload.length
  have hpl : (UInt64.ofNat payload.length).toNat = payload.length :=
    UInt64.toNat_ofNat_of_lt' (by change _ < 2 ^ 64; omega)
  have hheader : 8 + uleb128Size (UInt64.ofNat payload.length) + uleb128Size sequence =
      h.headerSize payload.length := by
    rw [uleb128Size_eq, uleb128Size_eq]; rfl
  have hhl : (UInt64.ofNat (h.headerSize payload.length)).toNat = h.headerSize payload.length :=
    UInt64.toNat_ofNat_of_lt' (by change _ < 2 ^ 64; omega)
  rw [writeRecord, if_neg (by simpa using ha)]
  simp only [hheader]
  rw [if_neg (by omega)]
  cases hadd : checkedAddU64 (UInt64.ofNat (h.headerSize payload.length))
    (UInt64.ofNat payload.length) with
  | none => rfl
  | some unpadded =>
    rw [checkedAddU64_eq_some_iff, hhl, hpl] at hadd
    have halign : alignU64 unpadded (1 <<< alignmentLog2.toUInt64) = none := by
      cases hal : alignU64 unpadded (1 <<< alignmentLog2.toUInt64) with
      | none => rfl
      | some padded =>
        rw [alignU64_eq_some_iff _ _ ha] at hal
        refine absurd ?_ hs
        have hlt := hal.1
        unfold RecordHead.SizeFits
        change h.headerSize payload.length + payload.length + (2 ^ alignmentLog2.toNat - 1) ≤
          sizeMax
        omega
    simp only [halign]

/-- A record that could be written is there. -/
theorem writeRecord_ok {out : Buffer} {type flags : UInt16} {alignmentLog2 : UInt8}
    (ha : alignmentLog2 ≤ 4) {sequence : UInt64} {payload : Bytes} (hp : payload.length ≤ sizeMax)
    (h : (writeRecord out type flags alignmentLog2 sequence payload).1 = .ok) :
    RecordHead.SizeFits ⟨type, flags, alignmentLog2, 0, sequence⟩ payload.length ∧
      (writeRecord out type flags alignmentLog2 sequence payload).2.data =
        out.data ++ RecordHead.bytes ⟨type, flags, alignmentLog2, 0, sequence⟩ payload := by
  by_cases hs : RecordHead.SizeFits ⟨type, flags, alignmentLog2, 0, sequence⟩ payload.length
  · rw [writeRecord_eq out type flags ha sequence hp hs] at h ⊢
    rw [(appendAll_ok h).1, flatten_recordPieces]
    exact ⟨hs, rfl⟩
  · rw [writeRecord_wraps out type flags ha sequence hp hs] at h
    cases h

/-- Writing a record keeps a buffer within its bounds. -/
theorem writeRecord_bounded {out : Buffer} (hb : out.Bounded) (type flags : UInt16)
    {alignmentLog2 : UInt8} (ha : alignmentLog2 ≤ 4) (sequence : UInt64) {payload : Bytes}
    (hp : payload.length ≤ sizeMax) :
    (writeRecord out type flags alignmentLog2 sequence payload).2.Bounded := by
  by_cases hs : RecordHead.SizeFits ⟨type, flags, alignmentLog2, 0, sequence⟩ payload.length
  · rw [writeRecord_eq out type flags ha sequence hp hs]
    exact appendAll_bounded hb _
  · rw [writeRecord_wraps out type flags ha sequence hp hs]
    exact hb

/-- What `tide_encode_stream_payload` writes. -/
def StreamInfo.bytes (stream : StreamInfo) : Bytes :=
  streamFixed stream ++ (writeUleb128 (UInt64.ofNat stream.config.length) ++ stream.config)

/-- What `tide_encode_packet_payload` writes. -/
def PacketInfo.bytes (packet : PacketInfo) : Bytes :=
  packetFixed packet ++ (writeUleb128 (UInt64.ofNat packet.payload.length) ++ packet.payload)

theorem encodeStreamPayload_eq (out : Buffer) (stream : StreamInfo) :
    encodeStreamPayload out stream =
      if rationalIsValid stream.timeBase then
        appendAll out [streamFixed stream, writeUleb128 (UInt64.ofNat stream.config.length),
          stream.config]
      else (.invalidArgument, out) := by
  unfold encodeStreamPayload
  cases rationalIsValid stream.timeBase <;> simp [appendAll]

theorem encodePacketPayload_eq (out : Buffer) (packet : PacketInfo) :
    encodePacketPayload out packet =
      if packet.duration < 0 then (.invalidArgument, out)
      else
        appendAll out [packetFixed packet, writeUleb128 (UInt64.ofNat packet.payload.length),
          packet.payload] := by
  unfold encodePacketPayload
  simp [appendAll]

end Tide
