import Tide.Format.Writer

/-!
# The muxer

The model of `src/mux/mux.c`. A mux gathers its output in a buffer: the header when it
is created, a record for each stream and each packet, and a footer when it is
closed; only then is the file written. `tide_mux_add_stream` and
`tide_mux_write_packet` differ in the payload they encode, the type of the record and
the text of the error (`Mux.writePayload`).

The outcomes of the reallocations to come are part of the state: those of the output
buffer are in it, and `scratch` holds those of the buffers the calls to come use for
themselves, one after the other. The file is represented by the outcomes of `fopen`,
`fwrite` and `fclose`.
-/

namespace Tide

/-- `tide_mux_options`. -/
structure MuxOptions where
  limits : Limits
  movieTimeBase : Rational
  writeFooter : Bool

/-- `struct tide_mux`. -/
structure Mux where
  buffer : Buffer
  limits : Limits
  movieTimeBase : Rational
  sequence : UInt64
  closed : Bool
  writeFooter : Bool
  error : Error
  scratch : Stream' (Stream' Bool)

/-- `tide_mux_set_error`. -/
def Mux.setError (mux : Mux) (status : Status) (message : String) : Mux :=
  { mux with error := errorSet status .error mux.buffer.data.length 0 0 "mux" message }

/-- The `uuid` of `tide_mux_create`. -/
def muxUuid : Bytes :=
  [0x54, 0x49, 0x44, 0x45, 0x2d, 0x30, 0x30, 0x31, 0x2d, 0x6d, 0x75, 0x78, 0x2d, 0x30, 0x31, 0x00]

/-- The limits the options give, if they give any. -/
def muxLimits : Option MuxOptions → Limits
  | none => limitsDefault
  | some options => if options.limits.maxRecordSize = 0 then limitsDefault else options.limits

/-- The time base the options give, if they give one. -/
def muxTimeBase : Option MuxOptions → Rational
  | none => ⟨1, 1000⟩
  | some options => if options.movieTimeBase.numerator = 0 then ⟨1, 1000⟩ else options.movieTimeBase

/-- Whether the options ask for a footer. -/
def muxWriteFooter : Option MuxOptions → Bool
  | none => true
  | some options => options.writeFooter

/-- `tide_mux_create`, unless the mux itself cannot be allocated; `opened` is the outcome of
`fopen`. -/
def muxCreate (options : Option MuxOptions) (opened : Bool) (allocs : Stream' Bool)
    (scratch : Stream' (Stream' Bool)) : Status × Option Mux :=
  let limits := muxLimits options
  let movieTimeBase := muxTimeBase options
  if !opened then (.io, none)
  else
    match writeHeader (Buffer.empty limits.maxAggregateAlloc.toNat allocs) movieTimeBase
      muxUuid with
    | (.ok, buffer) =>
      (.ok, some
        { buffer := buffer, limits := limits, movieTimeBase := movieTimeBase, sequence := 0,
          closed := false, writeFooter := muxWriteFooter options, error := errorClear, scratch :=
            scratch })
    | (status, _) => (status, none)

/-- Setting the error if the status is not `OK`. -/
def Mux.report (message : String) : Status × Mux → Status × Mux
  | (.ok, mux) => (.ok, mux)
  | (status, mux) => (status, mux.setError status message)

/-- Writing the record of an encoded payload. The sequence number is used up even if the
record cannot be written. -/
def Mux.writeEncoded (mux : Mux) (type : RecordType) : Status × Buffer → Status × Mux
  | (.ok, payload) =>
    let written := writeRecord mux.buffer type.code 0 3 mux.sequence payload.data
    (written.1, { mux with buffer := written.2, sequence := mux.sequence + 1 })
  | (status, _) => (status, mux)

/-- The body of `tide_mux_add_stream` and of `tide_mux_write_packet`: the payload is encoded in
a buffer of its own, and the record is written. -/
def Mux.writePayload (mux : Mux) (type : RecordType) (message : String)
    (encode : Buffer → Status × Buffer) : Status × Mux :=
  if mux.closed then (.invalidArgument, mux)
  else
    let payload := encode (Buffer.empty mux.limits.maxSingleAlloc.toNat mux.scratch.head)
    Mux.report message (Mux.writeEncoded { mux with scratch := mux.scratch.tail } type payload)

/-- `tide_mux_add_stream`. -/
def muxAddStream (mux : Mux) (stream : StreamInfo) : Status × Mux :=
  mux.writePayload .streamDesc "failed to write stream" (encodeStreamPayload · stream)

/-- `tide_mux_write_packet`. -/
def muxWritePacket (mux : Mux) (packet : PacketInfo) : Status × Mux :=
  mux.writePayload .packet "failed to write packet" (encodePacketPayload · packet)

/-- The `payload` of `tide_mux_append_footer` in its second pass. -/
def footerPayload (data : Bytes) (recordSize : ℕ) : Bytes :=
  writeU64 (UInt64.ofNat data.length + UInt64.ofNat recordSize) ++
    (writeU64 0 ++ ([0] ++ digestAdapter32 data))

/-- `tide_mux_append_footer`: the record is written twice to a buffer of its own, first to
learn its size. -/
def muxAppendFooter (mux : Mux) : Status × Mux :=
  let limit := mux.limits.maxSingleAlloc.toNat
  let measured := writeRecord (Buffer.empty limit mux.scratch.head) RecordType.footer.code 0 3
    mux.sequence (List.replicate 49 0)
  let mux := { mux with scratch := mux.scratch.tail }
  if measured.1 ≠ .ok then (measured.1, mux)
  else
    let payload := footerPayload mux.buffer.data measured.2.data.length
    let record := writeRecord (Buffer.empty limit mux.scratch.head) RecordType.footer.code 0 3
      mux.sequence payload
    let mux := { mux with scratch := mux.scratch.tail, sequence := mux.sequence + 1 }
    if record.1 ≠ .ok then (record.1, mux)
    else
      let appended := bufferAppend mux.buffer record.2.data
      (appended.1, { mux with buffer := appended.2 })

/-- The footer, if one is asked for. -/
def Mux.finish (mux : Mux) : Status × Mux :=
  if !mux.closed && mux.writeFooter then muxAppendFooter mux else (.ok, mux)

/-- `tide_mux_close`: the status, and the bytes that are handed to `fwrite`, if any;
`written` and `flushed` are the outcomes of `fwrite` and `fclose`. -/
def muxClose (mux : Mux) (written flushed : Bool) : Status × Option Bytes :=
  match mux.finish with
  | (.ok, mux) =>
    let status : Status := if written then .ok else .io
    (if !flushed && status = .ok then .io else status, some mux.buffer.data)
  | (status, _) => (status, none)

end Tide
