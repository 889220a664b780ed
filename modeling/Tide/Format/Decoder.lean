import Tide.Theory.Resumable
import Tide.Format.Header
import Tide.Format.Payload

/-!
# The decoder

The model of the rest of `src/format/decoder.c`: the loop of `tide_parse_records`
with the recursion into groups, `tide_parse_tide_bytes`, which has all the bytes,
and `tide_decoder_feed`, which gets them piece by piece.

`tide_callbacks` are functions on the state behind `user`, a null pointer being a
callback that is not there. The functions that parse records are given the
decoder, an error and a valid prefix; `Parsing` holds the fields of the decoder
that they use together with these two. A round of the loop answers with a `Move`:
it needs more bytes, it stops with a status, or it goes on behind the record.
-/

namespace Tide

open Theory

variable {σ : Type}

/-- `tide_callbacks`, for a user whose state is a `σ`. -/
structure Callbacks (σ : Type) where
  onRecord : Option (σ → RecordEvent → Status × σ)
  onStream : Option (σ → StreamInfo → Status × σ)
  onPacket : Option (σ → PacketInfo → Status × σ)
  onError : Option (σ → Error → σ)

/-- A null pointer for the callbacks. -/
def Callbacks.null : Callbacks σ := ⟨none, none, none, none⟩

/-- The callback an event is for, if it is there. -/
def Callbacks.call (callbacks : Callbacks σ) (user : σ) : Event → Status × σ
  | .record event => match callbacks.onRecord with | none => (.ok, user) | some f => f user event
  | .stream stream => match callbacks.onStream with | none => (.ok, user) | some f => f user stream
  | .packet packet => match callbacks.onPacket with | none => (.ok, user) | some f => f user packet

/-- What the functions that parse records work on: fields of `tide_decoder_impl`, and
the error and the valid prefix they are handed. `allocs` are the outcomes of the
reallocations of the track table to come. -/
structure Parsing (σ : Type) where
  limits : Limits
  callbacks : Callbacks σ
  user : σ
  tracks : List TrackSnapshot
  trackCapacity : ℕ
  allocs : Stream' Bool
  error : Error
  validPrefix : ℕ

/-- Setting the error and returning its status. -/
def Parsing.fail (p : Parsing σ) (e : Error) : Status × Parsing σ := (e.code, { p with error := e })

/-- Calling back. -/
def Parsing.notify (p : Parsing σ) (event : Event) : Status × Parsing σ :=
  ((p.callbacks.call p.user event).1, { p with user := (p.callbacks.call p.user event).2 })

/-! ### Records -/

/-- `tide_add_track`. -/
def addTrack (p : Parsing σ) (stream : StreamInfo) (offset : ℕ) : Status × Parsing σ :=
  if (findTrack p.tracks stream.trackId stream.generation).isSome then
    p.fail (parseError .format offset RecordType.streamDesc.code 0 "duplicate stream generation")
  else if p.tracks.length ≥ p.limits.maxTracks.toNat then
    p.fail (parseError .resource offset RecordType.streamDesc.code 0 "track limit exceeded")
  else if p.tracks.length = p.trackCapacity then
    -- a failed reallocation sets no error
    if p.allocs.head then
      let next := if p.trackCapacity = 0 then 8 else p.trackCapacity * 2
      (.ok, { p with tracks := p.tracks ++ [stream.snapshot], trackCapacity := next,
                     allocs := p.allocs.tail })
    else (.resource, { p with allocs := p.allocs.tail })
  else (.ok, { p with tracks := p.tracks ++ [stream.snapshot] })

/-- `tide_emit_stream`. -/
def emitStream (p : Parsing σ) (payload : Bytes) (frame : RecordFrame) : Status × Parsing σ :=
  match wholePayload readStream payload with
  | none => p.fail (frameError frame .format "bad stream descriptor")
  | some stream =>
    if !rationalIsValid stream.timeBase then
      p.fail (frameError frame .timeline "invalid stream time base")
    else
      match addTrack p stream frame.offset with
      | (.ok, p) => p.notify (.stream stream)
      | (_, p) => (p.error.code, p)

/-- `tide_emit_packet`. -/
def emitPacket (p : Parsing σ) (payload : Bytes) (frame : RecordFrame) : Status × Parsing σ :=
  match wholePayload readPacket payload with
  | none => p.fail (frameError frame .format "bad packet")
  | some packet =>
    if packet.duration < 0 then p.fail (frameError frame .timeline "negative packet duration")
    else if (findTrack p.tracks packet.trackId packet.generation).isNone then
      p.fail (frameError frame .format "packet before descriptor")
    else p.notify (.packet packet)

/-- The reads of a group's metadata: `child_bytes`. -/
def readGroup : Reads UInt8 UInt64 := do
  let _groupKind ← readerReadU16
  readerSkip 2
  let childBytes ← readerReadU64
  let _groupSequence ← readerReadU64
  return childBytes

/-- `tide_parse_records`, as the function that parses a group calls it: the first byte,
the end and the depth of the records. -/
abbrev ParseRecords (σ : Type) := ℕ → ℕ → UInt8 → Parsing σ → Status × Parsing σ

/-- `case TIDE_RECORD_GROUP` of `tide_process_record`. -/
def processGroup (parse : ParseRecords σ) (payload : Bytes) (frame : RecordFrame)
    (p : Parsing σ) : Status × Parsing σ :=
  if frame.payloadEnd - frame.payloadOffset < 20 then
    p.fail (frameError frame .format "short group")
  else
    match readGroup.run (readerInit payload) with
    | none => p.fail (frameError frame .format "bad group child length")
    | some (childBytes, _) =>
      if childBytes.toNat ≠ frame.payloadEnd - frame.payloadOffset - 20 then
        p.fail (frameError frame .format "bad group child length")
      else if frame.depth.toNat ≥ p.limits.maxDepth.toNat then
        p.fail (parseError .resource frame.offset frame.type frame.depth "group depth limit")
      else
        let childBegin := frame.payloadOffset + 20
        match parse childBegin frame.payloadEnd (frame.depth + 1) p with
        | (.truncated, p) =>
          p.fail (parseError .format childBegin frame.type frame.depth
            "complete group contains incomplete child")
        | r => r

/-- `tide_process_record`. -/
def processRecord (parse : ParseRecords σ) (data : Bytes) (frame : RecordFrame)
    (p : Parsing σ) : Status × Parsing σ :=
  let payload := slice data frame.payloadOffset (frame.payloadEnd - frame.payloadOffset)
  if skippable frame.type then p.notify (.record frame.event)
  else
    andThen (p.notify (.record frame.event)) fun p =>
    match recordTypeOf frame.type with
    | some .group => processGroup parse payload frame p
    | some .streamDesc => emitStream p payload frame
    | some .packet => emitPacket p payload frame
    | some _ =>
      match emitSimpleRecord p.limits p.tracks frame data payload with
      | .ok () => (.ok, p)
      | .error e => p.fail e
    | none =>
        p.fail (parseError .unsupported frame.offset frame.type frame.depth
          "unknown required record")

/-- A round of the loop of `tide_parse_records`. -/
def recordStep (parse : ParseRecords σ) (data : Bytes) (size cursor : ℕ) (depth : UInt8)
    (p : Parsing σ) : Move (Parsing σ) (Status × Parsing σ) :=
  match decodeRecordPrefix data size cursor depth with
  | .truncated => .more
  | .rejected e => .stop (p.fail e)
  | .frame frame =>
    if frame.payloadSize > p.limits.maxPayloadSize ∨
        frame.crcEnd - frame.offset > p.limits.maxRecordSize.toNat then
      .stop (p.fail (parseError .resource cursor frame.type depth "record exceeds limit"))
    else
      match validateRecordIntegrity data frame with
      | .error e => .stop (p.fail e)
      | .ok () =>
        match processRecord parse data frame p with
        | (.ok, p) => .go frame.crcEnd { p with validPrefix := frame.crcEnd }
        | r => .stop r

/-- The loop of `tide_parse_records`. Each round and each group takes one of the fuel, and
a record is not empty, so that it is not used up (`parseRecords_eq`). -/
def parseRecordsFuel : ℕ → Bytes → ParseRecords σ
  | 0, _, _, _, _, p => (.internal, p)
  | fuel + 1, data, cursor, size, depth, p =>
    if cursor < size then
      match recordStep (parseRecordsFuel fuel data) data size cursor depth p with
      | .more => (.truncated, { p with validPrefix := cursor })
      | .stop r => r
      | .go next p => parseRecordsFuel fuel data next size depth p
    else if cursor ≠ size then p.fail (parseError .format cursor 0 depth "record boundary mismatch")
    else (.ok, p)

/-- `tide_parse_records`. -/
def parseRecords (data : Bytes) : ParseRecords σ := fun cursor size depth p =>
  parseRecordsFuel (size - cursor + 1) data cursor size depth p

/-- `memset(&impl, 0, sizeof(impl))` with the limits, the callbacks and the user, and a
cleared error. -/
def Parsing.start (limits : Option Limits) (callbacks : Callbacks σ) (user : σ)
    (allocs : Stream' Bool) : Parsing σ where
  limits := limits.getD limitsDefault
  callbacks := callbacks
  user := user
  tracks := []
  trackCapacity := 0
  allocs := allocs
  error := errorClear
  validPrefix := 0

/-- At the end of the bytes, `TRUNCATED` is `PARTIAL`. -/
def atEnd (finish : Bool) (status : Status) : Status :=
  if status = .truncated ∧ finish then .partialTail else status

/-- `tide_parse_tide_bytes`: the status, and the error and the valid prefix in the state
it leaves. -/
def parseTideBytes (data : Bytes) (finish : Bool) (limits : Option Limits) (callbacks : Callbacks σ)
    (user : σ) (allocs : Stream' Bool) : Status × Parsing σ :=
  let p := Parsing.start limits callbacks user allocs
  match validateHeader data p.limits with
  | .error e => (atEnd finish e.code, { p with error := e })
  | .ok () =>
    let r := parseRecords data 72 data.length 0 { p with validPrefix := 72 }
    (atEnd finish r.1, r.2)

/-! ### Feeding -/

/-- `tide_decoder_impl`. -/
structure Decoder (σ : Type) extends Parsing σ where
  buffer : Buffer
  parseOffset : ℕ
  cancelled : Bool
  terminal : Bool
  headerValidated : Bool

/-- `tide_decoder_init`, unless the decoder itself cannot be allocated. -/
def decoderInit (limits : Option Limits) (callbacks : Callbacks σ) (user : σ)
    (allocs bufferAllocs : Stream' Bool) : Decoder σ where
  toParsing := Parsing.start limits callbacks user allocs
  buffer := Buffer.empty (limits.getD limitsDefault).maxAggregateAlloc.toNat bufferAllocs
  parseOffset := 0
  cancelled := false
  terminal := false
  headerValidated := false

/-- Calling `on_error`, if it is there. -/
def Decoder.notifyError (d : Decoder σ) : Decoder σ :=
  match d.callbacks.onError with
  | none => d
  | some f => { d with user := f d.user d.error }

/-- The header, if it is not validated yet. -/
def Decoder.acceptHeader (d : Decoder σ) : Except Error (Decoder σ) :=
  if d.headerValidated then .ok d
  else
    match validateHeader d.buffer.data d.limits with
    | .error e => .error e
    | .ok () => .ok { d with headerValidated := true, parseOffset := 72, validPrefix := 72 }

/-- The records behind `parse_offset`, when more is to come: an incomplete one is waited
for. -/
def Decoder.parseMore (d : Decoder σ) : Status × Decoder σ :=
  match parseRecords d.buffer.data d.parseOffset d.buffer.data.length 0 d.toParsing with
  | (.truncated, p) => (.ok, { d with toParsing := p, parseOffset := p.validPrefix })
  | (.ok, p) => (.ok, { d with toParsing := p, parseOffset := d.buffer.data.length })
  | (status, p) => (status, { Decoder.notifyError { d with toParsing := p } with terminal := true })

/-- `tide_decoder_feed` behind the append, when more is to come. -/
def feedMore (d : Decoder σ) : Status × Decoder σ :=
  if !d.headerValidated && d.buffer.data.length < 72 then (.ok, d)
  else
    match d.acceptHeader with
    | .error e => (e.code, { Decoder.notifyError { d with error := e } with terminal := true })
    | .ok d => d.parseMore

/-- The records behind `parse_offset`, at the end. -/
def Decoder.parseEnd (d : Decoder σ) : Status × Decoder σ :=
  match parseRecords d.buffer.data d.parseOffset d.buffer.data.length 0 d.toParsing with
  | (.truncated, p) => (.partialTail, { d with toParsing := p, terminal := true })
  | (.partialTail, p) => (.partialTail, { d with toParsing := p, terminal := true })
  | (.ok, p) =>
      (.ok, { d with toParsing := p, parseOffset := d.buffer.data.length, terminal := true })
  | (status, p) => (status, { Decoder.notifyError { d with toParsing := p } with terminal := true })

/-- `tide_decoder_feed` behind the append, at the end. -/
def feedEnd (d : Decoder σ) : Status × Decoder σ :=
  match d.acceptHeader with
  | .error e =>
    (if e.code = .truncated then .partialTail else e.code, { d with error := e, terminal := true })
  | .ok d => d.parseEnd

/-- What `tide_decoder_feed` returns, with `consumed`. -/
structure Fed (σ : Type) where
  status : Status
  consumed : ℕ
  decoder : Decoder σ

/-- `tide_decoder_feed`. -/
def decoderFeed (d : Decoder σ) (data : Bytes) (finish : Bool) : Fed σ :=
  if d.cancelled then ⟨.cancelled, 0, d⟩
  else if d.terminal then ⟨.invalidArgument, 0, d⟩
  else
    match bufferAppend d.buffer data with
    | (.ok, b) =>
      let r := if finish then feedEnd { d with buffer := b } else feedMore { d with buffer := b }
      ⟨r.1, data.length, r.2⟩
    | (status, b) => ⟨status, 0, { d with buffer := b }⟩

/-- `tide_decoder_cancel`. -/
def decoderCancel (d : Decoder σ) : Decoder σ := { d with cancelled := true }

end Tide
