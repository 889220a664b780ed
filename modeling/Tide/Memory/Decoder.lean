import Tide.Format.File
import Tide.Format.Session
import Tide.Memory.Payload

/-!
# The decoder on pointers

The rest of `src/format/decoder.c` at the level of its pointers. The loop over records asserts
for each record that its parts are in order and that it takes 14 bytes or more
(`RecordFrame.Ordered`), and for each group that the range of its children is within the
record and smaller. Where the source sets "record boundary mismatch", the computation is
stuck.

`parseRecords_run`, `parseTideBytes_run` and `decoderFeed_run` say that the computations are not
stuck, whatever the bytes, the limits and the callbacks, and that they return what
`Tide.Format.Decoder` says: all loads are within the buffer, all assertions hold and all loops
end.
-/

namespace Tide.Memory

open Theory

variable {σ : Type}

/-! ### Records -/

/-- `tide_emit_stream`. -/
def emitStream (p : Parsing σ) (payload payloadSize : UInt64) (frame : RecordFrame) :
    Loads UInt8 (Status × Parsing σ) := do
  match ← wholePayload readStream payload payloadSize with
  | none => return p.fail (frameError frame .format "bad stream descriptor")
  | some stream =>
    if !rationalIsValid stream.timeBase then
      return p.fail (frameError frame .timeline "invalid stream time base")
    else
      match addTrack p stream frame.offset.toNat with
      | (.ok, p) => return p.notify (.stream stream)
      | (_, p) => return (p.error.code, p)

/-- `tide_emit_packet`. -/
def emitPacket (p : Parsing σ) (payload payloadSize : UInt64) (frame : RecordFrame) :
    Loads UInt8 (Status × Parsing σ) := do
  match ← wholePayload readPacket payload payloadSize with
  | none => return p.fail (frameError frame .format "bad packet")
  | some packet =>
    if packet.duration < 0 then
      return p.fail (frameError frame .timeline "negative packet duration")
    else if (findTrack p.tracks packet.trackId packet.generation).isNone then
      return p.fail (frameError frame .format "packet before descriptor")
    else return p.notify (.packet packet)

/-- The reads of a group's metadata: `child_bytes`. -/
def readGroup : Scans UInt8 UInt64 := do
  let _groupKind ← readerReadU16
  readerSkip 2
  let childBytes ← readerReadU64
  let _groupSequence ← readerReadU64
  return childBytes

/-- `tide_parse_records`, as the function that parses a group calls it. -/
abbrev ParseRecords (σ : Type) := UInt64 → UInt64 → UInt8 → Parsing σ →
    Loads UInt8 (Status × Parsing σ)

/-- `case TIDE_RECORD_GROUP` of `tide_process_record`. -/
def processGroup (parse : ParseRecords σ) (payload payloadSize : UInt64) (frame : RecordFrame)
    (p : Parsing σ) : Loads UInt8 (Status × Parsing σ) :=
  if payloadSize < 20 then return p.fail (frameError frame .format "short group")
  else do
    match ← (readGroup.run (readerInit payload payloadSize)).run with
    | none => return p.fail (frameError frame .format "bad group child length")
    | some (childBytes, _) =>
      if childBytes ≠ payloadSize - 20 then
        return p.fail (frameError frame .format "bad group child length")
      else if frame.depth.toNat ≥ p.limits.maxDepth.toNat then
        return p.fail (parseError .resource frame.offset.toNat frame.type frame.depth
          "group depth limit")
      else do
        let childBegin := frame.payloadOffset + 20
        let childEnd := frame.payloadEnd
        -- the range of the children is smaller
        assert (frame.offset < childBegin ∧ childBegin ≤ childEnd ∧ childEnd < frame.crcEnd)
        match ← parse childBegin childEnd (frame.depth + 1) p with
        | (.truncated, p) =>
          return p.fail (parseError .format childBegin.toNat frame.type frame.depth
            "complete group contains incomplete child")
        | r => return r

/-- `tide_process_record`. -/
def processRecord (parse : ParseRecords σ) (frame : RecordFrame) (p : Parsing σ) :
    Loads UInt8 (Status × Parsing σ) :=
  let payload := frame.payloadOffset
  let payloadSize := frame.payloadEnd - frame.payloadOffset
  if skippable frame.type then return p.notify (.record frame.values.event)
  else
    match p.notify (.record frame.values.event) with
    | (.ok, p) =>
      match recordTypeOf frame.type with
      | some .group => processGroup parse payload payloadSize frame p
      | some .streamDesc => emitStream p payload payloadSize frame
      | some .packet => emitPacket p payload payloadSize frame
      | some _ => do
        match ← emitSimpleRecord p.limits p.tracks frame payload payloadSize with
        | .ok () => return (.ok, p)
        | .error e => return p.fail e
      | none =>
          return p.fail (parseError .unsupported frame.offset.toNat frame.type frame.depth
            "unknown required record")
    | r => return r

instance (frame : RecordFrame) (cursor size : UInt64) : Decidable (frame.Ordered cursor size) :=
  decidable_of_iff (frame.offset = cursor ∧ frame.offset < frame.payloadOffset ∧
    frame.payloadOffset ≤ frame.payloadEnd ∧
      frame.payloadEnd ≤ frame.paddingEnd ∧ frame.crcEnd ≤ size ∧
      frame.offset.toNat + frame.headerSize.toNat = frame.payloadOffset.toNat ∧
      frame.payloadOffset.toNat + frame.payloadSize.toNat = frame.payloadEnd.toNat ∧
      frame.paddingEnd.toNat + 4 = frame.crcEnd.toNat ∧ cursor.toNat + 14 ≤ frame.crcEnd.toNat)
    ⟨fun ⟨h1, h2, h3, h4, h5, h6, h7, h8, h9⟩ => ⟨h1, h2, h3, h4, h5, h6, h7, h8, h9⟩,
      fun h => ⟨h.offset, h.offset_lt, h.payloadOffset_le, h.payloadEnd_le, h.crcEnd_le,
        h.headerSize, h.payloadSize, h.crcEnd, h.advances⟩⟩

/-- The loop of `tide_parse_records`. Each round and each group takes one of the fuel, without
which it is stuck. -/
def parseRecordsFuel : ℕ → ParseRecords σ
  | 0, _, _, _, _ => stuck
  | fuel + 1, cursor, size, depth, p =>
    if cursor < size then do
      match ← decodeRecordPrefix size cursor depth with
      | .truncated => return (.truncated, { p with validPrefix := cursor.toNat })
      | .rejected e => return p.fail e
      | .frame frame =>
        assert (frame.Ordered cursor size)
        if frame.payloadSize > p.limits.maxPayloadSize ∨
            frame.crcEnd - frame.offset > p.limits.maxRecordSize then
          return p.fail (parseError .resource cursor.toNat frame.type depth "record exceeds limit")
        else
          match ← validateRecordIntegrity frame with
          | .error e => return p.fail e
          | .ok () =>
            match ← processRecord (parseRecordsFuel fuel) frame p with
            | (.ok, p) =>
                parseRecordsFuel fuel frame.crcEnd size depth
                  { p with validPrefix := frame.crcEnd.toNat }
            | r => return r
    -- "record boundary mismatch"
    else if cursor ≠ size then stuck
    else return (.ok, p)

/-- `tide_parse_records`, with fuel for as many rounds as there are bytes, and one more. -/
def parseRecords : ParseRecords σ := fun cursor size depth p =>
  parseRecordsFuel (size.toNat - cursor.toNat + 1) cursor size depth p

/-- `tide_parse_tide_bytes`. -/
def parseTideBytes (size : UInt64) (finish : Bool) (limits : Option Limits)
    (callbacks : Callbacks σ) (user : σ) (allocs : Stream' Bool) :
    Loads UInt8 (Status × Parsing σ) := do
  let p := Parsing.start limits callbacks user allocs
  match ← validateHeader size p.limits with
  | .error e => return (atEnd finish e.code, { p with error := e })
  | .ok () =>
    let r ← parseRecords 72 size 0 { p with validPrefix := 72 }
    return (atEnd finish r.1, r.2)

/-! ### Feeding -/

/-- The header, if it is not validated yet. -/
def acceptHeader (d : Decoder σ) : Loads UInt8 (Except Error (Decoder σ)) :=
  if d.headerValidated then return .ok d
  else do
    match ← validateHeader (UInt64.ofNat d.buffer.data.length) d.limits with
    | .error e => return .error e
    | .ok () => return .ok { d with headerValidated := true, parseOffset := 72, validPrefix := 72 }

/-- `tide_parse_records` on what is buffered. -/
def parseBuffered (d : Decoder σ) : Loads UInt8 (Status × Parsing σ) :=
  parseRecords (UInt64.ofNat d.parseOffset) (UInt64.ofNat d.buffer.data.length) 0 d.toParsing

/-- The records behind `parse_offset`, when more is to come. -/
def parseMore (d : Decoder σ) : Loads UInt8 (Status × Decoder σ) := do
  match ← parseBuffered d with
  | (.truncated, p) => return (.ok, { d with toParsing := p, parseOffset := p.validPrefix })
  | (.ok, p) => return (.ok, { d with toParsing := p, parseOffset := d.buffer.data.length })
  | (status, p) =>
      return (status, { Decoder.notifyError { d with toParsing := p } with terminal := true })

/-- `tide_decoder_feed` behind the append, when more is to come. -/
def feedMore (d : Decoder σ) : Loads UInt8 (Status × Decoder σ) :=
  if !d.headerValidated && d.buffer.data.length < 72 then return (.ok, d)
  else do
    match ← acceptHeader d with
    | .error e =>
        return (e.code, { Decoder.notifyError { d with error := e } with terminal := true })
    | .ok d => parseMore d

/-- The records behind `parse_offset`, at the end. -/
def parseEnd (d : Decoder σ) : Loads UInt8 (Status × Decoder σ) := do
  match ← parseBuffered d with
  | (.truncated, p) => return (.partialTail, { d with toParsing := p, terminal := true })
  | (.partialTail, p) => return (.partialTail, { d with toParsing := p, terminal := true })
  | (.ok, p) =>
      return (.ok, { d with toParsing := p, parseOffset := d.buffer.data.length, terminal := true })
  | (status, p) =>
      return (status, { Decoder.notifyError { d with toParsing := p } with terminal := true })

/-- `tide_decoder_feed` behind the append, at the end. -/
def feedEnd (d : Decoder σ) : Loads UInt8 (Status × Decoder σ) := do
  match ← acceptHeader d with
  | .error e =>
    return (if e.code = .truncated then .partialTail else e.code,
      { d with error := e, terminal := true })
  | .ok d => parseEnd d

/-- `tide_decoder_feed`: the buffer with the piece appended is the memory. -/
def decoderFeed (d : Decoder σ) (data : Bytes) (finish : Bool) : Option (Fed σ) :=
  if d.cancelled then some ⟨.cancelled, 0, d⟩
  else if d.terminal then some ⟨.invalidArgument, 0, d⟩
  else
    match bufferAppend d.buffer data with
    | (.ok, b) => do
      let r ← (if finish then feedEnd { d with buffer := b }
        else feedMore { d with buffer := b }).run b.data
      return ⟨r.1, data.length, r.2⟩
    | (status, b) => some ⟨status, 0, { d with buffer := b }⟩

/-! ### Records are parsed as on lists -/

section

variable {m : Bytes}

theorem emitStream_run (hm : m.length < 2 ^ 64) {payload size : UInt64}
    (h : payload.toNat + size.toNat ≤ m.length) (p : Parsing σ) (frame : RecordFrame) :
    (emitStream p payload size frame).run m =
      some (Tide.emitStream p (slice m payload.toNat size.toNat) frame.values) := by
  unfold emitStream Tide.emitStream
  rw [run_bind_of_some (wholePayload_run refines_stream hm h)]
  cases Tide.wholePayload Tide.readStream (slice m payload.toNat size.toNat) with
  | none => rfl
  | some stream =>
    have hoffset : frame.values.offset = frame.offset.toNat := rfl
    dsimp only
    rw [hoffset]
    split_ifs
    · rfl
    · rcases addTrack p stream frame.offset.toNat with ⟨status, p'⟩
      cases status <;> rfl

theorem emitPacket_run (hm : m.length < 2 ^ 64) {payload size : UInt64}
    (h : payload.toNat + size.toNat ≤ m.length) (p : Parsing σ) (frame : RecordFrame) :
    (emitPacket p payload size frame).run m =
      some (Tide.emitPacket p (slice m payload.toNat size.toNat) frame.values) := by
  unfold emitPacket Tide.emitPacket
  rw [run_bind_of_some (wholePayload_run refines_packet hm h)]
  cases Tide.wholePayload Tide.readPacket (slice m payload.toNat size.toNat) with
  | none => rfl
  | some packet =>
    dsimp only
    split_ifs <;> rfl

theorem refines_group : Refines 0 readGroup Tide.readGroup :=
  Refines.mono (refines_u16.bind fun _ => (refines_skip 2).bind fun _ => refines_u64.bind fun _ =>
    refines_u64.bind fun _ =>
    refines_pure _) (Nat.zero_le _)

variable {parse : ParseRecords σ} {parse' : Tide.ParseRecords σ} {frame : RecordFrame}
    {cursor size : UInt64}

/-- **The range of a group's children** is within the record and smaller. -/
theorem processGroup_run (hm : m.length < 2 ^ 64) (hsize : size.toNat ≤ m.length)
    (ho : frame.Ordered cursor size)
    (hparse : ∀ b e depth p, cursor < b → b ≤ e → e ≤ size →
      (parse b e depth p).run m = some (parse' b.toNat e.toNat depth p))
    (p : Parsing σ) :
    (processGroup parse frame.payloadOffset (frame.payloadEnd - frame.payloadOffset)
      frame p).run m =
      some (Tide.processGroup parse' (slice m frame.payloadOffset.toNat (frame.payloadEnd.toNat -
        frame.payloadOffset.toNat))
        frame.values p) := by
  have hcrc := ho.crcEnd
  have hle := UInt64.le_iff_toNat_le.mp ho.crcEnd_le
  have hpad := UInt64.le_iff_toNat_le.mp ho.payloadEnd_le
  have hpay := UInt64.le_iff_toNat_le.mp ho.payloadOffset_le
  have hoff := UInt64.lt_iff_toNat_lt.mp ho.offset_lt
  have hsub := UInt64.toNat_sub_of_le _ _ ho.payloadOffset_le
  have hend : frame.payloadEnd.toNat < m.length := by omega
  have hread := read_init refines_group hm frame.payloadOffset (frame.payloadEnd -
    frame.payloadOffset) (by omega)
  rw [hsub] at hread
  have hshort : frame.payloadEnd - frame.payloadOffset < 20 ↔
      frame.values.payloadEnd - frame.values.payloadOffset < 20 := by
    rw [UInt64.lt_iff_toNat_lt, hsub]
    rfl
  unfold processGroup Tide.processGroup
  by_cases h20 : frame.values.payloadEnd - frame.values.payloadOffset < 20
  · rw [if_pos h20, if_pos (hshort.mpr h20)]
    rfl
  rw [if_neg h20, if_neg (fun h => h20 (hshort.mp h))]
  cases hq : Tide.readGroup.run
      (Tide.readerInit (slice m frame.payloadOffset.toNat (frame.payloadEnd.toNat -
        frame.payloadOffset.toNat))) with
  | none =>
    rw [hq] at hread
    rw [run_bind_of_some hread.eq_of_none]
    rfl
  | some x =>
    obtain ⟨childBytes, reader⟩ := x
    rw [hq] at hread
    obtain ⟨w, hw, -, -⟩ := hread.eq_of_some
    rw [run_bind_of_some hw]
    dsimp only
    have hge : 20 ≤ (frame.payloadEnd - frame.payloadOffset).toNat := by
      rw [hsub]
      exact Nat.not_lt.mp h20
    have hrest := UInt64.toNat_sub_of_le _ _ (UInt64.le_iff_toNat_le.mpr (show (20 : UInt64).toNat ≤
      _ from hge))
    have hbytes : childBytes ≠ frame.payloadEnd - frame.payloadOffset - 20 ↔
        childBytes.toNat ≠ frame.values.payloadEnd - frame.values.payloadOffset - 20 := by
      rw [ne_eq, ne_eq, ← UInt64.toNat_inj, hrest, hsub]
      rfl
    by_cases hbad : childBytes.toNat ≠ frame.values.payloadEnd - frame.values.payloadOffset - 20
    · rw [if_pos hbad, if_pos (hbytes.mpr hbad)]
      rfl
    rw [if_neg hbad, if_neg (fun h => hbad (hbytes.mp h))]
    have hdepth : frame.values.depth = frame.depth := rfl
    rw [hdepth]
    split_ifs with hdeep
    · rfl
    have hbegin : (frame.payloadOffset + 20).toNat = frame.payloadOffset.toNat + 20 :=
      toNat_add_of_lt (by change _ + 20 < _; omega)
    have hsmaller : frame.offset < frame.payloadOffset + 20 ∧
        frame.payloadOffset + 20 ≤ frame.payloadEnd ∧ frame.payloadEnd < frame.crcEnd := by
      rw [UInt64.lt_iff_toNat_lt, UInt64.le_iff_toNat_le, UInt64.lt_iff_toNat_lt, hbegin]
      omega
    have hchildren := hparse (frame.payloadOffset + 20) frame.payloadEnd (frame.depth + 1) p
      (ho.offset ▸ hsmaller.1) hsmaller.2.1
      (UInt64.le_trans (UInt64.le_of_lt hsmaller.2.2) ho.crcEnd_le)
    rw [hbegin] at hchildren
    rw [run_bind_of_some (run_assert hsmaller m), run_bind_of_some hchildren, hbegin]
    change _ = some (match parse' (frame.payloadOffset.toNat + 20) frame.payloadEnd.toNat
      (frame.depth + 1) p with
      | (.truncated, p) => _ | r => _)
    rcases parse' (frame.payloadOffset.toNat + 20) frame.payloadEnd.toNat (frame.depth + 1) p with
      ⟨status, q⟩
    cases status <;> rfl

/-- **`tide_process_record`** on a record whose parts are in order. -/
theorem processRecord_run (hm : m.length < 2 ^ 64) (hsize : size.toNat ≤ m.length)
    (ho : frame.Ordered cursor size)
    (hparse : ∀ b e depth p, cursor < b → b ≤ e → e ≤ size →
      (parse b e depth p).run m = some (parse' b.toNat e.toNat depth p))
    (p : Parsing σ) :
    (processRecord parse frame p).run m = some (Tide.processRecord parse' m frame.values p) := by
  have hcrc := ho.crcEnd
  have hle := UInt64.le_iff_toNat_le.mp ho.crcEnd_le
  have hpad := UInt64.le_iff_toNat_le.mp ho.payloadEnd_le
  have hpay := UInt64.le_iff_toNat_le.mp ho.payloadOffset_le
  have hoff := UInt64.lt_iff_toNat_lt.mp ho.offset_lt
  have hsub := UInt64.toNat_sub_of_le _ _ ho.payloadOffset_le
  have hrange : frame.payloadOffset.toNat + (frame.payloadEnd - frame.payloadOffset).toNat ≤
      m.length := by omega
  have hgroup := fun p => processGroup_run hm hsize ho hparse p
  have hstream := fun p => emitStream_run hm hrange (σ := σ) p frame
  have hpacket := fun p => emitPacket_run hm hrange (σ := σ) p frame
  have hsimple := fun limits tracks => emitSimpleRecord_run limits tracks hm
    (show frame.offset.toNat ≤ m.length by omega) hrange
  rw [hsub] at hstream hpacket hsimple
  have htype : frame.values.type = frame.type := rfl
  have hpayload : slice m frame.values.payloadOffset (frame.values.payloadEnd -
      frame.values.payloadOffset) = slice m frame.payloadOffset.toNat (frame.payloadEnd.toNat -
        frame.payloadOffset.toNat) := rfl
  unfold processRecord Tide.processRecord
  rw [htype, hpayload]
  dsimp only
  split_ifs with hskip
  · rfl
  rcases p.notify (.record frame.values.event) with ⟨status, q⟩
  cases status with
  | ok =>
    rw [andThen_ok]
    cases recordTypeOf frame.type with
    | none => rfl
    | some type =>
      cases type with
      | group => exact hgroup q
      | streamDesc => exact hstream q
      | packet => exact hpacket q
      | _ =>
        dsimp only
        rw [run_bind_of_some (hsimple q.limits q.tracks)]
        cases Tide.emitSimpleRecord q.limits q.tracks frame.values m
          (slice m frame.payloadOffset.toNat (frame.payloadEnd.toNat -
            frame.payloadOffset.toNat)) <;> rfl
  | _ => rfl

/-- Each round takes 14 bytes or more, and a group's children are fewer bytes than the group, so
that the fuel lasts. -/
theorem parseRecordsFuel_run (hm : m.length < 2 ^ 64) {fuel : ℕ} {cursor size : UInt64}
    (hle : cursor ≤ size) (hsize : size.toNat ≤ m.length) (hfuel : size.toNat - cursor.toNat < fuel)
    (depth : UInt8) (p : Parsing σ) :
    (parseRecordsFuel fuel cursor size depth p).run m =
      some (Tide.parseRecords m cursor.toNat size.toNat depth p) := by
  induction fuel generalizing cursor size depth p with
  | zero => omega
  | succ fuel ih =>
    have hmax : size.toNat ≤ sizeMax := by unfold sizeMax; omega
    rw [parseRecordsFuel, parseRecords_eq m hmax]
    by_cases hlt : cursor.toNat < size.toNat
    · obtain ⟨F, hF, hvalues⟩ := decodeRecordPrefix_run hm hsize hle depth
      rw [if_pos hlt, if_pos (UInt64.lt_iff_toNat_lt.mpr hlt), run_bind_of_some hF, Tide.recordStep,
        ← hvalues]
      cases F with
      | truncated => rfl
      | rejected e => rfl
      | frame frame =>
        have ho := RecordFrame.ordered_of_values hvalues.symm
        have hadvances := ho.advances
        have hend := UInt64.le_iff_toNat_le.mp ho.crcEnd_le
        have hcrc := ho.crcEnd
        have hoff : frame.offset.toNat = cursor.toNat := congrArg UInt64.toNat ho.offset
        have hsub : (frame.crcEnd - frame.offset).toNat = frame.crcEnd.toNat - frame.offset.toNat :=
          UInt64.toNat_sub_of_le _ _ (UInt64.le_iff_toNat_le.mpr (by omega))
        have hlimits : frame.payloadSize > p.limits.maxPayloadSize ∨
            frame.crcEnd - frame.offset > p.limits.maxRecordSize ↔
              frame.values.payloadSize > p.limits.maxPayloadSize ∨
                frame.values.crcEnd - frame.values.offset > p.limits.maxRecordSize.toNat := by
          refine or_congr_right ?_
          rw [gt_iff_lt, UInt64.lt_iff_toNat_lt, hsub]
          rfl
        dsimp only [Framing.values]
        rw [run_bind_of_some (run_assert ho m)]
        by_cases hexceeds : frame.values.payloadSize > p.limits.maxPayloadSize ∨
            frame.values.crcEnd - frame.values.offset > p.limits.maxRecordSize.toNat
        · rw [if_pos hexceeds, if_pos (hlimits.mpr hexceeds)]
          rfl
        rw [if_neg hexceeds, if_neg (fun h => hexceeds (hlimits.mp h)),
          run_bind_of_some (validateRecordIntegrity_run hm hsize ho)]
        cases Tide.validateRecordIntegrity m frame.values with
        | error e => rfl
        | ok u =>
          have hrec : (processRecord (parseRecordsFuel fuel) frame p).run m =
              some (Tide.processRecord (Tide.parseRecords m) m frame.values p) :=
            processRecord_run hm hsize ho (fun b e depth p hb hbe he => ih hbe
              ((UInt64.le_iff_toNat_le.mp he).trans hsize) (by
              have := UInt64.lt_iff_toNat_lt.mp hb
              have := UInt64.le_iff_toNat_le.mp he
              omega) depth p) p
          dsimp only
          rw [run_bind_of_some hrec]
          rcases Tide.processRecord (Tide.parseRecords m) m frame.values p with ⟨status, q⟩
          cases status with
          | ok => exact ih ho.crcEnd_le hsize (by omega) depth _
          | _ => rfl
    · have hnat := UInt64.le_iff_toNat_le.mp hle
      have heq : cursor = size := UInt64.toNat_inj.mp (by omega)
      rw [heq, if_neg (UInt64.lt_irrefl _), if_neg (Nat.lt_irrefl _), if_neg (fun h => h rfl),
        if_neg (fun h => h rfl)]
      rfl

/-- **`tide_parse_records`** is not stuck. -/
theorem parseRecords_run (hm : m.length < 2 ^ 64) {cursor size : UInt64} (hle : cursor ≤ size)
    (hsize : size.toNat ≤ m.length) (depth : UInt8) (p : Parsing σ) :
    (parseRecords cursor size depth p).run m =
      some (Tide.parseRecords m cursor.toNat size.toNat depth p) :=
  parseRecordsFuel_run hm hle hsize (Nat.lt_succ_self _) depth p

/-- **`tide_parse_tide_bytes`** is not stuck. -/
theorem parseTideBytes_run (hm : m.length < 2 ^ 64) (hsize : size.toNat = m.length) (finish : Bool)
    (limits : Option Limits) (callbacks : Callbacks σ) (user : σ) (allocs : Stream' Bool) :
    (parseTideBytes size finish limits callbacks user allocs).run m =
      some (Tide.parseTideBytes m finish limits callbacks user allocs) := by
  unfold parseTideBytes Tide.parseTideBytes
  dsimp only
  rw [run_bind_of_some (validateHeader_run hm hsize _)]
  cases hval : Tide.validateHeader m (Parsing.start limits callbacks user allocs).limits with
  | error e => rfl
  | ok u =>
    have h72 := length_of_validateHeader hval
    have hle : (72 : UInt64) ≤ size := UInt64.le_iff_toNat_le.mpr (by rw [hsize]; exact h72)
    dsimp only
    rw [run_bind_of_some (parseRecords_run hm hle hsize.le 0 _), hsize]
    rfl

end

/-! ### Feeding is as on lists -/

/-- What a decoder has noted of its buffer lies within it. -/
structure Inside (d : Decoder σ) : Prop where
  bounded : d.buffer.Bounded
  validPrefix : d.validPrefix ≤ d.buffer.data.length
  parseOffset : d.parseOffset ≤ d.buffer.data.length

section

variable {d : Decoder σ}

theorem Inside.length_lt (h : Inside d) : d.buffer.data.length < 2 ^ 64 := by
  have := h.bounded.size
  unfold sizeMax at this
  omega

/-- A number up to the size of the buffer. -/
theorem Inside.toNat_ofNat (h : Inside d) {n : ℕ} (hn : n ≤ d.buffer.data.length) :
    (UInt64.ofNat n).toNat = n :=
  UInt64.toNat_ofNat_of_lt' (Nat.lt_of_le_of_lt hn h.length_lt)

theorem Inside.acceptHeader_run (h : Inside d) :
    (acceptHeader d).run d.buffer.data = some d.acceptHeader := by
  unfold acceptHeader Decoder.acceptHeader
  by_cases hval : d.headerValidated = true
  · rw [if_pos hval, if_pos hval]
    rfl
  rw [if_neg hval, if_neg hval,
    run_bind_of_some (validateHeader_run h.length_lt (h.toNat_ofNat (Nat.le_refl _)) d.limits)]
  cases Tide.validateHeader d.buffer.data d.limits <;> rfl

theorem Inside.parseBuffered_run (h : Inside d) : (parseBuffered d).run d.buffer.data =
    some (Tide.parseRecords d.buffer.data d.parseOffset d.buffer.data.length 0 d.toParsing) := by
  have hsize := h.toNat_ofNat (Nat.le_refl _)
  have hoffset := h.toNat_ofNat h.parseOffset
  have hle : UInt64.ofNat d.parseOffset ≤ UInt64.ofNat d.buffer.data.length := by
    rw [UInt64.le_iff_toNat_le, hsize, hoffset]
    exact h.parseOffset
  have hrun := parseRecords_run h.length_lt hle hsize.le 0 d.toParsing
  rwa [hsize, hoffset] at hrun

theorem Inside.parseMore_run (h : Inside d) :
    (parseMore d).run d.buffer.data = some d.parseMore := by
  unfold parseMore Decoder.parseMore
  rw [run_bind_of_some h.parseBuffered_run]
  rcases Tide.parseRecords d.buffer.data d.parseOffset d.buffer.data.length 0 d.toParsing with
    ⟨status, p⟩
  cases status <;> rfl

theorem Inside.parseEnd_run (h : Inside d) : (parseEnd d).run d.buffer.data = some d.parseEnd := by
  unfold parseEnd Decoder.parseEnd
  rw [run_bind_of_some h.parseBuffered_run]
  rcases Tide.parseRecords d.buffer.data d.parseOffset d.buffer.data.length 0 d.toParsing with
    ⟨status, p⟩
  cases status <;> rfl

/-- A decoder behind its header. -/
theorem Inside.accept (h : Inside d) {d' : Decoder σ} (ha : d.acceptHeader = .ok d') :
    Inside d' ∧ d'.buffer = d.buffer := by
  unfold Decoder.acceptHeader at ha
  split at ha
  · cases ha
    exact ⟨h, rfl⟩
  split at ha
  · cases ha
  · rename_i hval
    have h72 := length_of_validateHeader hval
    cases ha
    exact ⟨⟨h.bounded, h72, h72⟩, rfl⟩

theorem Inside.feedMore_run (h : Inside d) :
    (feedMore d).run d.buffer.data = some (Tide.feedMore d) := by
  unfold feedMore Tide.feedMore
  split
  · rfl
  rw [run_bind_of_some h.acceptHeader_run]
  cases ha : d.acceptHeader with
  | error e => rfl
  | ok d' =>
    obtain ⟨hd', hbuffer⟩ := h.accept ha
    rw [← hbuffer]
    exact hd'.parseMore_run

theorem Inside.feedEnd_run (h : Inside d) :
    (feedEnd d).run d.buffer.data = some (Tide.feedEnd d) := by
  unfold feedEnd Tide.feedEnd
  rw [run_bind_of_some h.acceptHeader_run]
  cases ha : d.acceptHeader with
  | error e => rfl
  | ok d' =>
    obtain ⟨hd', hbuffer⟩ := h.accept ha
    rw [← hbuffer]
    exact hd'.parseEnd_run

/-- Appending keeps the notes within the buffer. -/
theorem Inside.append (h : Inside d) (data : Bytes) :
    Inside { d with buffer := (bufferAppend d.buffer data).2 } := by
  have hle : d.buffer.data.length ≤ (bufferAppend d.buffer data).2.data.length := by
    obtain ⟨-, ⟨-, hdata, -⟩ | ⟨-, hdata⟩⟩ := bufferAppend_cases d.buffer data
    · rw [hdata, List.length_append]
      exact Nat.le_add_right _ _
    · rw [hdata]
  exact ⟨bufferAppend_bounded h.bounded data, h.validPrefix.trans hle, h.parseOffset.trans hle⟩

/-- **`tide_decoder_feed`** is not stuck. -/
theorem Inside.decoderFeed_run (h : Inside d) (data : Bytes) (finish : Bool) :
    decoderFeed d data finish = some (Tide.decoderFeed d data finish) := by
  have happ := h.append data
  unfold decoderFeed Tide.decoderFeed
  by_cases hc : d.cancelled = true
  · rw [if_pos hc, if_pos hc]
  by_cases ht : d.terminal = true
  · rw [if_neg hc, if_neg hc, if_pos ht, if_pos ht]
  rw [if_neg hc, if_neg hc, if_neg ht, if_neg ht]
  generalize bufferAppend d.buffer data = r at happ ⊢
  obtain ⟨status, b⟩ := r
  cases status with
  | ok =>
    have hfed : ∀ {x : Option (Status × Decoder σ)} {r : Status × Decoder σ}, x = some r →
        (x.bind fun r => some (⟨r.1, data.length, r.2⟩ : Fed σ)) =
          some ⟨r.1, data.length, r.2⟩ := by
      rintro _ _ rfl
      rfl
    cases finish with
    | true => exact hfed happ.feedEnd_run
    | false => exact hfed happ.feedMore_run
  | _ => rfl

/-- The records that are parsed move the notes within the buffer. -/
theorem Inside.parsed (h : Inside d) {r : Status × Parsing σ}
    (hr : Tide.parseRecords d.buffer.data d.parseOffset d.buffer.data.length 0 d.toParsing = r) :
    r.2.validPrefix ≤ d.buffer.data.length := by
  rw [← hr]
  exact (kept_validPrefix d.buffer.data.length).parseRecords (Nat.le_refl _) h.validPrefix
    d.buffer.data d.parseOffset 0

/-- Telling the error changes what the user has only. -/
theorem Inside.notifyError (h : Inside d) : Inside { d.notifyError with terminal := true } := by
  obtain heq | ⟨f, -, heq⟩ := notifyError_eq d
  · rw [heq]
    exact ⟨h.bounded, h.validPrefix, h.parseOffset⟩
  · rw [heq]
    exact ⟨h.bounded, h.validPrefix, h.parseOffset⟩

theorem Inside.parseMore (h : Inside d) : Inside d.parseMore.2 := by
  unfold Decoder.parseMore
  cases hr : Tide.parseRecords d.buffer.data d.parseOffset d.buffer.data.length 0 d.toParsing with
  | mk status p =>
    have hvalid := h.parsed hr
    cases status with
    | ok => exact ⟨h.bounded, hvalid, Nat.le_refl _⟩
    | truncated => exact ⟨h.bounded, hvalid, hvalid⟩
    | _ => exact Inside.notifyError ⟨h.bounded, hvalid, h.parseOffset⟩

theorem Inside.parseEnd (h : Inside d) : Inside d.parseEnd.2 := by
  unfold Decoder.parseEnd
  cases hr : Tide.parseRecords d.buffer.data d.parseOffset d.buffer.data.length 0 d.toParsing with
  | mk status p =>
    have hvalid := h.parsed hr
    cases status with
    | ok => exact ⟨h.bounded, hvalid, Nat.le_refl _⟩
    | truncated | partialTail => exact ⟨h.bounded, hvalid, h.parseOffset⟩
    | _ => exact Inside.notifyError ⟨h.bounded, hvalid, h.parseOffset⟩

/-- A feed keeps the notes within the buffer. -/
theorem Inside.feed (h : Inside d) (piece : Piece) : Inside (d.feed piece).2 := by
  have happ := h.append piece.data
  unfold Decoder.feed Tide.decoderFeed
  by_cases hc : d.cancelled = true
  · rw [if_pos hc]
    exact h
  by_cases ht : d.terminal = true
  · rw [if_neg hc, if_pos ht]
    exact h
  rw [if_neg hc, if_neg ht]
  generalize bufferAppend d.buffer piece.data = r at happ ⊢
  obtain ⟨status, b⟩ := r
  cases status with
  | ok =>
    cases piece.finish with
    | true =>
      change Inside (Tide.feedEnd _).2
      unfold Tide.feedEnd
      cases ha : Decoder.acceptHeader _ with
      | error e => exact ⟨happ.bounded, happ.validPrefix, happ.parseOffset⟩
      | ok d' => exact (happ.accept ha).1.parseEnd
    | false =>
      change Inside (Tide.feedMore _).2
      unfold Tide.feedMore
      split
      · exact happ
      cases ha : Decoder.acceptHeader _ with
      | error e => exact Inside.notifyError ⟨happ.bounded, happ.validPrefix, happ.parseOffset⟩
      | ok d' => exact (happ.accept ha).1.parseMore
  | _ => exact happ

end

/-! ### Sessions -/

/-- Feeding the pieces one after the other. -/
def decoderFeeds (d : Decoder σ) : List Piece → Option (List Status × Decoder σ)
  | [] => some ([], d)
  | piece :: pieces => do
    let fed ← decoderFeed d piece.data piece.finish
    let r ← decoderFeeds fed.decoder pieces
    return (fed.status :: r.1, r.2)

theorem Inside.decoderFeeds_run {d : Decoder σ} (h : Inside d) (pieces : List Piece) :
    decoderFeeds d pieces = some (answers Decoder.feed d pieces) := by
  induction pieces generalizing d with
  | nil => rfl
  | cons piece pieces ih =>
    have hfeed : Inside (Tide.decoderFeed d piece.data piece.finish).decoder := h.feed piece
    rw [decoderFeeds, h.decoderFeed_run, Option.bind_eq_bind, Option.bind_some, ih hfeed]
    rfl

theorem inside_decoderInit (limits : Option Limits) (callbacks : Callbacks σ) (user : σ)
    (allocs bufferAllocs : Stream' Bool) :
    Inside (decoderInit limits callbacks user allocs bufferAllocs) :=
  ⟨⟨Nat.zero_le _, .inr (Nat.zero_le _)⟩, Nat.zero_le _, Nat.zero_le _⟩

/-- **No load is out of range, no sum wraps, every loop ends**: neither feeding a decoder, in
whatever pieces, nor parsing a string at once is ever stuck, and both answer what they do on
lists. What is a frame to `tide_decode_record_prefix` is in order, whatever size it declares. -/
theorem decoder_notStuck (limits : Option Limits) (callbacks : Callbacks σ) (user : σ)
    (allocs bufferAllocs : Stream' Bool) :
    (∀ pieces, decoderFeeds (decoderInit limits callbacks user allocs bufferAllocs) pieces =
      some (answers Decoder.feed (decoderInit limits callbacks user allocs bufferAllocs) pieces)) ∧
    (∀ B : Bytes, B.length ≤ sizeMax → ∀ finish,
      (parseTideBytes (UInt64.ofNat B.length) finish limits callbacks user allocs).run B =
        some (Tide.parseTideBytes B finish limits callbacks user allocs)) ∧
    ∀ B : Bytes, B.length ≤ sizeMax →
      ∀ (cursor size : UInt64) (depth : UInt8) (frame : RecordFrame), cursor ≤ size →
      size.toNat ≤ B.length → (decodeRecordPrefix size cursor depth).run B = some (.frame frame) →
        frame.Ordered cursor size := by
  have hlt : ∀ {B : Bytes}, B.length ≤ sizeMax → B.length < 2 ^ 64 := by
    intro B hB
    unfold sizeMax at hB
    omega
  refine ⟨(inside_decoderInit limits callbacks user allocs bufferAllocs).decoderFeeds_run,
    fun B hB finish => ?_, ?_⟩
  · exact parseTideBytes_run (hlt hB) (UInt64.toNat_ofNat_of_lt' (hlt hB)) finish limits
      callbacks user allocs
  · intro B hB cursor size depth frame hle hsize hframe
    obtain ⟨F, hF, hvalues⟩ := decodeRecordPrefix_run (hlt hB) hsize hle depth
    rw [hframe] at hF
    cases Option.some.inj hF
    exact RecordFrame.ordered_of_values hvalues.symm

/-- The small file, parsed at once. -/
theorem sampleFile_notStuck :
    (parseTideBytes (UInt64.ofNat sampleFile.length) true (some limitsDefault) recorder []
      (Stream'.const true)).run sampleFile =
      some (Tide.parseTideBytes sampleFile true (some limitsDefault) recorder []
        (Stream'.const true)) :=
  (decoder_notStuck (some limitsDefault) recorder [] (Stream'.const true) (Stream'.const true)).2.1
    sampleFile (by decide +kernel) true

end Tide.Memory
