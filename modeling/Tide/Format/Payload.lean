import Tide.Format.Framing

/-!
# What a payload says

The model of the readers of payloads in `src/format/decoder.c`: the fields of
`tide_emit_stream` and `tide_emit_packet`, and `tide_emit_simple_record` with a
check for each of the other record types. The tests that the source strings
together with `||` before one error are one program of the reader here, which
fails where one of them does; `orError` says which error that is. A table's
entries are read by `forEntries`, which hands from one entry to the next what the
source keeps in its `previous_` variables.
-/

namespace Tide

open Theory

/-! ### Programs that read and check -/

/-- A program that reads a payload and stops at the first error. -/
abbrev Checks (α : Type) := StateT Reader (Except Error) α

/-- The reads and tests of one `if`, and the error it sets. -/
def orError {α : Type} (e : Error) (p : Reads UInt8 α) : Checks α := fun reader =>
  match p.run reader with
  | some x => .ok x
  | none => .error e

/-- `if (reader.offset != payload_size)`. -/
def expectEnd (e : Error) : Checks Unit := fun reader =>
  if reader.offset ≠ reader.data.length then .error e else .ok ((), reader)

/-- `for (i = 0; i < count; ++i)`, from the `i`-th round on, with `n` rounds to go. -/
def forEntries {S : Type} (entry : ℕ → S → Checks S) : (n i : ℕ) → S → Checks S
  | 0, _, previous => pure previous
  | n + 1, i, previous => do
    let next ← entry i previous
    forEntries entry n (i + 1) next

/-- The value read from a payload to its end. -/
def wholePayload {α : Type} (p : Reads UInt8 α) (payload : Bytes) : Option α :=
  match p.run (readerInit payload) with
  | some (a, reader) => if reader.offset ≠ payload.length then none else some a
  | none => none

/-- The errors set at a record's payload. -/
def frameError (frame : RecordFrame) (status : Status) (message : String) : Error :=
  parseError status frame.payloadOffset frame.type frame.depth message

/-! ### Streams and packets -/

/-- The reads of `tide_emit_stream`. -/
def readStream : Reads UInt8 StreamInfo := do
  let trackId ← readerReadU32
  let generation ← readerReadU32
  let mediaKind ← readerReadU16
  readerSkip 2
  let codecTag ← readerReadU32
  let numerator ← readerReadU32
  let denominator ← readerReadU32
  let configSize ← readerReadUleb128
  let config ← readerReadBytes configSize.toNat
  return ⟨trackId, generation, mediaKind, codecTag, ⟨numerator, denominator⟩, config⟩

/-- The reads of `tide_emit_packet`. -/
def readPacket : Reads UInt8 PacketInfo := do
  let trackId ← readerReadU32
  let generation ← readerReadU32
  let packetSeq ← readerReadU64
  let dts ← readerReadI64
  let pts ← readerReadI64
  let duration ← readerReadI64
  let flags ← readerReadU32
  let payloadSize ← readerReadUleb128
  let payload ← readerReadBytes payloadSize.toNat
  return ⟨trackId, generation, packetSeq, dts, pts, duration, flags, payload⟩

/-! ### `tide_emit_simple_record` -/

section Simple

variable (limits : Limits) (tracks : List TrackSnapshot) (frame : RecordFrame)

/-- A track and a count of entries, up to `maxEntries`. -/
def readTableHead (maxEntries : UInt32) : Reads UInt8 UInt64 := do
  let trackId ← readerReadU32
  let generation ← readerReadU32
  let count ← readerReadUleb128
  guard (¬ count > maxEntries.toUInt64)
  guard ((findTrack tracks trackId generation).isSome)
  return count

/-- An entry of a packet table, after one with the range's end `previousEnd` and the
sequence number `previousSeq`. -/
def readPacketTableEntry (i : ℕ) (previousEnd previousSeq : UInt64) :
    Reads UInt8 (UInt64 × UInt64) := do
  let packetSeq ← readerReadU64
  let _dts ← readerReadI64
  let _pts ← readerReadI64
  let duration ← readerReadI64
  let _flags ← readerReadU32
  let rangeOffset ← readerReadU64
  let rangeSize ← readerReadU64
  guard (¬ duration < 0)
  match checkedAddU64 rangeOffset rangeSize with
  | none => failure
  | some rangeEnd =>
    guard (¬ (i ≠ 0 ∧ packetSeq ≤ previousSeq))
    guard (¬ rangeOffset < previousEnd)
    return (rangeEnd, packetSeq)

/-- `TIDE_RECORD_PACKET_TABLE`. -/
def checkPacketTable : Checks Unit := do
  let count ← orError (frameError frame .resource "packet table limit")
    (readTableHead tracks limits.maxPacketTableEntries)
  let _ ← forEntries (fun i previous => orError (frameError frame .format "bad packet table entry")
    (readPacketTableEntry i previous.1 previous.2)) count.toNat 0 ((0, 0) : UInt64 × UInt64)
  expectEnd (frameError frame .format "packet table trailing bytes")

/-- The output interval of an entry of an edit list, by its start and its duration. -/
def readEditEntry : Reads UInt8 (Int64 × Int64) := do
  let outputStart ← readerReadI64
  let outputDuration ← readerReadI64
  let _sourceStart ← readerReadI64
  let numerator ← readerReadU32
  let denominator ← readerReadU32
  guard (¬ outputDuration < 0)
  guard (¬ outputStart > Int64.maxValue - outputDuration)
  guard (rationalIsValid ⟨numerator, denominator⟩)
  return (outputStart, outputDuration)

/-- `TIDE_RECORD_EDIT_LIST`. -/
def checkEditList : Checks Unit := do
  let count ← orError (frameError frame .timeline "bad edit list")
    (readTableHead tracks limits.maxEditEntries)
  let _ ← forEntries (fun i previousEnd => do
    let (outputStart, outputDuration) ← orError (frameError frame .timeline "bad edit entry")
      readEditEntry
    let outputEnd := outputStart + outputDuration
    orError (frameError frame .timeline "overlapping edit entries")
      (guard (¬ (i ≠ 0 ∧ outputStart < previousEnd)))
    return outputEnd) count.toNat 0 Int64.minValue
  expectEnd (frameError frame .format "edit list trailing bytes")

/-- `TIDE_RECORD_DISCONTINUITY`. -/
def checkDiscontinuity : Checks Unit := do
  let bad := frameError frame .format "bad discontinuity"
  orError bad do
    let trackId ← readerReadU32
    let generation ← readerReadU32
    let epoch ← readerReadU64
    let _reason ← readerReadU32
    guard (¬ epoch = 0)
    guard (¬ (trackId ≠ 0 ∧ findTrack tracks trackId generation = none))
  expectEnd bad

/-- The sort key of an entry of a seek index. -/
def readSeekEntry : Reads UInt8 UInt64 := do
  let trackId ← readerReadU32
  let generation ← readerReadU32
  let _packetSeq ← readerReadU64
  let pts ← readerReadI64
  let groupOffset ← readerReadU64
  let recordOffset ← readerReadU64
  guard ((findTrack tracks trackId generation).isSome)
  guard (¬ groupOffset < 72)
  guard (¬ recordOffset < groupOffset)
  guard (¬ recordOffset.toNat ≥ frame.offset)
  return (trackId.toUInt64 <<< 32) ^^^ (if pts < 0 then 0 else pts).toUInt64

/-- `TIDE_RECORD_SEEK_INDEX`. -/
def checkSeekIndex : Checks Unit := do
  let count ← orError (frameError frame .index "bad seek index header") do
    let _indexGeneration ← readerReadU64
    readerReadUleb128
  let _ ← forEntries (fun i previousSortKey => do
    let sortKey ← orError (frameError frame .index "bad seek index entry")
      (readSeekEntry tracks frame)
    orError (frameError frame .index "unsorted seek index")
      (guard (¬ (i ≠ 0 ∧ sortKey < previousSortKey)))
    return sortKey) count.toNat 0 (0 : UInt64)
  expectEnd (frameError frame .index "seek index trailing bytes")

/-- `TIDE_RECORD_CHECKPOINT`. -/
def checkCheckpoint : Checks Unit := do
  let count ← orError (frameError frame .format "bad checkpoint") do
    let _groupSequence ← readerReadU64
    let prefixOffset ← readerReadU64
    let _digest ← readerReadBytes 32
    let count ← readerReadUleb128
    guard (¬ prefixOffset.toNat > frame.offset)
    guard (¬ count > limits.maxTracks.toUInt64)
    return count
  let _ ← forEntries (fun _ _ => orError (frameError frame .format "bad checkpoint descriptor") do
    let trackId ← readerReadU32
    let generation ← readerReadU32
    guard ((findTrack tracks trackId generation).isSome)) count.toNat 0 ()
  expectEnd (frameError frame .format "checkpoint trailing bytes")

/-- An entry of an index directory, after one with the end `previousEnd` and the
generation `previousGeneration`. -/
def readDirectoryEntry (i : ℕ) (previousEnd previousGeneration : UInt64) :
    Reads UInt8 (UInt64 × UInt64) := do
  let generation ← readerReadU64
  let startTime ← readerReadI64
  let endTime ← readerReadI64
  let offset ← readerReadU64
  guard (¬ startTime < 0)
  guard (¬ endTime < startTime)
  guard (¬ offset < 72)
  guard (¬ offset.toNat ≥ frame.offset)
  guard (¬ (i ≠ 0 ∧ generation ≤ previousGeneration))
  guard (¬ (i ≠ 0 ∧ startTime.toUInt64 < previousEnd))
  return (endTime.toUInt64, generation)

/-- `TIDE_RECORD_INDEX_DIRECTORY`. -/
def checkIndexDirectory : Checks Unit := do
  let count ← orError (frameError frame .index "bad index directory") readerReadUleb128
  let _ ← forEntries
    (fun i previous => orError (frameError frame .index "bad index directory entry")
      (readDirectoryEntry frame i previous.1 previous.2)) count.toNat 0 ((0, 0) : UInt64 × UInt64)
  expectEnd (frameError frame .index "index directory trailing bytes")

/-- The length of the file, the offset of an index directory and the digest that a footer
gives. -/
def readFooter : Reads UInt8 (UInt64 × UInt64 × Bytes) := do
  let fileLength ← readerReadU64
  let indexDirectoryOffset ← readerReadU64
  let _lastCheckpointSequence ← readerReadUleb128
  let digest ← readerReadBytes 32
  return (fileLength, indexDirectoryOffset, digest)

/-- `TIDE_RECORD_FOOTER`: the digest is compared with that of the file before the record. -/
def checkFooter (fileData : Bytes) : Checks Unit := do
  let bad := frameError frame .format "bad footer"
  let (fileLength, indexDirectoryOffset, digest) ← orError bad readFooter
  expectEnd bad
  orError bad (guard (¬ fileLength.toNat ≠ frame.crcEnd))
  orError bad (guard (¬ (indexDirectoryOffset ≠ 0 ∧
    (indexDirectoryOffset < 72 ∨ indexDirectoryOffset.toNat ≥ frame.offset))))
  orError (frameError frame .integrity "footer digest mismatch")
    (guard (¬ digest ≠ digestAdapter32 (fileData.take frame.offset)))

/-- `tide_emit_simple_record`: the check of the record's type. -/
def simpleRecordChecks (fileData : Bytes) : Checks Unit :=
  match recordTypeOf frame.type with
  | some .packetTable => checkPacketTable limits tracks frame
  | some .editList => checkEditList limits tracks frame
  | some .discontinuity => checkDiscontinuity tracks frame
  | some .seekIndex => checkSeekIndex tracks frame
  | some .checkpoint => checkCheckpoint limits tracks frame
  | some .indexDirectory => checkIndexDirectory frame
  | some .footer => checkFooter frame fileData
  | _ => pure ()

/-- `tide_emit_simple_record`. -/
def emitSimpleRecord (fileData payload : Bytes) : Except Error Unit :=
  (simpleRecordChecks limits tracks frame fileData).run' (readerInit payload)

end Simple

/-- A count within a limit. -/
theorem not_gt_toUInt64_iff (n : UInt64) (a : UInt32) : ¬ n > a.toUInt64 ↔ n.toNat ≤ a.toNat := by
  rw [gt_iff_lt, UInt64.not_lt, UInt64.le_iff_toNat_le, UInt32.toNat_toUInt64]

theorem emitSimpleRecord_eq_ok_iff {limits : Limits} {tracks : List TrackSnapshot}
    {frame : RecordFrame} {fileData payload : Bytes} :
    emitSimpleRecord limits tracks frame fileData payload = .ok () ↔
      ∃ x, (simpleRecordChecks limits tracks frame fileData).run (readerInit payload) = .ok x := by
  unfold emitSimpleRecord StateT.run' StateT.run
  cases hr : simpleRecordChecks limits tracks frame fileData (readerInit payload) with
  | error e => exact ⟨nofun, fun ⟨_, h⟩ => nomatch h⟩
  | ok x => exact ⟨fun _ => ⟨x, rfl⟩, fun _ => rfl⟩

/-! ### What streams and packets look like -/

theorem wholePayload_eq_some_iff {α : Type} {p : Reads UInt8 α} {G : α → Bytes → Prop}
    (h : Decodes p G) (payload : Bytes) (a : α) :
    wholePayload p payload = some a ↔ G a payload := by
  rw [← h.whole payload a, wholePayload, readerInit]
  cases hr : p.run ⟨payload, 0⟩ with
  | none => simp
  | some x =>
    obtain ⟨b, c⟩ := x
    by_cases hc : c.offset = payload.length
    · simp [hc]
    · simp [hc]

/-- A stream descriptor with any two reserved bytes. -/
def StreamInfo.Encodes (s : StreamInfo) (bs : Bytes) : Prop :=
  s.config.length < 2 ^ 64 ∧ ∃ reserved : Bytes, reserved.length = 2 ∧
    bs = writeU32 s.trackId ++
      (writeU32 s.generation ++ (writeU16 s.mediaKind ++ (reserved ++ (writeU32 s.codecTag ++
      (writeU32 s.timeBase.numerator ++ (writeU32 s.timeBase.denominator ++
        (writeUleb128 (UInt64.ofNat s.config.length) ++ s.config)))))))

theorem decodes_stream : Decodes readStream StreamInfo.Encodes := by
  refine (decodes_u32.bind fun _ => decodes_u32.bind fun _ => decodes_u16.bind fun _ =>
    (decodes_skip 2).bind fun _ =>
    decodes_u32.bind fun _ => decodes_u32.bind fun _ => decodes_u32.bind fun _ =>
      decodes_uleb128.bind fun n =>
    (decodes_bytes n.toNat).bind fun _ => decodes_pure _).congr fun s bs => ?_
  constructor
  · rintro ⟨_, _, _, rfl,
      ⟨_, _, _, rfl, ⟨_, _, _, rfl,
        ⟨_, r, _, hr, ⟨_, _, _, rfl,
          ⟨_, _, _, rfl, ⟨_, _, _, rfl, ⟨n, _, _, rfl, ⟨c, _, _, ⟨rfl, hc⟩, ⟨rfl, rfl⟩, rfl⟩, rfl⟩,
            rfl⟩, rfl⟩, rfl⟩, rfl⟩, rfl⟩, rfl⟩, rfl⟩
    refine ⟨by rw [hc]; exact n.toNat_lt, r, hr, ?_⟩
    rw [hc, UInt64.ofNat_toNat, List.append_nil]
  · rintro ⟨hlen, r, hr, rfl⟩
    refine ⟨_, _, _, rfl,
      ⟨_, _, _, rfl, ⟨_, _, _, rfl,
        ⟨(), r, _, hr, ⟨_, _, _, rfl,
          ⟨_, _, _, rfl, ⟨_, _, _, rfl, ⟨_, _, _, rfl, ⟨s.config, s.config, [], ⟨rfl, ?_⟩,
            ⟨rfl, rfl⟩, (List.append_nil _).symm⟩, rfl⟩, rfl⟩, rfl⟩, rfl⟩, rfl⟩, rfl⟩, rfl⟩, rfl⟩
    exact (UInt64.toNat_ofNat_of_lt' hlen).symm

/-- A packet's payload. -/
def PacketInfo.Encodes (p : PacketInfo) (bs : Bytes) : Prop :=
  p.payload.length < 2 ^ 64 ∧
    bs = writeU32 p.trackId ++
      (writeU32 p.generation ++ (writeU64 p.packetSeq ++ (writeI64 p.dts ++ (writeI64 p.pts ++
      (writeI64 p.duration ++ (writeU32 p.flags ++ (writeUleb128 (UInt64.ofNat p.payload.length) ++
        p.payload)))))))

theorem decodes_packet : Decodes readPacket PacketInfo.Encodes := by
  refine (decodes_u32.bind fun _ => decodes_u32.bind fun _ => decodes_u64.bind fun _ =>
    decodes_i64.bind fun _ =>
    decodes_i64.bind fun _ => decodes_i64.bind fun _ => decodes_u32.bind fun _ =>
      decodes_uleb128.bind fun n =>
    (decodes_bytes n.toNat).bind fun _ => decodes_pure _).congr fun p bs => ?_
  constructor
  · rintro ⟨_, _, _, rfl,
      ⟨_, _, _, rfl, ⟨_, _, _, rfl,
        ⟨_, _, _, rfl, ⟨_, _, _, rfl,
          ⟨_, _, _, rfl, ⟨_, _, _, rfl, ⟨n, _, _, rfl, ⟨c, _, _, ⟨rfl, hc⟩, ⟨rfl, rfl⟩, rfl⟩, rfl⟩,
            rfl⟩, rfl⟩, rfl⟩, rfl⟩, rfl⟩, rfl⟩, rfl⟩
    refine ⟨by rw [hc]; exact n.toNat_lt, ?_⟩
    rw [hc, UInt64.ofNat_toNat, List.append_nil]
  · rintro ⟨hlen, rfl⟩
    refine ⟨_, _, _, rfl,
      ⟨_, _, _, rfl, ⟨_, _, _, rfl,
        ⟨_, _, _, rfl, ⟨_, _, _, rfl,
          ⟨_, _, _, rfl, ⟨_, _, _, rfl, ⟨_, _, _, rfl, ⟨p.payload, p.payload, [], ⟨rfl, ?_⟩,
            ⟨rfl, rfl⟩, (List.append_nil _).symm⟩, rfl⟩, rfl⟩, rfl⟩, rfl⟩, rfl⟩, rfl⟩, rfl⟩, rfl⟩
    exact (UInt64.toNat_ofNat_of_lt' hlen).symm

/-! ### The errors of the checks -/

/-- Every error of the program satisfies `P`. -/
def Checks.Raises {α : Type} (P : Error → Prop) (c : Checks α) : Prop :=
  ∀ r e, c.run r = .error e → P e

section Raises

variable {P : Error → Prop} {α β : Type}

theorem Checks.raises_pure (a : α) : Checks.Raises P (pure a) := by
  intro r e h
  cases h

theorem Checks.Raises.bind {c : Checks α} {f : α → Checks β} (hc : Checks.Raises P c)
    (hf : ∀ a, Checks.Raises P (f a)) :
    Checks.Raises P (c >>= f) := by
  intro r e h
  rw [StateT.run_bind] at h
  cases hr : c.run r with
  | error e' =>
    rw [hr] at h
    cases h
    exact hc r e hr
  | ok x =>
    rw [hr] at h
    exact hf x.1 x.2 e h

theorem raises_orError {e : Error} (he : P e) (p : Reads UInt8 α) :
    Checks.Raises P (orError e p) := by
  intro r e' h
  change (match p.run r with | some x => Except.ok x | none => .error e) = _ at h
  cases hp : p.run r with
  | none =>
    rw [hp] at h
    cases h
    exact he
  | some x =>
    rw [hp] at h
    cases h

theorem raises_expectEnd {e : Error} (he : P e) : Checks.Raises P (expectEnd e) := by
  intro r e' h
  change (if _ then Except.error e else .ok ((), r)) = _ at h
  split at h
  · cases h
    exact he
  · cases h

theorem raises_forEntries {S : Type} {entry : ℕ → S → Checks S}
    (he : ∀ i s, Checks.Raises P (entry i s)) (n i : ℕ) (s : S) :
    Checks.Raises P (forEntries entry n i s) := by
  induction n generalizing i s with
  | zero => exact Checks.raises_pure s
  | succ n ih => exact (he i s).bind fun next => ih (i + 1) next

/-- A table: a head, entries, and nothing after them. -/
theorem raises_table {S : Type} {head : Checks UInt64} {entry : ℕ → S → Checks S} {s : S}
    {e : Error} (hh : Checks.Raises P head) (hentry : ∀ i s, Checks.Raises P (entry i s))
    (he : P e) :
    Checks.Raises P (do
      let count ← head
      let _ ← forEntries entry count.toNat 0 s
      expectEnd e) :=
  hh.bind fun count => (raises_forEntries hentry count.toNat 0 s).bind fun _ => raises_expectEnd he

end Raises

/-- The errors that refuse a record: set at its payload, with its type and depth. -/
def RecordFrame.Errors (frame : RecordFrame) (e : Error) : Prop :=
  ∃ status message, status.Rejects ∧ e = frameError frame status message

theorem errors_frameError (frame : RecordFrame) {status : Status} (h : status.Rejects)
    (message : String) :
    frame.Errors (frameError frame status message) := ⟨status, message, h, rfl⟩

theorem raises_simpleRecordChecks (limits : Limits) (tracks : List TrackSnapshot)
    (frame : RecordFrame) (fileData : Bytes) :
    Checks.Raises frame.Errors (simpleRecordChecks limits tracks frame fileData) := by
  have format := fun m => errors_frameError frame (show Status.format.Rejects by decide) m
  have timeline := fun m => errors_frameError frame (show Status.timeline.Rejects by decide) m
  have index := fun m => errors_frameError frame (show Status.index.Rejects by decide) m
  have resource := fun m => errors_frameError frame (show Status.resource.Rejects by decide) m
  have integrity := fun m => errors_frameError frame (show Status.integrity.Rejects by decide) m
  unfold simpleRecordChecks
  cases recordTypeOf frame.type with
  | none => exact Checks.raises_pure ()
  | some t =>
    cases t with
    | group | streamDesc | packet => exact Checks.raises_pure ()
    | packetTable =>
      exact raises_table (raises_orError (resource _) _) (fun _ _ => raises_orError (format _) _)
        (format _)
    | editList =>
      refine raises_table (raises_orError (timeline _) _) (fun _ _ => ?_) (format _)
      exact (raises_orError (timeline _) _).bind fun _ =>
        (raises_orError (timeline _) _).bind fun _ => Checks.raises_pure _
    | discontinuity => exact (raises_orError (format _) _).bind fun _ => raises_expectEnd (format _)
    | seekIndex =>
      refine raises_table (raises_orError (index _) _) (fun _ _ => ?_) (index _)
      exact (raises_orError (index _) _).bind fun _ => (raises_orError (index _) _).bind fun _ =>
        Checks.raises_pure _
    | checkpoint =>
      exact raises_table (raises_orError (format _) _) (fun _ _ => raises_orError (format _) _)
        (format _)
    | indexDirectory =>
      exact raises_table (raises_orError (index _) _) (fun _ _ => raises_orError (index _) _)
        (index _)
    | footer =>
      exact (raises_orError (format _) _).bind fun _ => (raises_expectEnd (format _)).bind fun _ =>
        (raises_orError (format _) _).bind fun _ => (raises_orError (format _) _).bind fun _ =>
        raises_orError (integrity _) _

/-- **The errors of the checks** are set at the record's payload, with the record's type
and depth, and their status refuses the record. -/
theorem emitSimpleRecord_error {limits : Limits} {tracks : List TrackSnapshot} {frame : RecordFrame}
    {fileData payload : Bytes} {e : Error}
    (h : emitSimpleRecord limits tracks frame fileData payload = .error e) : frame.Errors e := by
  unfold emitSimpleRecord StateT.run' at h
  cases hr : simpleRecordChecks limits tracks frame fileData (readerInit payload) with
  | error e' =>
    rw [hr] at h
    cases h
    exact raises_simpleRecordChecks limits tracks frame fileData _ _ hr
  | ok x =>
    rw [hr] at h
    cases h

/-! ### Footers -/

/-- The file is looked at only for a footer's digest, and of its bytes before the record
only the checksum matters. -/
theorem emitSimpleRecord_congr {limits : Limits} {tracks : List TrackSnapshot} {frame : RecordFrame}
    {fileData fileData' : Bytes} (payload : Bytes)
    (h : crc32c (fileData.take frame.offset) = crc32c (fileData'.take frame.offset)) :
    emitSimpleRecord limits tracks frame fileData payload = emitSimpleRecord limits tracks frame
      fileData' payload := by
  unfold emitSimpleRecord simpleRecordChecks checkFooter digestAdapter32
  rw [h]

/-- A footer gives the length of the file, the offset of an index directory, the sequence
number of a checkpoint and a digest. -/
theorem decodes_footer : Decodes readFooter fun x bs => ∃ sequence : UInt64,
    x.2.2.length = 32 ∧ bs = writeU64 x.1 ++
      (writeU64 x.2.1 ++ (writeUleb128 sequence ++ x.2.2)) := by
  refine (decodes_u64.bind fun _ => decodes_u64.bind fun _ => decodes_uleb128.bind fun _ =>
    (decodes_bytes 32).bind fun _ =>
    decodes_pure _).congr fun x bs => ?_
  constructor
  · rintro ⟨_, _, _, rfl, ⟨_, _, _, rfl, ⟨n, _, _, rfl, ⟨d, _, _, ⟨rfl, hd⟩, ⟨rfl, rfl⟩, rfl⟩, rfl⟩,
      rfl⟩, rfl⟩
    exact ⟨n, hd, by rw [List.append_nil]⟩
  · rintro ⟨n, hd, rfl⟩
    exact ⟨_, _, _, rfl,
      ⟨_, _, _, rfl, ⟨_, _, _, rfl, ⟨x.2.2, x.2.2, [], ⟨rfl, hd⟩, ⟨rfl, rfl⟩,
        (List.append_nil _).symm⟩, rfl⟩, rfl⟩, rfl⟩

/-- **When a footer is accepted**: it gives the file's length as the record's end, no
directory or one before it, and the digest of the bytes before it. -/
theorem emitSimpleRecord_footer {limits : Limits} {tracks : List TrackSnapshot}
    {frame : RecordFrame} {fileData payload : Bytes} (ht : frame.type = RecordType.footer.code)
    (length directory : UInt64) (digest : Bytes)
    (hread : wholePayload readFooter payload = some (length, directory, digest)) :
    emitSimpleRecord limits tracks frame fileData payload = .ok () ↔
      length.toNat = frame.crcEnd ∧ (directory ≠ 0 → 72 ≤ directory ∧
        directory.toNat < frame.offset) ∧
        digest = digestAdapter32 (fileData.take frame.offset) := by
  rw [wholePayload_eq_some_iff decodes_footer] at hread
  have hrun : readFooter.run (readerInit payload) = some ((length, directory, digest),
      Cursor.mid payload []) :=
    (decodes_footer [] payload _ _).mpr ⟨payload, [], hread, by simp, rfl⟩
  have htype : recordTypeOf frame.type = some .footer := by rw [ht, recordTypeOf_code]
  have hend : ∀ e, expectEnd e (Cursor.mid payload []) = .ok ((), Cursor.mid payload []) :=
    fun e => by simp [expectEnd]
  have hguard : ∀ (e : Error) (P : Prop) [Decidable P] (r : Reader),
      orError e (guard P) r = if P then .ok ((), r) else .error e := by
    intro e P _ r
    by_cases hP : P
    · rw [if_pos hP, guard, if_pos hP]; rfl
    · rw [if_neg hP, guard, if_neg hP]; rfl
  have hfirst : ∀ e, orError e readFooter (readerInit payload) = .ok ((length, directory, digest),
      Cursor.mid payload []) := by
    intro e
    unfold orError
    rw [hrun]
  unfold emitSimpleRecord simpleRecordChecks
  rw [htype]
  dsimp only
  unfold checkFooter
  simp only [StateT.run', StateT.bind, bind, Except.bind, hfirst, hend, hguard]
  have hdir : (directory ≠ 0 → 72 ≤ directory ∧ directory.toNat < frame.offset) ↔
      ¬ (directory ≠ 0 ∧ (directory < 72 ∨ directory.toNat ≥ frame.offset)) := by
    rw [not_and, not_or, UInt64.not_lt, Nat.not_le]
  rw [hdir]
  by_cases h1 : length.toNat = frame.crcEnd
  swap; · simp [h1]
  by_cases h2 : ¬ (directory ≠ 0 ∧ (directory < 72 ∨ directory.toNat ≥ frame.offset))
  swap; · simp only [h1, h2, ne_eq, not_true_eq_false, not_false_eq_true, if_true, if_false,
    false_and, and_false, iff_false]; exact nofun
  by_cases h3 : digest = digestAdapter32 (fileData.take frame.offset)
  · simp only [h1, h2, h3, ne_eq, not_true_eq_false, not_false_eq_true, if_true,
      true_and, iff_true]; rfl
  · simp only [h1, h2, h3, ne_eq, not_true_eq_false, not_false_eq_true, if_true, if_false,
      and_false, iff_false]; exact nofun

end Tide
