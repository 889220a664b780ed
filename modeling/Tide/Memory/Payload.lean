import Tide.Memory.Framing

/-!
# The payloads on pointers

The readers of payloads in `src/format/decoder.c` at the level of their pointers:
`tide_emit_stream`, `tide_emit_packet` and `tide_emit_simple_record`. The offsets of a frame are
`size_t`, and so are the comparisons with them.

The counts of entries are what the file says, up to `UINT64_MAX`. The loops over entries get
as much fuel as the payload has bytes, and one more; each entry takes some bytes or stops the
loop, so that it is not used up (`refinesTest_forEntries`).
-/

namespace Tide.Memory

open Theory

/-! ### Programs that read and check -/

/-- A program that reads a payload and stops at the first error. -/
abbrev Checks (α : Type) := Tests UInt8 Error α

/-- The reads and tests of one `if`, and the error it sets. -/
def orError {α : Type} (e : Error) (p : Scans UInt8 α) : Checks α := p.orError e

/-- `if (reader.offset != payload_size)`. -/
def expectEnd (e : Error) : Checks Unit := fun reader =>
  ExceptT.mk (pure (if reader.offset ≠ reader.size then .error e else .ok ((), reader)))

/-- `for (i = 0; i < count; ++i)`, from the `i`-th round on, with fuel for that many tests of
`i < count`. -/
def entriesLoop {S : Type} (count : UInt64) (entry : UInt64 → S → Checks S) :
    (fuel : ℕ) → (i : UInt64) → S → Checks S
  | 0, _, _ => fun _ => ExceptT.mk stuck
  | fuel + 1, i, previous =>
    if i < count then do
      let next ← entry i previous
      entriesLoop count entry fuel (i + 1) next
    else pure previous

/-- `for (i = 0; i < count; ++i)`. -/
def forEntries {S : Type} (count : UInt64) (entry : UInt64 → S → Checks S) (s : S) : Checks S :=
  fun reader =>
  entriesLoop count entry (reader.size.toNat + 1) 0 s reader

/-- The value read from a payload to its end. -/
def wholePayload {α : Type} (p : Scans UInt8 α) (payload payloadSize : UInt64) :
    Loads UInt8 (Option α) := do
  match ← (p.run (readerInit payload payloadSize)).run with
  | some (a, reader) => if reader.offset ≠ payloadSize then return none else return some a
  | none => return none

/-! ### Streams and packets -/

/-- The reads of `tide_emit_stream`. -/
def readStream : Scans UInt8 StreamInfo := do
  let trackId ← readerReadU32
  let generation ← readerReadU32
  let mediaKind ← readerReadU16
  readerSkip 2
  let codecTag ← readerReadU32
  let numerator ← readerReadU32
  let denominator ← readerReadU32
  let configSize ← readerReadUleb128
  let config ← readerReadBytes configSize
  return ⟨trackId, generation, mediaKind, codecTag, ⟨numerator, denominator⟩, config⟩

/-- The reads of `tide_emit_packet`. -/
def readPacket : Scans UInt8 PacketInfo := do
  let trackId ← readerReadU32
  let generation ← readerReadU32
  let packetSeq ← readerReadU64
  let dts ← readerReadI64
  let pts ← readerReadI64
  let duration ← readerReadI64
  let flags ← readerReadU32
  let payloadSize ← readerReadUleb128
  let payload ← readerReadBytes payloadSize
  return ⟨trackId, generation, packetSeq, dts, pts, duration, flags, payload⟩

/-! ### `tide_emit_simple_record` -/

section Simple

variable (limits : Limits) (tracks : List TrackSnapshot) (frame : RecordFrame)

/-- The errors set at the record's payload. -/
def frameError (status : Status) (message : String) : Error :=
  parseError status frame.payloadOffset.toNat frame.type frame.depth message

/-- A track and a count of entries, up to `maxEntries`. -/
def readTableHead (maxEntries : UInt32) : Scans UInt8 UInt64 := do
  let trackId ← readerReadU32
  let generation ← readerReadU32
  let count ← readerReadUleb128
  guard (¬ count > maxEntries.toUInt64)
  guard ((findTrack tracks trackId generation).isSome)
  return count

/-- An entry of a packet table. -/
def readPacketTableEntry (i previousEnd previousSeq : UInt64) : Scans UInt8 (UInt64 × UInt64) := do
  let packetSeq ← readerReadU64
  let _dts ← readerReadI64
  let _pts ← readerReadI64
  let duration ← readerReadI64
  let _flags ← readerReadU32
  let rangeOffset ← readerReadU64
  let rangeSize ← readerReadU64
  guard (¬ duration < 0)
  match checkedAddU64 rangeOffset rangeSize with
  | none => failure
  | some rangeEnd =>
    guard (¬ (i ≠ 0 ∧ packetSeq ≤ previousSeq))
    guard (¬ rangeOffset < previousEnd)
    return (rangeEnd, packetSeq)

/-- `TIDE_RECORD_PACKET_TABLE`. -/
def checkPacketTable : Checks Unit := do
  let count ← orError (frameError frame .resource "packet table limit")
    (readTableHead tracks limits.maxPacketTableEntries)
  let _ ← forEntries count
    (fun i previous => orError (frameError frame .format "bad packet table entry")
    (readPacketTableEntry i previous.1 previous.2)) ((0, 0) : UInt64 × UInt64)
  expectEnd (frameError frame .format "packet table trailing bytes")

/-- The output interval of an entry of an edit list. -/
def readEditEntry : Scans UInt8 (Int64 × Int64) := do
  let outputStart ← readerReadI64
  let outputDuration ← readerReadI64
  let _sourceStart ← readerReadI64
  let numerator ← readerReadU32
  let denominator ← readerReadU32
  guard (¬ outputDuration < 0)
  guard (¬ outputStart > Int64.maxValue - outputDuration)
  guard (rationalIsValid ⟨numerator, denominator⟩)
  return (outputStart, outputDuration)

/-- `TIDE_RECORD_EDIT_LIST`. -/
def checkEditList : Checks Unit := do
  let count ← orError (frameError frame .timeline "bad edit list")
    (readTableHead tracks limits.maxEditEntries)
  let _ ← forEntries count (fun i previousEnd => do
    let (outputStart, outputDuration) ← orError (frameError frame .timeline "bad edit entry")
      readEditEntry
    let outputEnd := outputStart + outputDuration
    orError (frameError frame .timeline "overlapping edit entries")
      (guard (¬ (i ≠ 0 ∧ outputStart < previousEnd)))
    return outputEnd) Int64.minValue
  expectEnd (frameError frame .format "edit list trailing bytes")

/-- `TIDE_RECORD_DISCONTINUITY`. -/
def checkDiscontinuity : Checks Unit := do
  let bad := frameError frame .format "bad discontinuity"
  orError bad do
    let trackId ← readerReadU32
    let generation ← readerReadU32
    let epoch ← readerReadU64
    let _reason ← readerReadU32
    guard (¬ epoch = 0)
    guard (¬ (trackId ≠ 0 ∧ findTrack tracks trackId generation = none))
  expectEnd bad

/-- The sort key of an entry of a seek index. -/
def readSeekEntry : Scans UInt8 UInt64 := do
  let trackId ← readerReadU32
  let generation ← readerReadU32
  let _packetSeq ← readerReadU64
  let pts ← readerReadI64
  let groupOffset ← readerReadU64
  let recordOffset ← readerReadU64
  guard ((findTrack tracks trackId generation).isSome)
  guard (¬ groupOffset < 72)
  guard (¬ recordOffset < groupOffset)
  guard (¬ recordOffset ≥ frame.offset)
  return (trackId.toUInt64 <<< 32) ^^^ (if pts < 0 then 0 else pts).toUInt64

/-- `TIDE_RECORD_SEEK_INDEX`. -/
def checkSeekIndex : Checks Unit := do
  let count ← orError (frameError frame .index "bad seek index header") do
    let _indexGeneration ← readerReadU64
    readerReadUleb128
  let _ ← forEntries count (fun i previousSortKey => do
    let sortKey ← orError (frameError frame .index "bad seek index entry")
      (readSeekEntry tracks frame)
    orError (frameError frame .index "unsorted seek index")
      (guard (¬ (i ≠ 0 ∧ sortKey < previousSortKey)))
    return sortKey) (0 : UInt64)
  expectEnd (frameError frame .index "seek index trailing bytes")

/-- `TIDE_RECORD_CHECKPOINT`. -/
def checkCheckpoint : Checks Unit := do
  let count ← orError (frameError frame .format "bad checkpoint") do
    let _groupSequence ← readerReadU64
    let prefixOffset ← readerReadU64
    let _digest ← readerReadBytes 32
    let count ← readerReadUleb128
    guard (¬ prefixOffset > frame.offset)
    guard (¬ count > limits.maxTracks.toUInt64)
    return count
  let _ ← forEntries count
    (fun _ _ => orError (frameError frame .format "bad checkpoint descriptor") do
    let trackId ← readerReadU32
    let generation ← readerReadU32
    guard ((findTrack tracks trackId generation).isSome)) ()
  expectEnd (frameError frame .format "checkpoint trailing bytes")

/-- An entry of an index directory. -/
def readDirectoryEntry (i previousEnd previousGeneration : UInt64) :
    Scans UInt8 (UInt64 × UInt64) := do
  let generation ← readerReadU64
  let startTime ← readerReadI64
  let endTime ← readerReadI64
  let offset ← readerReadU64
  guard (¬ startTime < 0)
  guard (¬ endTime < startTime)
  guard (¬ offset < 72)
  guard (¬ offset ≥ frame.offset)
  guard (¬ (i ≠ 0 ∧ generation ≤ previousGeneration))
  guard (¬ (i ≠ 0 ∧ startTime.toUInt64 < previousEnd))
  return (endTime.toUInt64, generation)

/-- `TIDE_RECORD_INDEX_DIRECTORY`. -/
def checkIndexDirectory : Checks Unit := do
  let count ← orError (frameError frame .index "bad index directory") readerReadUleb128
  let _ ← forEntries count
    (fun i previous => orError (frameError frame .index "bad index directory entry")
    (readDirectoryEntry frame i previous.1 previous.2)) ((0, 0) : UInt64 × UInt64)
  expectEnd (frameError frame .index "index directory trailing bytes")

/-- The reads of a footer. -/
def readFooter : Scans UInt8 (UInt64 × UInt64 × Bytes) := do
  let fileLength ← readerReadU64
  let indexDirectoryOffset ← readerReadU64
  let _lastCheckpointSequence ← readerReadUleb128
  let digest ← readerReadBytes 32
  return (fileLength, indexDirectoryOffset, digest)

/-- `tide_digest_adapter32`. -/
def digestAdapter32 (data size : UInt64) : Loads UInt8 Bytes := do
  let base ← crc32c data size
  return (List.range 8).flatMap fun i => writeU32 (base ^^^ (0x9e3779b9 * (UInt32.ofNat i + 1)))

/-- `TIDE_RECORD_FOOTER`. -/
def checkFooter : Checks Unit := do
  let bad := frameError frame .format "bad footer"
  let (fileLength, indexDirectoryOffset, digest) ← orError bad readFooter
  expectEnd bad
  orError bad (guard (¬ fileLength ≠ frame.crcEnd))
  orError bad (guard (¬ (indexDirectoryOffset ≠ 0 ∧
    (indexDirectoryOffset < 72 ∨ indexDirectoryOffset ≥ frame.offset))))
  let expectedDigest ← (digestAdapter32 0 frame.offset : Checks Bytes)
  orError (frameError frame .integrity "footer digest mismatch") (guard (¬ digest ≠ expectedDigest))

/-- `tide_emit_simple_record`: the check of the record's type. -/
def simpleRecordChecks : Checks Unit :=
  match recordTypeOf frame.type with
  | some .packetTable => checkPacketTable limits tracks frame
  | some .editList => checkEditList limits tracks frame
  | some .discontinuity => checkDiscontinuity tracks frame
  | some .seekIndex => checkSeekIndex tracks frame
  | some .checkpoint => checkCheckpoint limits tracks frame
  | some .indexDirectory => checkIndexDirectory frame
  | some .footer => checkFooter frame
  | _ => pure ()

/-- `tide_emit_simple_record`. -/
def emitSimpleRecord (payload payloadSize : UInt64) : Loads UInt8 (Except Error Unit) :=
  ((simpleRecordChecks limits tracks frame).run' (readerInit payload payloadSize)).run

end Simple

/-! ### They refine those on lists -/

section

variable {m : Bytes}

theorem refinesTest_orError {α : Type} {k : ℕ} {p : Scans UInt8 α} {q : Reads UInt8 α}
    (h : Refines k p q) (hm : m.length < 2 ^ 64) (e : Error) :
    RefinesTest m k (orError e p) (Tide.orError e q) :=
  h.orError hm e fun c => by
    change Tide.orError e q c = _
    unfold Tide.orError
    cases q.run c <;> rfl

theorem refinesTest_expectEnd (e : Error) : RefinesTest m 0 (expectEnd e) (Tide.expectEnd e) := by
  intro w c hs
  have hiff : w.offset ≠ w.size ↔ c.offset ≠ c.data.length := by
    rw [hs.length, hs.position, ne_eq, ne_eq, UInt64.toNat_inj]
  change SameTest m 0 w (if _ then _ else _) (some (if _ then _ else _))
  by_cases hend : c.offset ≠ c.data.length
  · rw [if_pos hend, if_pos (hiff.mpr hend)]
    exact .stops e
  · rw [if_neg hend, if_neg (fun h => hend (hiff.mp h))]
    exact .passes hs (.refl w)

/-- Each round takes a byte or stops the loop, so that the fuel lasts. -/
theorem sameTest_entriesLoop {S : Type} {count : UInt64} {entry : UInt64 → S → Checks S}
    {entry' : ℕ → S → Tide.Checks S} (h : ∀ i s, RefinesTest m 1 (entry i s) (entry' i.toNat s))
    {fuel : ℕ} {i : UInt64} (hi : i ≤ count) {w : Window} {c : Cursor UInt8} (hs : w.Sees m c)
    (hfuel : w.size.toNat - w.offset.toNat < fuel) (s : S) :
    SameTest m 0 w ((Tide.forEntries entry' (count.toNat - i.toNat) i.toNat s).run c)
      ((entriesLoop count entry fuel i s).exec w m) := by
  induction fuel generalizing i w c s with
  | zero => omega
  | succ fuel ih =>
    rw [entriesLoop]
    by_cases hlt : i < count
    · have hnat := UInt64.lt_iff_toNat_lt.mp hlt
      have hcount := count.toNat_lt
      have hsucc : (i + 1).toNat = i.toNat + 1 := toNat_succ_of_lt (by omega)
      have hrounds : count.toNat - i.toNat = count.toNat - (i + 1).toNat + 1 := by omega
      have hnext : i + 1 ≤ count := by rw [UInt64.le_iff_toNat_le]; omega
      rw [if_pos hlt, Tests.exec_bind, hrounds, Tide.forEntries, ← hsucc]
      refine ((h i s w c hs).bind fun next w' c' hs' hmoves => ?_).mono (Nat.zero_le (1 + 0))
      have hsize := hmoves.size
      have hoffset := hmoves.offset
      have hwithin := hs'.within
      exact ih hnext hs' (by rw [hsize] at hwithin ⊢; omega) next
    · have hnat := (UInt64.not_lt.mp hlt)
      have heq : i = count := UInt64.le_antisymm hi hnat
      rw [if_neg hlt, heq, Nat.sub_self]
      exact .passes hs (.refl w)

/-- **The loops over entries end**, whatever their count: they do what those on lists do. -/
theorem refinesTest_forEntries {S : Type} {count : UInt64} {entry : UInt64 → S → Checks S}
    {entry' : ℕ → S → Tide.Checks S} (h : ∀ i s, RefinesTest m 1 (entry i s) (entry' i.toNat s))
    (s : S) :
    RefinesTest m 0 (forEntries count entry s) (Tide.forEntries entry' count.toNat 0 s) :=
      fun w _ hs =>
  sameTest_entriesLoop h (UInt64.zero_le) hs (show w.size.toNat - w.offset.toNat < w.size.toNat +
    1 by omega) s

/-- A value that is read to the end of its payload. -/
theorem wholePayload_run {α : Type} {k : ℕ} {p : Scans UInt8 α} {q : Reads UInt8 α}
    (hpq : Refines k p q) (hm : m.length < 2 ^ 64) {payload size : UInt64}
    (h : payload.toNat + size.toNat ≤ m.length) :
    (wholePayload p payload size).run m =
      some (Tide.wholePayload q (slice m payload.toNat size.toNat)) := by
  have hread := read_init hpq hm _ _ h
  have hlen : (slice m payload.toNat size.toNat).length = size.toNat := length_slice h
  unfold wholePayload Tide.wholePayload
  cases hq : q.run (Tide.readerInit (slice m payload.toNat size.toNat)) with
  | none =>
    rw [hq] at hread
    rw [run_bind_of_some hread.eq_of_none]
    rfl
  | some x =>
    obtain ⟨a, reader⟩ := x
    rw [hq] at hread
    obtain ⟨w, hw, hsees, -⟩ := hread.eq_of_some
    have hiff : w.offset ≠ size ↔ reader.offset ≠ (slice m payload.toNat size.toNat).length := by
      rw [hlen, hsees.position, ne_eq, ne_eq, UInt64.toNat_inj]
    rw [run_bind_of_some hw]
    dsimp only
    by_cases hend : reader.offset ≠ (slice m payload.toNat size.toNat).length
    · rw [if_pos hend, if_pos (hiff.mpr hend)]
      rfl
    · rw [if_neg hend, if_neg (fun h => hend (hiff.mp h))]
      rfl

theorem refines_stream : Refines 0 readStream Tide.readStream :=
  Refines.mono (refines_u32.bind fun _ => refines_u32.bind fun _ => refines_u16.bind fun _ =>
    (refines_skip 2).bind fun _ =>
    refines_u32.bind fun _ => refines_u32.bind fun _ => refines_u32.bind fun _ =>
      refines_uleb128.bind fun n =>
    (refines_readBytes n).mono (Nat.zero_le _) |>.bind fun _ => refines_pure _) (Nat.zero_le _)

theorem refines_packet : Refines 0 readPacket Tide.readPacket :=
  Refines.mono (refines_u32.bind fun _ => refines_u32.bind fun _ => refines_u64.bind fun _ =>
    refines_i64.bind fun _ =>
    refines_i64.bind fun _ => refines_i64.bind fun _ => refines_u32.bind fun _ =>
      refines_uleb128.bind fun n =>
    (refines_readBytes n).mono (Nat.zero_le _) |>.bind fun _ => refines_pure _) (Nat.zero_le _)

end

/-! ### The simple records -/

section

variable {limits : Limits} {tracks : List TrackSnapshot} {frame : RecordFrame}

/-- The first round is the one with `i = 0`. -/
theorem toNat_ne_zero_iff (i : UInt64) : i ≠ 0 ↔ i.toNat ≠ 0 := by
  rw [ne_eq, ne_eq, ← UInt64.toNat_inj, UInt64.toNat_zero]

theorem refines_tableHead (maxEntries : UInt32) :
    Refines 0 (readTableHead tracks maxEntries) (Tide.readTableHead tracks maxEntries) :=
  Refines.mono (refines_u32.bind fun _ => refines_u32.bind fun _ => refines_uleb128.bind fun _ =>
    (refines_guard .rfl).bind fun _ => (refines_guard .rfl).bind fun _ => refines_pure _)
      (Nat.zero_le _)

theorem refines_packetTableEntry (i previousEnd previousSeq : UInt64) :
    Refines 1 (readPacketTableEntry i previousEnd previousSeq)
    (Tide.readPacketTableEntry i.toNat previousEnd previousSeq) := by
  refine Refines.mono (j := 1) (refines_u64.bind (k := 0) fun packetSeq => Refines.mono
    (refines_i64.bind fun _ => refines_i64.bind fun _ =>
    refines_i64.bind fun _ => refines_u32.bind fun _ => refines_u64.bind fun rangeOffset =>
      refines_u64.bind fun rangeSize =>
    (refines_guard .rfl).bind (k := 0) fun _ => ?_) (Nat.zero_le _)) (by decide)
  cases checkedAddU64 rangeOffset rangeSize with
  | none => exact refines_failure 0
  | some rangeEnd =>
    exact (refines_guard (and_congr_left' (toNat_ne_zero_iff i)).not).bind fun _ =>
      (refines_guard .rfl).bind fun _ => refines_pure _

theorem refines_editEntry : Refines 1 readEditEntry Tide.readEditEntry :=
  Refines.mono (refines_i64.bind fun _ => refines_i64.bind fun _ => refines_i64.bind fun _ =>
    refines_u32.bind fun _ =>
    refines_u32.bind fun _ => (refines_guard .rfl).bind fun _ => (refines_guard .rfl).bind fun _ =>
      (refines_guard .rfl).bind fun _ =>
    refines_pure _) (by decide)

theorem refines_seekEntry :
    Refines 1 (readSeekEntry tracks frame) (Tide.readSeekEntry tracks frame.values) :=
  Refines.mono (refines_u32.bind fun _ => refines_u32.bind fun _ => refines_u64.bind fun _ =>
    refines_i64.bind fun _ =>
    refines_u64.bind fun _ => refines_u64.bind fun _ => (refines_guard .rfl).bind fun _ =>
      (refines_guard .rfl).bind fun _ =>
    (refines_guard .rfl).bind fun _ => (refines_guard UInt64.le_iff_toNat_le.not).bind fun _ =>
      refines_pure _) (by decide)

theorem refines_directoryEntry (i previousEnd previousGeneration : UInt64) :
    Refines 1 (readDirectoryEntry frame i previousEnd previousGeneration)
      (Tide.readDirectoryEntry frame.values i.toNat previousEnd previousGeneration) :=
  Refines.mono (refines_u64.bind fun _ => refines_i64.bind fun _ => refines_i64.bind fun _ =>
    refines_u64.bind fun _ =>
    (refines_guard .rfl).bind fun _ => (refines_guard .rfl).bind fun _ =>
      (refines_guard .rfl).bind fun _ =>
    (refines_guard UInt64.le_iff_toNat_le.not).bind fun _ =>
      (refines_guard (and_congr_left' (toNat_ne_zero_iff i)).not).bind fun _ =>
    (refines_guard (and_congr_left' (toNat_ne_zero_iff i)).not).bind fun _ => refines_pure _)
      (by decide)

theorem refines_footer : Refines 0 readFooter Tide.readFooter :=
  Refines.mono (refines_u64.bind fun _ => refines_u64.bind fun _ => refines_uleb128.bind fun _ =>
    (refines_readBytes 32).bind fun _ =>
    refines_pure _) (Nat.zero_le _)

/-! ### The checks -/

variable {m : Bytes}

/-- A table: a head, entries, and nothing after them. -/
theorem refinesTest_table {S : Type} {head : Checks UInt64} {head' : Tide.Checks UInt64}
    {entry : UInt64 → S → Checks S} {entry' : ℕ → S → Tide.Checks S}
    (hhead : RefinesTest m 0 head head')
    (hentry : ∀ i s, RefinesTest m 1 (entry i s) (entry' i.toNat s)) (s : S) (e : Error) :
    RefinesTest m 0 (do
      let count ← head
      let _ ← forEntries count entry s
      expectEnd e) (do
      let count ← head'
      let _ ← Tide.forEntries entry' count.toNat 0 s
      Tide.expectEnd e) :=
  hhead.bind fun _ => (refinesTest_forEntries hentry s).bind fun _ => refinesTest_expectEnd e

theorem refinesTest_packetTable (hm : m.length < 2 ^ 64) :
    RefinesTest m 0 (checkPacketTable limits tracks frame)
    (Tide.checkPacketTable limits tracks frame.values) :=
  refinesTest_table (refinesTest_orError (refines_tableHead _) hm _)
    (fun i s => refinesTest_orError (refines_packetTableEntry i s.1 s.2) hm _) _ _

theorem refinesTest_editList (hm : m.length < 2 ^ 64) :
    RefinesTest m 0 (checkEditList limits tracks frame)
    (Tide.checkEditList limits tracks frame.values) :=
  refinesTest_table (refinesTest_orError (refines_tableHead _) hm _)
    (fun i _ => (refinesTest_orError refines_editEntry hm _).bind fun _ =>
      (refinesTest_orError (refines_guard (and_congr_left' (toNat_ne_zero_iff i)).not) hm _).bind
        fun _ => refinesTest_pure _) _ _

theorem refinesTest_discontinuity (hm : m.length < 2 ^ 64) :
    RefinesTest m 0 (checkDiscontinuity tracks frame)
    (Tide.checkDiscontinuity tracks frame.values) :=
  RefinesTest.mono ((refinesTest_orError (refines_u32.bind fun _ => refines_u32.bind fun _ =>
    refines_u64.bind fun _ => refines_u32.bind fun _ => (refines_guard .rfl).bind fun _ =>
    refines_guard .rfl) hm _).bind fun _ => refinesTest_expectEnd _) (Nat.zero_le _)

theorem refinesTest_seekIndex (hm : m.length < 2 ^ 64) :
    RefinesTest m 0 (checkSeekIndex tracks frame) (Tide.checkSeekIndex tracks frame.values) :=
  refinesTest_table ((refinesTest_orError (refines_u64.bind fun _ => refines_uleb128) hm _).mono
    (Nat.zero_le _))
    (fun i _ => (refinesTest_orError refines_seekEntry hm _).bind fun _ =>
      (refinesTest_orError (refines_guard (and_congr_left' (toNat_ne_zero_iff i)).not) hm _).bind
        fun _ => refinesTest_pure _) _ _

theorem refinesTest_checkpoint (hm : m.length < 2 ^ 64) :
    RefinesTest m 0 (checkCheckpoint limits tracks frame)
    (Tide.checkCheckpoint limits tracks frame.values) :=
  refinesTest_table ((refinesTest_orError (refines_u64.bind fun _ => refines_u64.bind fun _ =>
    (refines_readBytes 32).bind fun _ =>
      refines_uleb128.bind fun _ => (refines_guard UInt64.lt_iff_toNat_lt.not).bind fun _ =>
        (refines_guard .rfl).bind fun _ =>
      refines_pure _) hm _).mono (Nat.zero_le _))
    (fun _ _ => (refinesTest_orError (refines_u32.bind fun _ => refines_u32.bind fun _ =>
      refines_guard .rfl) hm _).mono (by decide)) _ _

theorem refinesTest_indexDirectory (hm : m.length < 2 ^ 64) :
    RefinesTest m 0 (checkIndexDirectory frame) (Tide.checkIndexDirectory frame.values) :=
  refinesTest_table ((refinesTest_orError refines_uleb128 hm _).mono (Nat.zero_le _))
    (fun i s => refinesTest_orError (refines_directoryEntry i s.1 s.2) hm _) _ _

/-- The digest is that of the bytes before the record, which are loaded. -/
theorem refinesTest_footer (hm : m.length < 2 ^ 64) (hle : frame.offset.toNat ≤ m.length) :
    RefinesTest m 0 (checkFooter frame) (Tide.checkFooter frame.values m) := by
  have hcrc : (crc32c 0 frame.offset).run m = some (Tide.crc32c (m.take frame.offset.toNat)) :=
    crc32c_run hm 0 frame.offset (by change 0 + _ ≤ _; omega)
  have hdigest : (digestAdapter32 0 frame.offset).run m =
      some (Tide.digestAdapter32 (m.take frame.offset.toNat)) := by
    rw [digestAdapter32, run_bind_of_some hcrc]
    rfl
  refine (refinesTest_orError refines_footer hm _).bind (k := 0) fun x => ?_
  refine (refinesTest_expectEnd _).bind (k := 0) fun _ => ?_
  refine (refinesTest_orError (refines_guard (not_congr (not_congr UInt64.toNat_inj.symm))) hm
    _).bind (k := 0) fun _ => ?_
  refine (refinesTest_orError
    (refines_guard (and_congr_right' (or_congr_right UInt64.le_iff_toNat_le)).not) hm _).bind (k :=
      0) fun _ => ?_
  exact RefinesTest.load_bind hdigest (refinesTest_orError (refines_guard .rfl) hm _)

theorem refinesTest_simpleRecordChecks (hm : m.length < 2 ^ 64)
    (hle : frame.offset.toNat ≤ m.length) :
    RefinesTest m 0 (simpleRecordChecks limits tracks frame)
    (Tide.simpleRecordChecks limits tracks frame.values m) := by
  unfold simpleRecordChecks Tide.simpleRecordChecks
  have htype : frame.values.type = frame.type := rfl
  rw [htype]
  cases recordTypeOf frame.type with
  | none => exact refinesTest_pure ()
  | some type =>
    cases type with
    | group | streamDesc | packet => exact refinesTest_pure ()
    | packetTable => exact refinesTest_packetTable hm
    | editList => exact refinesTest_editList hm
    | discontinuity => exact refinesTest_discontinuity hm
    | seekIndex => exact refinesTest_seekIndex hm
    | checkpoint => exact refinesTest_checkpoint hm
    | indexDirectory => exact refinesTest_indexDirectory hm
    | footer => exact refinesTest_footer hm hle

/-- **`tide_emit_simple_record`** loads within the payload, and the bytes before the record. -/
theorem emitSimpleRecord_run (limits : Limits) (tracks : List TrackSnapshot)
    (hm : m.length < 2 ^ 64) (hle : frame.offset.toNat ≤ m.length) {payload size : UInt64}
    (h : payload.toNat + size.toNat ≤ m.length) :
    (emitSimpleRecord limits tracks frame payload size).run m =
      some (Tide.emitSimpleRecord limits tracks frame.values m
        (slice m payload.toNat size.toNat)) :=
  (refinesTest_simpleRecordChecks hm hle).run' (Window.sees_range h)

end

end Tide.Memory
