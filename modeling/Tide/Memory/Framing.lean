import Tide.Format.Loop
import Tide.Memory.Reader

/-!
# The header and the frames on pointers

`tide_validate_header`, `tide_decode_record_prefix` and `tide_validate_record_integrity`
of `src/format/decoder.c` at the level of their pointers. The memory is the buffer that is
parsed, so that `data + offset` is the address `offset`. Where the source has a branch
that cannot be reached, the computation is stuck.

Each function loads within the buffer and answers what the one on lists does
(`validateHeader_run`, `decodeRecordPrefix_run`, `validateRecordIntegrity_run`). The parts
of a frame lie one behind the other, and no sum in it wraps (`RecordFrame.Ordered`).
-/

namespace Tide.Memory

open Theory

/-! ### `tide_validate_header` -/

/-- `tide_crc32c`. -/
def crc32c (data size : UInt64) : Loads UInt8 UInt32 := do
  let crc ← foldLoads crc32cByte data size.toNat 0 0xffffffff
  return ~~~crc

/-- The reads of `tide_validate_header`. -/
def readHeader : Scans UInt8 HeaderFields := do
  let major ← readerReadU16
  let minor ← readerReadU16
  let uuid ← readerReadBytes 16
  let numerator ← readerReadU32
  let denominator ← readerReadU32
  let requiredFeatures ← readerReadU64
  let optionalFeatures ← readerReadU64
  let maxRecordHint ← readerReadU64
  let firstCheckpointOffset ← readerReadU64
  let storedCrc ← readerReadU32
  return ⟨major, minor, uuid, ⟨numerator, denominator⟩, requiredFeatures, optionalFeatures,
    maxRecordHint, firstCheckpointOffset, storedCrc⟩

/-- The tests of `tide_validate_header` on the fields of the header. -/
def validateFields (header : HeaderFields) (limits : Limits) : Loads UInt8 (Except Error Unit) :=
  if header.major ≠ 1 then return .error (parseError .unsupported 8 0 0 "unsupported major version")
  else if header.uuid = List.replicate 16 0 then
    return .error (parseError .format 12 0 0 "zero file uuid")
  else if !rationalIsValid header.movieBase then
    return .error (parseError .timeline 28 0 0 "invalid movie time base")
  else if header.requiredFeatures ≠ 0 then
    return .error (parseError .unsupported 36 0 0 "unknown required feature")
  else if header.maxRecordHint > limits.maxRecordSize then
    return .error (parseError .resource 52 0 0 "record hint exceeds policy")
  else do
    let actualCrc ← crc32c 0 (72 - 4)
    if header.storedCrc ≠ actualCrc then
      return .error (parseError .integrity 68 0 0 "header crc mismatch")
    else return .ok ()

/-- `tide_validate_header`. -/
def validateHeader (size : UInt64) (limits : Limits) : Loads UInt8 (Except Error Unit) :=
  if size < 72 then return .error (parseError .truncated size.toNat 0 0 "incomplete header")
  else do
    let magic ← loadMany 0 8
    if magic ≠ magicBytes then return .error (parseError .format 0 0 0 "bad magic")
    else
      match ← (readHeader.run (readerInit 8 (72 - 8))).run with
      -- "header reader failed"
      | none => stuck
      | some (header, _) => validateFields header limits

/-! ### Frames -/

/-- `tide_record_frame`. -/
structure RecordFrame where
  type : UInt16
  flags : UInt16
  headerSize : UInt16
  alignmentLog2 : UInt8
  payloadSize : UInt64
  sequence : UInt64
  offset : UInt64
  payloadOffset : UInt64
  payloadEnd : UInt64
  paddingEnd : UInt64
  crcEnd : UInt64
  depth : UInt8

/-- The frame with numbers for its offsets. -/
def RecordFrame.values (frame : RecordFrame) : Tide.RecordFrame where
  type := frame.type
  flags := frame.flags
  headerSize := frame.headerSize
  alignmentLog2 := frame.alignmentLog2
  payloadSize := frame.payloadSize
  sequence := frame.sequence
  offset := frame.offset.toNat
  payloadOffset := frame.payloadOffset.toNat
  payloadEnd := frame.payloadEnd.toNat
  paddingEnd := frame.paddingEnd.toNat
  crcEnd := frame.crcEnd.toNat
  depth := frame.depth

/-- **The parts of a record in order**, in the range from `cursor` to `size`: none of the sums
has wrapped, and the record takes 14 bytes or more. -/
structure RecordFrame.Ordered (frame : RecordFrame) (cursor size : UInt64) : Prop where
  offset : frame.offset = cursor
  offset_lt : frame.offset < frame.payloadOffset
  payloadOffset_le : frame.payloadOffset ≤ frame.payloadEnd
  payloadEnd_le : frame.payloadEnd ≤ frame.paddingEnd
  crcEnd_le : frame.crcEnd ≤ size
  headerSize : frame.offset.toNat + frame.headerSize.toNat = frame.payloadOffset.toNat
  payloadSize : frame.payloadOffset.toNat + frame.payloadSize.toNat = frame.payloadEnd.toNat
  crcEnd : frame.paddingEnd.toNat + 4 = frame.crcEnd.toNat
  advances : cursor.toNat + 14 ≤ frame.crcEnd.toNat

/-- The reads of `tide_decode_record_prefix`. -/
def readPrefix : Scans UInt8 PrefixFields := do
  let type ← readerReadU16
  let flags ← readerReadU16
  let headerSize ← readerReadU16
  let alignmentLog2 ← readerReadU8
  readerSkip 1
  let payloadSize ← readerReadUleb128
  let sequence ← readerReadUleb128
  return ⟨type, flags, headerSize, alignmentLog2, payloadSize, sequence⟩

/-- What `tide_decode_record_prefix` answers. -/
inductive Framing where
  | frame (frame : RecordFrame)
  | truncated
  | rejected (error : Error)

/-- The answer with numbers for the offsets. -/
def Framing.values : Framing → Tide.Framing
  | .frame f => .frame f.values
  | .truncated => .truncated
  | .rejected e => .rejected e

/-- The checks of `tide_decode_record_prefix` on the fields of a prefix that took `consumed`
bytes. -/
def frameOfPrefix (p : PrefixFields) (consumed size offset : UInt64) (depth : UInt8) : Framing :=
  if p.headerSize.toUInt64 ≠ consumed ∨ p.alignmentLog2 > 4 then
    .rejected (parseError .format offset.toNat p.type depth "invalid record prefix")
  else
    match frameEnds p offset.toNat with
    | none => .rejected (parseError .resource offset.toNat p.type depth "record size overflow")
    | some (payloadEnd, paddingEnd, crcEnd) =>
      if crcEnd > size then .truncated
      else
        .frame
          { type := p.type, flags := p.flags, headerSize := p.headerSize,
            alignmentLog2 := p.alignmentLog2, payloadSize := p.payloadSize, sequence := p.sequence,
              offset := offset, payloadOffset := offset + p.headerSize.toUInt64, payloadEnd :=
                payloadEnd, paddingEnd := paddingEnd, crcEnd := crcEnd, depth := depth }

/-- `tide_decode_record_prefix`. -/
def decodeRecordPrefix (size offset : UInt64) (depth : UInt8) : Loads UInt8 Framing :=
  if size - offset < 8 then return .truncated
  else do
    match ← (readPrefix.run (readerInit offset (size - offset))).run with
    | none => return .truncated
    | some (p, reader) => return frameOfPrefix p reader.offset size offset depth

/-- `tide_validate_record_integrity`. -/
def validateRecordIntegrity (frame : RecordFrame) : Loads UInt8 (Except Error Unit) := do
  match ← findLoads (· != 0) (frame.paddingEnd.toNat - frame.payloadEnd.toNat) frame.payloadEnd with
  | some i => return .error (parseError .format i.toNat frame.type frame.depth "nonzero padding")
  | none =>
    let p0 ← load frame.paddingEnd
    let p1 ← load (frame.paddingEnd + 1)
    let p2 ← load (frame.paddingEnd + 2)
    let p3 ← load (frame.paddingEnd + 3)
    let stored := joinU32 [p0, p1, p2, p3]
    let actual ← crc32c frame.offset (frame.paddingEnd - frame.offset)
    if stored ≠ actual then
      return .error (parseError .integrity frame.paddingEnd.toNat frame.type frame.depth
        "record crc mismatch")
    else return .ok ()

/-! ### They answer what those on lists do -/

section

variable {m : Bytes} {offset size : UInt64}

/-- Reading a part of the buffer. -/
theorem read_init {α : Type} {k : ℕ} {p : Scans UInt8 α} {q : Reads UInt8 α} (hpq : Refines k p q)
    (hm : m.length < 2 ^ 64) (offset size : UInt64) (h : offset.toNat + size.toNat ≤ m.length) :
    Same m k (readerInit offset size) (q.run (Tide.readerInit (slice m offset.toNat size.toNat)))
      ((p.run (readerInit offset size)).run.run m) := hpq.range hm h

theorem crc32c_run (hm : m.length < 2 ^ 64) (offset size : UInt64)
    (h : offset.toNat + size.toNat ≤ m.length) :
    (crc32c offset size).run m = some (Tide.crc32c (slice m offset.toNat size.toNat)) := by
  have hfold := foldLoads_run hm crc32cByte (p := offset) (n := size.toNat) (i := 0)
    (by simpa using h) 0xffffffff
  rw [crc32c, run_bind_of_some hfold]
  rfl

theorem refines_header : Refines 0 readHeader Tide.readHeader := by
  refine Refines.mono (refines_u16.bind fun _ => refines_u16.bind fun _ =>
    (refines_readBytes 16).bind fun _ => refines_u32.bind fun _ =>
    refines_u32.bind fun _ => refines_u64.bind fun _ => refines_u64.bind fun _ =>
      refines_u64.bind fun _ =>
    refines_u64.bind fun _ => refines_u32.bind fun _ => refines_pure _) (Nat.zero_le _)

theorem refines_prefix : Refines 0 readPrefix Tide.readPrefix := by
  refine Refines.mono (refines_u16.bind fun _ => refines_u16.bind fun _ => refines_u16.bind fun _ =>
    refines_u8.bind fun _ =>
    (refines_skip 1).bind fun _ => refines_uleb128.bind fun _ => refines_uleb128.bind fun _ =>
    refines_pure _) (Nat.zero_le _)

/-- **`tide_validate_header`** loads within the buffer, and its reader does not fail. -/
theorem validateHeader_run (hm : m.length < 2 ^ 64) (hsize : size.toNat = m.length)
    (limits : Limits) :
    (validateHeader size limits).run m = some (Tide.validateHeader m limits) := by
  have hlt : size < 72 ↔ m.length < 72 := by rw [← hsize]; exact UInt64.lt_iff_toNat_lt
  unfold validateHeader Tide.validateHeader
  by_cases hshort : m.length < 72
  · rw [if_pos hshort, if_pos (hlt.mpr hshort), hsize]
    rfl
  have hmagic : (loadMany 0 8).run m = some (m.take 8) :=
    loadMany_run hm (p := 0) (by change 0 + 8 ≤ _; omega)
  have hcrc : (crc32c 0 (72 - 4)).run m = some (Tide.crc32c (m.take 68)) :=
    crc32c_run hm 0 (72 - 4) (by change 0 + 68 ≤ _; omega)
  have hslice : (slice m 8 64).length = 64 := length_slice (by omega)
  obtain ⟨header, hheader⟩ := takes_header (Tide.readerInit (slice m 8 64))
    (by change 0 + 64 ≤ (slice m 8 64).length; omega)
  have hread := read_init refines_header hm 8 (72 - 8) (by change 8 + 64 ≤ _; omega)
  change Same m 0 _ (Tide.readHeader.run (Tide.readerInit (slice m 8 64))) _ at hread
  rw [if_neg hshort, if_neg (fun h => hshort (hlt.mp h)), run_bind_of_some hmagic]
  split_ifs with hbad
  · rfl
  rw [hheader] at hread ⊢
  obtain ⟨w, hw, -, -⟩ := hread.eq_of_some
  rw [run_bind_of_some hw]
  dsimp only
  unfold validateFields
  split_ifs with h1 h2 h3 h4 h5 h6
  · rfl
  · rfl
  · rfl
  · rfl
  · rfl
  · rw [run_bind_of_some hcrc, if_pos h6]
    rfl
  · rw [run_bind_of_some hcrc, if_neg h6]
    rfl

/-- The checks on a prefix that lies in the range: the offset of the payload does not wrap. -/
theorem frameOfPrefix_values (p : PrefixFields) {offset size consumed : UInt64}
    (h : offset.toNat + consumed.toNat ≤ size.toNat) (depth : UInt8) :
    (frameOfPrefix p consumed size offset depth).values = Tide.frameOfPrefix p consumed.toNat
      size.toNat offset.toNat depth := by
  have hne : p.headerSize.toUInt64 ≠ consumed ↔ p.headerSize.toNat ≠ consumed.toNat := by
    rw [ne_eq, ne_eq, ← UInt64.toNat_inj, UInt16.toNat_toUInt64]
  unfold frameOfPrefix Tide.frameOfPrefix
  by_cases hhead : p.headerSize.toNat ≠ consumed.toNat ∨ p.alignmentLog2 > 4
  · rw [if_pos hhead, if_pos (hhead.imp_left hne.mpr)]
    rfl
  rw [if_neg hhead, if_neg (fun h => hhead (h.imp_left hne.mp))]
  cases hends : frameEnds p offset.toNat with
  | none => rfl
  | some ends =>
    obtain ⟨payloadEnd, paddingEnd, crcEnd⟩ := ends
    dsimp only
    by_cases hcrc : crcEnd.toNat > size.toNat
    · rw [if_pos hcrc, if_pos (UInt64.lt_iff_toNat_lt.mpr hcrc)]
      rfl
    · rw [if_neg hcrc, if_neg (fun h => hcrc (UInt64.lt_iff_toNat_lt.mp h))]
      rw [not_or, not_not] at hhead
      have hlt := size.toNat_lt
      have hadd : (offset + p.headerSize.toUInt64).toNat = offset.toNat + p.headerSize.toNat := by
        rw [toNat_add_of_lt (by rw [UInt16.toNat_toUInt64]; omega), UInt16.toNat_toUInt64]
      simp only [Framing.values, RecordFrame.values, hadd]

/-- **`tide_decode_record_prefix`** loads within the range. -/
theorem decodeRecordPrefix_run (hm : m.length < 2 ^ 64) (hsize : size.toNat ≤ m.length)
    (hoff : offset ≤ size) (depth : UInt8) :
    ∃ F, (decodeRecordPrefix size offset depth).run m = some F ∧
      F.values = Tide.decodeRecordPrefix m size.toNat offset.toNat depth := by
  have hle := UInt64.le_iff_toNat_le.mp hoff
  have hsub := UInt64.toNat_sub_of_le _ _ hoff
  have hlt : size - offset < 8 ↔ size.toNat - offset.toNat < 8 := by
    rw [← hsub]; exact UInt64.lt_iff_toNat_lt
  have hread := read_init refines_prefix hm offset (size - offset) (by omega)
  unfold decodeRecordPrefix Tide.decodeRecordPrefix
  rw [hsub] at hread
  by_cases hshort : size.toNat - offset.toNat < 8
  · rw [if_pos hshort, if_pos (hlt.mpr hshort)]
    exact ⟨_, rfl, rfl⟩
  rw [if_neg hshort, if_neg (fun h => hshort (hlt.mp h))]
  cases hq : Tide.readPrefix.run
    (Tide.readerInit (slice m offset.toNat (size.toNat - offset.toNat))) with
  | none =>
    rw [hq] at hread
    rw [run_bind_of_some hread.eq_of_none]
    exact ⟨_, rfl, rfl⟩
  | some x =>
    obtain ⟨p, reader⟩ := x
    rw [hq] at hread
    obtain ⟨w, hw, hsees, hmoves⟩ := hread.eq_of_some
    have hwithin := hsees.within
    rw [hmoves.size] at hwithin
    change w.offset.toNat ≤ (size - offset).toNat at hwithin
    have hends : offset.toNat + w.offset.toNat ≤ size.toNat := by omega
    have hvalues := frameOfPrefix_values p hends depth
    rw [run_bind_of_some hw]
    refine ⟨_, rfl, hvalues.trans ?_⟩
    rw [← hsees.position]

/-- **The frames are in order**, and no sum in them wraps. -/
theorem RecordFrame.ordered_of_values {frame : RecordFrame} {depth : UInt8}
    (h : Tide.decodeRecordPrefix m size.toNat offset.toNat depth = .frame frame.values) :
    frame.Ordered offset size := by
  have hlt := size.toNat_lt
  obtain ⟨head, n, -, hfit, hle, -, hframe⟩ :=
    (decodeRecordPrefix_eq_frame_iff (by unfold sizeMax; omega)).mp h
  have hpad := head.le_paddedSize n
  have hbounds := head.headerSize_bounds n
  have hge := head.size_ge n
  have hsize : head.size n = head.paddedSize n + 4 := rfl
  have hheader := head.toNat_headerSize n
  have hpayload := head.toNat_payloadSize hfit
  simp only [RecordFrame.values, RecordHead.frameAt, Tide.RecordFrame.mk.injEq] at hframe
  obtain ⟨-, -, hh, -, hp, -, ho, hpo, hpe, hpa, hc, -⟩ := hframe
  rw [← hh] at hheader
  rw [← hp] at hpayload
  refine ⟨UInt64.toNat_inj.mp ho, ?_, ?_, ?_, ?_, ?_, ?_, ?_, ?_⟩
  · rw [UInt64.lt_iff_toNat_lt]; omega
  · rw [UInt64.le_iff_toNat_le]; omega
  · rw [UInt64.le_iff_toNat_le]; omega
  · rw [UInt64.le_iff_toNat_le]; omega
  all_goals omega

/-- **`tide_validate_record_integrity`** loads within the buffer. -/
theorem validateRecordIntegrity_run (hm : m.length < 2 ^ 64) (hsize : size.toNat ≤ m.length)
    {frame : RecordFrame} (h : frame.Ordered offset size) :
    (validateRecordIntegrity frame).run m = some (Tide.validateRecordIntegrity m frame.values) := by
  have hcrc := h.crcEnd
  have hle := UInt64.le_iff_toNat_le.mp h.crcEnd_le
  have hpad := UInt64.le_iff_toNat_le.mp h.payloadEnd_le
  have hpay := UInt64.le_iff_toNat_le.mp h.payloadOffset_le
  have hoff := UInt64.lt_iff_toNat_lt.mp h.offset_lt
  have hsub : (frame.paddingEnd - frame.offset).toNat = frame.paddingEnd.toNat -
      frame.offset.toNat :=
    UInt64.toNat_sub_of_le _ _ (UInt64.le_iff_toNat_le.mpr (by omega))
  have hfind := findLoads_run hm (· != 0) (n := frame.paddingEnd.toNat - frame.payloadEnd.toNat)
    (i := frame.payloadEnd) (by omega)
  have hactual := crc32c_run hm frame.offset (frame.paddingEnd - frame.offset) (by omega)
  rw [hsub] at hactual
  unfold validateRecordIntegrity Tide.validateRecordIntegrity
  rw [run_bind_of_some hfind]
  have hvalues : slice m frame.values.payloadEnd (frame.values.paddingEnd -
      frame.values.payloadEnd) = (m.drop frame.payloadEnd.toNat).take (frame.paddingEnd.toNat -
        frame.payloadEnd.toNat) := rfl
  rw [hvalues]
  cases hidx : ((m.drop frame.payloadEnd.toNat).take (frame.paddingEnd.toNat -
    frame.payloadEnd.toNat)).findIdx? (· != 0) with
  | some i =>
    have hi := (List.findIdx?_eq_some_iff_findIdx_eq.mp hidx).1
    rw [List.length_take] at hi
    have hofNat : (UInt64.ofNat i).toNat = i :=
      UInt64.toNat_ofNat_of_lt' (by change i < 2 ^ 64; omega)
    have hadd : (frame.payloadEnd + UInt64.ofNat i).toNat = frame.payloadEnd.toNat + i := by
      rw [toNat_add_of_lt (by omega), hofNat]
    rw [Option.map_some]
    dsimp only
    rw [hadd]
    rfl
  | none =>
    have hload : ∀ i : UInt64, i.toNat < 4 → (load (frame.paddingEnd + i)).run m =
        some ((slice m frame.paddingEnd.toNat 4).getD i.toNat 0) := fun i hi =>
      load_prefix i hm (by omega) hi (List.prefix_refl _)
    have h0 := hload 0 (by decide)
    rw [UInt64.add_zero] at h0
    rw [Option.map_none]
    dsimp only
    rw [run_bind_of_some h0, run_bind_of_some (hload 1 (by decide)),
      run_bind_of_some (hload 2 (by decide)), run_bind_of_some (hload 3 (by decide)),
        run_bind_of_some hactual]
    rw [← apply_ite pure]
    exact congrArg some (if_congr (by rfl) rfl rfl)

end

end Tide.Memory
