import Tide.Format.Framing
import Tide.Format.Writer

/-!
# The file header

The model of `tide_validate_header` of `src/format/decoder.c`. A `Header` is what
the 72 bytes say, with the fields that the decoder ignores; `validateHeader`
accepts the bytes of valid headers, whatever follows them, and nothing else
(`validateHeader_eq_ok_iff`).
-/

namespace Tide

open Theory

/-- The fields behind the magic bytes. -/
structure HeaderFields where
  major : UInt16
  minor : UInt16
  uuid : Bytes
  movieBase : Rational
  requiredFeatures : UInt64
  optionalFeatures : UInt64
  maxRecordHint : UInt64
  firstCheckpointOffset : UInt64
  storedCrc : UInt32

/-- The reads of `tide_validate_header`. -/
def readHeader : Reads UInt8 HeaderFields := do
  let major ← readerReadU16
  let minor ← readerReadU16
  let uuid ← readerReadBytes 16
  let numerator ← readerReadU32
  let denominator ← readerReadU32
  let requiredFeatures ← readerReadU64
  let optionalFeatures ← readerReadU64
  let maxRecordHint ← readerReadU64
  let firstCheckpointOffset ← readerReadU64
  let storedCrc ← readerReadU32
  return ⟨major, minor, uuid, ⟨numerator, denominator⟩, requiredFeatures, optionalFeatures,
    maxRecordHint, firstCheckpointOffset, storedCrc⟩

/-- `tide_validate_header`. -/
def validateHeader (data : Bytes) (limits : Limits) : Except Error Unit :=
  if data.length < 72 then .error (parseError .truncated data.length 0 0 "incomplete header")
  else if data.take 8 ≠ magicBytes then .error (parseError .format 0 0 0 "bad magic")
  else
    match readHeader.run (readerInit (slice data 8 64)) with
    | none => .error (parseError .internal 0 0 0 "header reader failed")
    | some (header, _) =>
      if header.major ≠ 1 then .error (parseError .unsupported 8 0 0 "unsupported major version")
      else if header.uuid = List.replicate 16 0 then
        .error (parseError .format 12 0 0 "zero file uuid")
      else if !rationalIsValid header.movieBase then
        .error (parseError .timeline 28 0 0 "invalid movie time base")
      else if header.requiredFeatures ≠ 0 then
        .error (parseError .unsupported 36 0 0 "unknown required feature")
      else if header.maxRecordHint > limits.maxRecordSize then
        .error (parseError .resource 52 0 0 "record hint exceeds policy")
      else if header.storedCrc ≠ crc32c (data.take 68) then
        .error (parseError .integrity 68 0 0 "header crc mismatch")
      else .ok ()

/-! ### What a header is -/

/-- What a header of version 1 without required features says. -/
structure Header where
  minor : UInt16
  uuid : Bytes
  movieBase : Rational
  optionalFeatures : UInt64
  maxRecordHint : UInt64
  firstCheckpointOffset : UInt64
  deriving DecidableEq

namespace Header

variable (h : Header)

/-- The header but for its checksum. -/
def body : Bytes :=
  magicBytes ++ (writeU16 1 ++ (writeU16 h.minor ++ (h.uuid ++ (writeU32 h.movieBase.numerator ++
    (writeU32 h.movieBase.denominator ++
      (writeU64 0 ++ (writeU64 h.optionalFeatures ++ (writeU64 h.maxRecordHint ++
      writeU64 h.firstCheckpointOffset))))))))

/-- The 72 bytes. -/
def bytes : Bytes := h.body ++ writeU32 (crc32c h.body)

/-- The header names its file, has a time base, and hints at no record above the limit. -/
structure Valid (limits : Limits) : Prop where
  uuid_length : h.uuid.length = 16
  uuid_ne : h.uuid ≠ List.replicate 16 0
  movieBase : rationalIsValid h.movieBase = true
  hint : h.maxRecordHint ≤ limits.maxRecordSize

theorem length_body (hu : h.uuid.length = 16) : h.body.length = 68 := by
  simp [body, hu, magicBytes]

theorem length_bytes (hu : h.uuid.length = 16) : h.bytes.length = 72 := by
  rw [bytes, List.length_append, h.length_body hu, length_writeU32]

/-- What is behind the header lies at 72. -/
theorem lies_behind (hu : h.uuid.length = 16) (bs : Bytes) : Lies (h.bytes ++ bs) 72 bs :=
  h.length_bytes hu ▸ lies_after h.bytes bs

end Header

/-- The fields of the 64 bytes behind the magic ones. -/
theorem decodes_header : Decodes readHeader fun f bs => f.uuid.length = 16 ∧
    bs = writeU16 f.major ++ (writeU16 f.minor ++ (f.uuid ++ (writeU32 f.movieBase.numerator ++
      (writeU32 f.movieBase.denominator ++
        (writeU64 f.requiredFeatures ++ (writeU64 f.optionalFeatures ++
        (writeU64 f.maxRecordHint ++ (writeU64 f.firstCheckpointOffset ++
          writeU32 f.storedCrc)))))))) := by
  refine (decodes_u16.bind fun _ => decodes_u16.bind fun _ => (decodes_bytes 16).bind fun _ =>
    decodes_u32.bind fun _ =>
    decodes_u32.bind fun _ => decodes_u64.bind fun _ => decodes_u64.bind fun _ =>
      decodes_u64.bind fun _ =>
    decodes_u64.bind fun _ => decodes_u32.bind fun _ => decodes_pure _).congr fun f bs => ?_
  constructor
  · rintro ⟨_, _, _, rfl,
      ⟨_, _, _, rfl, ⟨u, _, _, ⟨rfl, hu⟩,
        ⟨_, _, _, rfl, ⟨_, _, _, rfl,
          ⟨_, _, _, rfl, ⟨_, _, _, rfl,
            ⟨_, _, _, rfl, ⟨_, _, _, rfl, ⟨_, _, _, rfl, ⟨rfl, rfl⟩, rfl⟩, rfl⟩, rfl⟩, rfl⟩, rfl⟩,
              rfl⟩, rfl⟩, rfl⟩, rfl⟩, rfl⟩
    exact ⟨hu, by simp⟩
  · rintro ⟨hu, rfl⟩
    exact ⟨_, _, _, rfl,
      ⟨_, _, _, rfl, ⟨_, _, _, ⟨rfl, hu⟩,
        ⟨_, _, _, rfl, ⟨_, _, _, rfl,
          ⟨_, _, _, rfl, ⟨_, _, _, rfl,
            ⟨_, _, _, rfl, ⟨_, _, _, rfl, ⟨_, _, _, rfl, ⟨rfl, rfl⟩, (List.append_nil _).symm⟩,
              rfl⟩, rfl⟩, rfl⟩, rfl⟩, rfl⟩, rfl⟩, rfl⟩, rfl⟩, rfl⟩

/-- The reader does not fail on the 64 bytes behind the magic ones. -/
theorem takes_header : Takes 64 readHeader :=
  have u16 : Takes 2 readerReadU16 := fun c h => ⟨_, if_pos ⟨by omega, by omega⟩⟩
  have u32 : Takes 4 readerReadU32 := fun c h => ⟨_, if_pos ⟨by omega, by omega⟩⟩
  have u64 : Takes 8 readerReadU64 := u32.bind fun _ => u32.bind fun _ => takes_pure _
  have uuid : Takes 16 (readerReadBytes 16) := fun c h => ⟨_, if_pos ⟨by omega, by omega⟩⟩
  u16.bind fun _ => u16.bind fun _ => uuid.bind fun _ => u32.bind fun _ => u32.bind fun _ =>
    u64.bind fun _ =>
    u64.bind fun _ => u64.bind fun _ => u64.bind fun _ => u32.bind fun _ => takes_pure _

/-- The header's answer is that of its 72 bytes, once they are there. -/
theorem validateHeader_append {data : Bytes} (h : 72 ≤ data.length) (ext : Bytes)
    (limits : Limits) :
    validateHeader (data ++ ext) limits = validateHeader data limits := by
  have hlen : ¬ (data ++ ext).length < 72 := by rw [List.length_append]; omega
  unfold validateHeader
  rw [if_neg hlen, if_neg (show ¬ data.length < 72 by omega),
    List.take_append_of_le_length (show 8 ≤ data.length by omega), List.take_append_of_le_length
      (show 68 ≤ data.length by omega), slice_append_left (show 8 + 64 ≤ data.length by omega)]

/-- What is read from the bytes of a header. -/
theorem Header.read_bytes (h : Header) (hu : h.uuid.length = 16) :
    ∃ r, readHeader.run (readerInit (slice h.bytes 8 64)) =
    some (⟨1, h.minor, h.uuid, h.movieBase, 0, h.optionalFeatures, h.maxRecordHint,
      h.firstCheckpointOffset, crc32c h.body⟩, r) := by
  have hlen := h.length_bytes hu
  have hrest : slice h.bytes 8 64 = writeU16 1 ++
      (writeU16 h.minor ++
        (h.uuid ++ (writeU32 h.movieBase.numerator ++ (writeU32 h.movieBase.denominator ++
          (writeU64 0 ++ (writeU64 h.optionalFeatures ++ (writeU64 h.maxRecordHint ++
            (writeU64 h.firstCheckpointOffset ++ writeU32 (crc32c h.body))))))))) := by
    rw [slice, List.take_of_length_le (by simp [hlen])]
    simp [Header.bytes, Header.body, magicBytes]
  exact ⟨_, (decodes_header [] (slice h.bytes 8 64) _ _).mpr ⟨_, [], ⟨hu, hrest⟩,
    by rw [List.append_nil], rfl⟩⟩

/-- **Which headers are accepted**: the bytes of valid ones. -/
theorem validateHeader_eq_ok_iff (data : Bytes) (limits : Limits) :
    validateHeader data limits = .ok () ↔ ∃ h : Header, h.Valid limits ∧ h.bytes <+: data := by
  constructor
  · intro hok
    unfold validateHeader at hok
    split at hok; · cases hok
    rename_i hlen
    split at hok; · cases hok
    rename_i hmagic
    split at hok; · cases hok
    rename_i f r hrun
    obtain ⟨bs, post, ⟨hu, rfl⟩, hslice, -⟩ := (decodes_header [] (slice data 8 64) _ _).mp hrun
    split at hok; · cases hok
    rename_i hmajor
    split at hok; · cases hok
    rename_i huuid
    split at hok; · cases hok
    rename_i hbase
    split at hok; · cases hok
    rename_i hreq
    split at hok; · cases hok
    rename_i hhint
    split at hok; · cases hok
    rename_i hcrc
    rw [not_not] at hmagic hmajor hreq hcrc
    have hpost : post = [] := by
      have := congrArg List.length hslice
      simp only [slice, List.length_take, List.length_drop, List.length_append, length_writeU16,
        length_writeU32, length_writeU64, hu] at this
      exact List.eq_nil_of_length_eq_zero (by omega)
    set h : Header := ⟨f.minor, f.uuid, f.movieBase, f.optionalFeatures, f.maxRecordHint,
      f.firstCheckpointOffset⟩ with hh
    have hall : data.take 72 = h.body ++ writeU32 f.storedCrc := by
      have hsplit : data.take 72 = data.take 8 ++ slice data 8 64 := by
        rw [slice, ← List.take_add]
      rw [hsplit, hmagic, hslice, hpost, hmajor, hreq]
      simp [Header.body, hh]
    have hbody : data.take 68 = h.body := by
      have := congrArg (List.take 68) hall
      rw [List.take_take, List.take_left' (h.length_body hu)] at this
      exact this
    refine ⟨h, ⟨hu, huuid, by simpa using hbase, UInt64.not_lt.mp hhint⟩, ?_⟩
    rw [Header.bytes, ← hbody, ← hcrc, hbody, ← hall]
    exact List.take_prefix ..
  · rintro ⟨h, ⟨hu, huuid, hbase, hhint⟩, post, rfl⟩
    have hlen := h.length_bytes hu
    rw [validateHeader_append (by omega)]
    have h68 : h.bytes.take 68 = h.body := by rw [Header.bytes, List.take_left' (h.length_body hu)]
    have h8 : h.bytes.take 8 = magicBytes := rfl
    obtain ⟨r, hrun⟩ := h.read_bytes hu
    unfold validateHeader
    rw [if_neg (by omega), if_neg (not_not.mpr h8), hrun]
    dsimp only
    rw [if_neg (by simp), if_neg huuid, if_neg (by simp [hbase]), if_neg (by simp),
      if_neg (UInt64.not_lt.mpr hhint), h68, if_neg (by simp)]

/-- A header that is accepted is there. -/
theorem length_of_validateHeader {B : Bytes} {L : Limits}
    (hok : validateHeader B L = .ok ()) : 72 ≤ B.length := by
  obtain ⟨hd, hhd, rest, rfl⟩ := (validateHeader_eq_ok_iff ..).mp hok
  rw [List.length_append, hd.length_bytes hhd.uuid_length]
  omega

/-- A header is accepted at the front of some bytes if and only if it is valid. -/
theorem validateHeader_bytes_iff {h : Header} (hu : h.uuid.length = 16) (rest : Bytes)
    (limits : Limits) :
    validateHeader (h.bytes ++ rest) limits = .ok () ↔ h.Valid limits := by
  rw [validateHeader_eq_ok_iff]
  constructor
  · rintro ⟨h', hvalid, hpre⟩
    have hlen := h.length_bytes hu
    have hlen' := h'.length_bytes hvalid.uuid_length
    have hbytes : h'.bytes = h.bytes := by
      rw [List.prefix_iff_eq_take, hlen', ← hlen, List.take_left] at hpre
      exact hpre
    -- the bytes are read in one way only
    obtain ⟨r, hr⟩ := h.read_bytes hu
    obtain ⟨r', hr'⟩ := h'.read_bytes hvalid.uuid_length
    rw [hbytes, hr] at hr'
    injection hr' with hpair
    injection (Prod.ext_iff.mp hpair).1 with _ hminor huuid hbase _ hopt hhint hfirst
    have heq : h = h' := by
      rcases h with ⟨_, _, _, _, _, _⟩
      rcases h' with ⟨_, _, _, _, _, _⟩
      exact Header.mk.injEq .. ▸ ⟨hminor, huuid, hbase, hopt, hhint, hfirst⟩
    rw [heq]
    exact hvalid
  · intro hvalid
    exact ⟨h, hvalid, List.prefix_append ..⟩

/-- A refused header is refused with the status of its error; the bytes are too few only
when there are fewer than 72. -/
theorem validateHeader_error {data : Bytes} {limits : Limits} {e : Error}
    (h : validateHeader data limits = .error e) :
    e.code ≠ .ok ∧ e.code ≠ .partialTail ∧ (e.code = .truncated ↔ data.length < 72) := by
  unfold validateHeader at h
  split at h
  · cases h
    exact ⟨nofun, nofun, iff_of_true rfl ‹_›⟩
  rename_i hlen
  -- every other error has a code that is none of the three
  split at h
  · cases h; exact ⟨nofun, nofun, iff_of_false nofun hlen⟩
  split at h
  · cases h; exact ⟨nofun, nofun, iff_of_false nofun hlen⟩
  split at h
  · cases h; exact ⟨nofun, nofun, iff_of_false nofun hlen⟩
  split at h
  · cases h; exact ⟨nofun, nofun, iff_of_false nofun hlen⟩
  split at h
  · cases h; exact ⟨nofun, nofun, iff_of_false nofun hlen⟩
  split at h
  · cases h; exact ⟨nofun, nofun, iff_of_false nofun hlen⟩
  split at h
  · cases h; exact ⟨nofun, nofun, iff_of_false nofun hlen⟩
  split at h
  · cases h; exact ⟨nofun, nofun, iff_of_false nofun hlen⟩
  · cases h

end Tide
