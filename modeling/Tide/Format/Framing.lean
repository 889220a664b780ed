import Tide.Format.Record

/-!
# Framing: where a record begins and ends

The model of `tide_decode_record_prefix` and `tide_validate_record_integrity` of
`src/format/decoder.c`. The first reads a record's prefix and computes where its
parts lie, the second checks the padding and the checksum. Together they accept at
an offset exactly the records of `Tide.Format.Record` (`framed_iff`).

`tide_decode_record_prefix` answers `TRUNCATED` when the bytes at hand do not hold
the whole record. An answer other than that does not change when more bytes
arrive (`decodeRecordPrefix_extend`), and on a record cut short the answer is
`TRUNCATED` (`decodeRecordPrefix_cut`).
-/

namespace Tide

open Theory

/-- The `size` bytes from `offset` on. -/
def slice (data : Bytes) (offset size : ℕ) : Bytes := (data.drop offset).take size

/-- `tide_set_parse_error`. -/
def parseError (status : Status) (offset : ℕ) (type : UInt16) (depth : UInt8)
    (message : String) : Error :=
  errorSet status .error offset type depth "decoder" message

/-- `tide_record_frame`. -/
@[ext]
structure RecordFrame where
  type : UInt16
  flags : UInt16
  headerSize : UInt16
  alignmentLog2 : UInt8
  payloadSize : UInt64
  sequence : UInt64
  offset : ℕ
  payloadOffset : ℕ
  payloadEnd : ℕ
  paddingEnd : ℕ
  crcEnd : ℕ
  depth : UInt8
  deriving DecidableEq, Repr

/-- The `tide_record_event` of a record. -/
def RecordFrame.event (frame : RecordFrame) : RecordEvent where
  type := frame.type
  flags := frame.flags
  offset := frame.offset
  payloadOffset := frame.payloadOffset
  payloadSize := frame.payloadSize
  sequence := frame.sequence
  depth := frame.depth
  skippable := skippable frame.type

/-- The fields of a frame that are read from the prefix. -/
@[ext]
structure PrefixFields where
  type : UInt16
  flags : UInt16
  headerSize : UInt16
  alignmentLog2 : UInt8
  payloadSize : UInt64
  sequence : UInt64

/-- The reads of `tide_decode_record_prefix`. -/
def readPrefix : Reads UInt8 PrefixFields := do
  let type ← readerReadU16
  let flags ← readerReadU16
  let headerSize ← readerReadU16
  let alignmentLog2 ← readerReadU8
  readerSkip 1
  let payloadSize ← readerReadUleb128
  let sequence ← readerReadUleb128
  return ⟨type, flags, headerSize, alignmentLog2, payloadSize, sequence⟩

/-- The ends of the payload, of the padding and of the checksum, computed in `uint64_t`
with checks. -/
def frameEnds (p : PrefixFields) (offset : ℕ) : Option (UInt64 × UInt64 × UInt64) := do
  let recordPayloadEnd ← checkedAddU64 p.headerSize.toUInt64 p.payloadSize
  let payloadEnd ← checkedAddU64 (UInt64.ofNat offset) recordPayloadEnd
  let recordPaddedEnd ← alignU64 recordPayloadEnd (1 <<< p.alignmentLog2.toUInt64)
  let paddingEnd ← checkedAddU64 (UInt64.ofNat offset) recordPaddedEnd
  let crcEnd ← checkedAddU64 paddingEnd 4
  return (payloadEnd, paddingEnd, crcEnd)

/-- What `tide_decode_record_prefix` answers. -/
inductive Framing where
  | frame (frame : RecordFrame)
  /-- `TIDE_STATUS_TRUNCATED`, which leaves the error as it was. -/
  | truncated
  /-- The status of the error, which is set. -/
  | rejected (error : Error)
  deriving DecidableEq, Repr

/-- The checks of `tide_decode_record_prefix` on the fields of a prefix that took `consumed`
bytes. -/
def frameOfPrefix (p : PrefixFields) (consumed size offset : ℕ) (depth : UInt8) : Framing :=
  if p.headerSize.toNat ≠ consumed ∨ p.alignmentLog2 > 4 then
    .rejected (parseError .format offset p.type depth "invalid record prefix")
  else
    match frameEnds p offset with
    | none => .rejected (parseError .resource offset p.type depth "record size overflow")
    | some (payloadEnd, paddingEnd, crcEnd) =>
      if crcEnd.toNat > size then .truncated
      else
        .frame
          { type := p.type, flags := p.flags, headerSize := p.headerSize,
            alignmentLog2 := p.alignmentLog2, payloadSize := p.payloadSize, sequence := p.sequence,
              offset := offset, payloadOffset := offset + p.headerSize.toNat, payloadEnd :=
                payloadEnd.toNat, paddingEnd := paddingEnd.toNat, crcEnd := crcEnd.toNat,
                  depth := depth }

/-- `tide_decode_record_prefix`, on the first `size` bytes of `data`. -/
def decodeRecordPrefix (data : Bytes) (size offset : ℕ) (depth : UInt8) : Framing :=
  if size - offset < 8 then .truncated
  else
    match readPrefix.run (readerInit (slice data offset (size - offset))) with
    -- a malformed varint ends up here too: the reader answers 0 for both
    | none => .truncated
    | some (p, reader) => frameOfPrefix p reader.offset size offset depth

/-- `tide_validate_record_integrity`. -/
def validateRecordIntegrity (data : Bytes) (frame : RecordFrame) : Except Error Unit :=
  match (slice data frame.payloadEnd (frame.paddingEnd - frame.payloadEnd)).findIdx? (· != 0) with
  | some i =>
      .error (parseError .format (frame.payloadEnd + i) frame.type frame.depth "nonzero padding")
  | none =>
    let stored := joinU32 (slice data frame.paddingEnd 4)
    let actual := crc32c (slice data frame.offset (frame.paddingEnd - frame.offset))
    if stored ≠ actual then
      .error (parseError .integrity frame.paddingEnd frame.type frame.depth "record crc mismatch")
    else .ok ()

/-! ### The prefix -/

/-- What is read is a prefix, whose reserved byte may be any. -/
def PrefixFields.Encodes (p : PrefixFields) (bs : Bytes) : Prop :=
  ∃ reserved : UInt8, bs = writeU16 p.type ++
    (writeU16 p.flags ++ (writeU16 p.headerSize ++ ([p.alignmentLog2] ++
    ([reserved] ++ (writeUleb128 p.payloadSize ++ writeUleb128 p.sequence)))))

theorem decodes_prefix : Decodes readPrefix PrefixFields.Encodes := by
  refine (decodes_u16.bind fun _ => decodes_u16.bind fun _ => decodes_u16.bind fun _ =>
    decodes_u8.bind fun _ =>
    (decodes_skip 1).bind fun _ => decodes_uleb128.bind fun _ => decodes_uleb128.bind fun _ =>
    decodes_pure _).congr fun p bs => ?_
  constructor
  · rintro ⟨_, _, _, rfl,
      ⟨_, _, _, rfl, ⟨_, _, _, rfl,
        ⟨_, _, _, rfl, ⟨_, _, _, hskip, ⟨_, _, _, rfl, ⟨_, _, _, rfl, ⟨rfl, rfl⟩, rfl⟩, rfl⟩, rfl⟩,
          rfl⟩, rfl⟩, rfl⟩, rfl⟩
    obtain ⟨reserved, rfl⟩ := List.length_eq_one_iff.mp hskip
    exact ⟨reserved, by simp⟩
  · rintro ⟨reserved, rfl⟩
    exact ⟨_, _, _, rfl,
      ⟨_, _, _, rfl, ⟨_, _, _, rfl,
        ⟨_, _, _, rfl, ⟨(), _, _, rfl,
          ⟨_, _, _, rfl, ⟨_, _, _, rfl, ⟨rfl, rfl⟩, (List.append_nil _).symm⟩, rfl⟩, rfl⟩, rfl⟩,
            rfl⟩, rfl⟩, rfl⟩

/-! ### Slices -/

theorem slice_add (data : Bytes) (offset m n : ℕ) :
    slice data offset (m + n) = slice data offset m ++ slice data (offset + m) n := by
  simp [slice, List.take_add, List.drop_drop]

theorem length_slice {data : Bytes} {offset n : ℕ} (h : offset + n ≤ data.length) :
    (slice data offset n).length = n := by
  simp [slice]; omega

/-- A slice of what the first `e` bytes hold. -/
theorem slice_take {data : Bytes} {e offset n : ℕ} (h : offset + n ≤ e) :
    slice (data.take e) offset n = slice data offset n := by
  rw [slice, slice, List.drop_take, List.take_take, Nat.min_eq_left (by omega)]

/-- Strings with the same first `e` bytes have the same first `m` bytes, for `m` up to `e`. -/
theorem take_congr {data data' : Bytes} {e m : ℕ} (hd : data.take e = data'.take e) (h : m ≤ e) :
    data.take m = data'.take m := by
  have := congrArg (List.take m) hd
  rwa [List.take_take, List.take_take, Nat.min_eq_left h] at this

/-- Strings with the same first `e` bytes have the same slices there. -/
theorem slice_congr {data data' : Bytes} {e offset n : ℕ} (hd : data.take e = data'.take e)
    (h : offset + n ≤ e) :
    slice data offset n = slice data' offset n := by
  rw [← slice_take h, hd, slice_take h]

theorem slice_append_left {data : Bytes} {offset n : ℕ} (h : offset + n ≤ data.length)
    (ext : Bytes) : slice (data ++ ext) offset n = slice data offset n :=
  slice_congr (by rw [List.take_append_of_le_length (Nat.le_refl _)]) h

/-- The bytes after `pre` in a longer string. -/
theorem slice_append (pre bs post : Bytes) :
    slice (pre ++ (bs ++ post)) pre.length bs.length = bs := by
  simp [slice]

/-- A longer slice goes on where a shorter one ends. -/
theorem slice_of_le {data : Bytes} {offset m n : ℕ} (h : m ≤ n) :
    slice data offset n = slice data offset m ++ slice data (offset + m) (n - m) := by
  rw [← slice_add, Nat.add_sub_cancel' h]

/-- The string `bs` lies at `offset`. -/
def Lies (data : Bytes) (offset : ℕ) (bs : Bytes) : Prop := slice data offset bs.length = bs

theorem lies_append_iff {data : Bytes} {offset : ℕ} {a b : Bytes} :
    Lies data offset (a ++ b) ↔ Lies data offset a ∧ Lies data (offset + a.length) b := by
  unfold Lies
  rw [List.length_append, slice_add]
  constructor
  · intro h
    have hlen := congrArg List.length h
    simp only [List.length_append, slice, List.length_take, List.length_drop] at hlen
    exact List.append_inj h (by simp only [slice, List.length_take, List.length_drop]; omega)
  · rintro ⟨ha, hb⟩
    rw [ha, hb]

/-- The bytes up to the end of a string that lies at `offset`. -/
theorem Lies.take {data : Bytes} {offset : ℕ} {bs : Bytes} (h : Lies data offset bs) :
    data.take (offset + bs.length) = data.take offset ++ bs := by
  rw [List.take_add]
  exact congrArg (data.take offset ++ ·) h

theorem Lies.length_le {data : Bytes} {offset : ℕ} {bs : Bytes} (h : Lies data offset bs)
    (hoff : offset ≤ data.length) :
    offset + bs.length ≤ data.length := by
  have := congrArg List.length h
  simp only [slice, List.length_take, List.length_drop] at this
  omega

/-- A string lies behind another and before a third. -/
theorem lies_mid (pre bs post : Bytes) :
    Lies (pre ++ (bs ++ post)) pre.length bs := slice_append pre bs post

/-- A string lies behind another. -/
theorem lies_after (pre bs : Bytes) : Lies (pre ++ bs) pre.length bs := by
  simpa using lies_mid pre bs []

/-- A string lies where it does whatever the bytes behind it. -/
theorem Lies.congr {data data' : Bytes} {offset e : ℕ} {bs : Bytes} (h : Lies data offset bs)
    (hd : data.take e = data'.take e) (he : offset + bs.length ≤ e) : Lies data' offset bs :=
  (slice_congr hd he).symm.trans h

/-! ### What a frame says -/

namespace RecordHead

variable (h : RecordHead)

/-- The fields of the prefix of a record with `n` bytes of payload. -/
def fields (n : ℕ) : PrefixFields :=
  ⟨h.type, h.flags, UInt16.ofNat (h.headerSize n), h.alignmentLog2, UInt64.ofNat n, h.sequence⟩

/-- The frame of a record with `n` bytes of payload that lies at `offset`. -/
def frameAt (offset n : ℕ) (depth : UInt8) : RecordFrame where
  type := h.type
  flags := h.flags
  headerSize := UInt16.ofNat (h.headerSize n)
  alignmentLog2 := h.alignmentLog2
  payloadSize := UInt64.ofNat n
  sequence := h.sequence
  offset := offset
  payloadOffset := offset + h.headerSize n
  payloadEnd := offset + h.headerSize n + n
  paddingEnd := offset + h.paddedSize n
  crcEnd := offset + h.size n
  depth := depth

theorem toNat_headerSize (n : ℕ) : (UInt16.ofNat (h.headerSize n)).toNat = h.headerSize n := by
  have := h.headerSize_bounds n
  exact UInt16.toNat_ofNat_of_lt' (by change _ < 2 ^ 16; omega)

/-- A payload whose record fits has a size that fits. -/
theorem toNat_payloadSize {n : ℕ} (hn : h.SizeFits n) : (UInt64.ofNat n).toNat = n := by
  unfold SizeFits sizeMax at hn
  exact UInt64.toNat_ofNat_of_lt' (by change _ < 2 ^ 64; omega)

theorem size_le (n : ℕ) : h.size n ≤ h.headerSize n + n + (2 ^ h.alignmentLog2.toNat - 1) + 4 := by
  have := Nat.div_mul_le_self (h.headerSize n + n + (2 ^ h.alignmentLog2.toNat - 1))
    (2 ^ h.alignmentLog2.toNat)
  unfold size paddedSize alignUp
  omega

/-- A record that lies beyond the first 72 bytes of a string has sizes that do not wrap. -/
theorem sizeFits_of_le {n offset : ℕ} (ha : h.alignmentLog2 ≤ 4) (hoff : 72 ≤ offset)
    (hle : offset + h.size n ≤ sizeMax) :
    h.SizeFits n := by
  have ha' : h.alignmentLog2.toNat ≤ 4 := UInt8.le_iff_toNat_le.mp ha
  have hpow : 2 ^ h.alignmentLog2.toNat ≤ 2 ^ 4 := Nat.pow_le_pow_right (by decide) ha'
  have := h.le_paddedSize n
  unfold SizeFits
  unfold size at hle
  omega

end RecordHead

/-- The bytes of a prefix that says its own size are those of a record's head. -/
theorem PrefixFields.encodes_iff (p : PrefixFields) (bs : Bytes) :
    p.Encodes bs ∧ p.headerSize.toNat = bs.length ↔
    ∃ (h : RecordHead) (n : ℕ), n < 2 ^ 64 ∧ bs = h.prefixBytes n ∧ p = h.fields n := by
  constructor
  · rintro ⟨⟨reserved, rfl⟩, hlen⟩
    have hofNat : UInt64.ofNat p.payloadSize.toNat = p.payloadSize := UInt64.ofNat_toNat
    set h : RecordHead := ⟨p.type, p.flags, p.alignmentLog2, reserved, p.sequence⟩ with hh
    have hsize : h.headerSize p.payloadSize.toNat = p.headerSize.toNat := by
      rw [hlen, RecordHead.headerSize, hofNat]
      simp only [hh, List.length_append, length_writeU16, List.length_cons, List.length_nil]
      omega
    have hhs : UInt16.ofNat (h.headerSize p.payloadSize.toNat) = p.headerSize := by
      rw [hsize, UInt16.ofNat_toNat]
    refine ⟨h, p.payloadSize.toNat, p.payloadSize.toNat_lt, ?_, ?_⟩
    · rw [RecordHead.prefixBytes, hhs, hofNat]
      simp [hh]
    · rw [RecordHead.fields, hhs, hofNat]
  · rintro ⟨h, n, -, rfl, rfl⟩
    refine ⟨⟨h.reserved, by simp [RecordHead.prefixBytes, RecordHead.fields]⟩, ?_⟩
    rw [h.length_prefixBytes]
    exact h.toNat_headerSize n

/-- The ends of a record's parts are where its sizes put them, unless a sum wraps. -/
theorem frameEnds_eq_some_iff (h : RecordHead) {n offset : ℕ} (ha : h.alignmentLog2 ≤ 4)
    (hn : n < 2 ^ 64) (hoff : offset ≤ sizeMax) (x y z : UInt64) :
    frameEnds (h.fields n) offset = some (x, y, z) ↔
      (h.SizeFits n ∧ offset + h.size n ≤ sizeMax) ∧ x.toNat = offset + h.headerSize n + n ∧
        y.toNat = offset + h.paddedSize n ∧ z.toNat = offset + h.size n := by
  have hsz : sizeMax = 2 ^ 64 - 1 := rfl
  have hle := h.le_paddedSize n
  have hh : (h.fields n).headerSize.toUInt64.toNat = h.headerSize n := by
    rw [UInt16.toNat_toUInt64]; exact h.toNat_headerSize n
  have hp : (h.fields n).payloadSize.toNat = n := UInt64.toNat_ofNat_of_lt' hn
  have ho : (UInt64.ofNat offset).toNat = offset :=
    UInt64.toNat_ofNat_of_lt' (by change _ < 2 ^ 64; omega)
  have hal : ∀ v w : UInt64, alignU64 v (1 <<< (h.fields n).alignmentLog2.toUInt64) = some w ↔ _ :=
    fun v w =>
    alignU64_eq_some_iff v w (a := (h.fields n).alignmentLog2) ha
  simp only [frameEnds, Option.bind_eq_bind, Option.bind_eq_some_iff, checkedAddU64_eq_some_iff,
    hal, hh, hp, ho, Option.pure_def, Option.some.injEq, Prod.mk.injEq]
  constructor
  · rintro ⟨a, hax, b, hb, c, ⟨hc1, hc2⟩, d, hd, e, he, rfl, rfl, rfl⟩
    rw [← hax] at hc1 hc2 hb
    have hpad : c.toNat = h.paddedSize n := hc2
    have := e.toNat_lt
    rw [show (4 : UInt64).toNat = 4 from rfl] at he
    unfold RecordHead.SizeFits RecordHead.size
    refine ⟨⟨?_, ?_⟩, ?_, ?_, ?_⟩
    · change _ + (2 ^ (h.fields n).alignmentLog2.toNat - 1) ≤ _; omega
    all_goals omega
  · rintro ⟨⟨hfit, hcrc⟩, hx, hy, hz⟩
    unfold RecordHead.SizeFits at hfit
    unfold RecordHead.size at hcrc hz
    have ha' : (UInt64.ofNat (h.headerSize n + n)).toNat = h.headerSize n + n :=
      UInt64.toNat_ofNat_of_lt' (by change _ < 2 ^ 64; omega)
    have hc' : (UInt64.ofNat (h.paddedSize n)).toNat = h.paddedSize n :=
      UInt64.toNat_ofNat_of_lt' (by change _ < 2 ^ 64; omega)
    refine ⟨UInt64.ofNat (h.headerSize n + n), ha'.symm, x,
      by omega, UInt64.ofNat (h.paddedSize n), ⟨?_, ?_⟩, y, by omega, z,
      ?_, rfl, rfl, rfl⟩
    · rw [ha']; change _ + (2 ^ h.alignmentLog2.toNat - 1) < _; omega
    · rw [ha', hc']; rfl
    · rw [show (4 : UInt64).toNat = 4 from rfl]; omega

/-! ### `tide_decode_record_prefix` -/

/-- Reading a prefix at the front of a string. -/
theorem readPrefix_run_iff (xs : Bytes) (p : PrefixFields) (r : Reader) :
    readPrefix.run (readerInit xs) = some (p, r) ↔
      ∃ bs post, p.Encodes bs ∧ xs = bs ++ post ∧ r = Cursor.mid bs post := by
  have h := decodes_prefix [] xs p r
  simpa [Cursor.mid, readerInit] using h

/-- The ends of the parts of a record whose sizes do not wrap. -/
theorem frameEnds_of_fits {h : RecordHead} {n offset : ℕ} (ha : h.alignmentLog2 ≤ 4)
    (hfit : h.SizeFits n) (hmax : offset + h.size n ≤ sizeMax) :
    ∃ x y z, frameEnds (h.fields n) offset = some (x, y, z) ∧
      x.toNat = offset + h.headerSize n + n ∧
      y.toNat = offset + h.paddedSize n ∧ z.toNat = offset + h.size n := by
  have hsz : sizeMax = 2 ^ 64 - 1 := rfl
  have hn : n < 2 ^ 64 := by unfold RecordHead.SizeFits at hfit; omega
  have hpad : h.size n = h.paddedSize n + 4 := rfl
  have hle := h.le_paddedSize n
  have ends : ∀ k, k ≤ offset + h.size n → (UInt64.ofNat k).toNat = k := fun k hk =>
    UInt64.toNat_ofNat_of_lt' (by change _ < 2 ^ 64; omega)
  have hx := ends (offset + h.headerSize n + n) (by omega)
  have hy := ends (offset + h.paddedSize n) (by omega)
  have hz := ends (offset + h.size n) (Nat.le_refl _)
  exact ⟨_, _, _, (frameEnds_eq_some_iff h ha hn (by omega) _ _ _).mpr ⟨⟨hfit, hmax⟩, hx, hy, hz⟩,
    hx, hy, hz⟩

/-- The checks on the prefix of a record whose sizes do not wrap: it ends within the bytes at
hand, or there are too few. -/
theorem frameOfPrefix_fields {h : RecordHead} {n offset : ℕ} (ha : h.alignmentLog2 ≤ 4)
    (hfit : h.SizeFits n) (hmax : offset + h.size n ≤ sizeMax) (size : ℕ) (depth : UInt8) :
    frameOfPrefix (h.fields n) (h.headerSize n) size offset depth =
      if offset + h.size n ≤ size then .frame (h.frameAt offset n depth) else .truncated := by
  obtain ⟨x, y, z, hends, hx, hy, hz⟩ := frameEnds_of_fits ha hfit hmax
  have hhead : ¬ ((h.fields n).headerSize.toNat ≠ h.headerSize n ∨
      (h.fields n).alignmentLog2 > 4) := by
    rw [not_or, not_not]
    exact ⟨h.toNat_headerSize n, UInt8.not_lt.mpr ha⟩
  rw [frameOfPrefix, if_neg hhead, hends]
  dsimp only
  rw [hx, hy, hz]
  by_cases hle : offset + h.size n ≤ size
  · rw [if_pos hle, if_neg (by omega)]
    simp only [RecordHead.frameAt, RecordHead.fields, h.toNat_headerSize]
  · rw [if_neg hle, if_pos (by omega)]

/-- A complete prefix is read, and the checks on its fields decide. -/
theorem decodeRecordPrefix_begins {data : Bytes} {size offset n : ℕ} {h : RecordHead}
    (hn : n < 2 ^ 64) (hpre : h.prefixBytes n <+: slice data offset (size - offset))
    (depth : UInt8) :
    decodeRecordPrefix data size offset depth = frameOfPrefix (h.fields n)
    (h.headerSize n) size offset depth := by
  obtain ⟨post, hxs⟩ := hpre
  obtain ⟨henc, -⟩ := ((h.fields n).encodes_iff (h.prefixBytes n)).mpr ⟨h, n, hn, rfl, rfl⟩
  have hrun : readPrefix.run (readerInit (slice data offset (size - offset))) =
      some (h.fields n, Cursor.mid (h.prefixBytes n) post) :=
    (readPrefix_run_iff ..).mpr ⟨_, post, henc, hxs.symm, rfl⟩
  have hlen := congrArg List.length hxs
  have hb := (h.headerSize_bounds n).1
  rw [List.length_append, h.length_prefixBytes, slice, List.length_take] at hlen
  rw [decodeRecordPrefix, if_neg (by omega), hrun]
  dsimp only
  rw [Cursor.mid_offset, h.length_prefixBytes]

/-- **What `tide_decode_record_prefix` accepts**: a prefix that says its own size, with
an alignment up to 16, of a record whose sizes do not wrap and that ends within the
bytes at hand. -/
theorem decodeRecordPrefix_eq_frame_iff {data : Bytes} {size offset : ℕ} {depth : UInt8}
    {f : RecordFrame} (hmax : size ≤ sizeMax) :
    decodeRecordPrefix data size offset depth = .frame f ↔
      ∃ (h : RecordHead) (n : ℕ), h.alignmentLog2 ≤ 4 ∧ h.SizeFits n ∧ offset + h.size n ≤ size ∧
        h.prefixBytes n <+: slice data offset (size - offset) ∧ f = h.frameAt offset n depth := by
  constructor
  · intro hf
    unfold decodeRecordPrefix at hf
    split at hf
    · cases hf
    rename_i h8
    split at hf
    · cases hf
    rename_i p r hrun
    obtain ⟨bs, post, henc, hxs, rfl⟩ := (readPrefix_run_iff ..).mp hrun
    rw [Cursor.mid_offset] at hf
    unfold frameOfPrefix at hf
    split at hf
    · cases hf
    rename_i hhead
    rw [not_or, not_not] at hhead
    obtain ⟨h, n, hn, rfl, rfl⟩ := (p.encodes_iff bs).mp ⟨henc, hhead.1⟩
    have ha : h.alignmentLog2 ≤ 4 := UInt8.not_lt.mp hhead.2
    split at hf
    · cases hf
    rename_i x y z hends
    obtain ⟨⟨hfit, hcrc⟩, hx, hy, hz⟩ := (frameEnds_eq_some_iff h ha hn (by omega) x y z).mp hends
    split at hf
    · cases hf
    rename_i hle
    refine ⟨h, n, ha, hfit, by omega, ⟨post, hxs.symm⟩, ?_⟩
    rw [← Framing.frame.inj hf, hx, hy, hz]
    simp only [RecordHead.frameAt, RecordHead.fields, h.toNat_headerSize]
  · rintro ⟨h, n, ha, hfit, hle, hpre, rfl⟩
    have hn : n < 2 ^ 64 := by unfold RecordHead.SizeFits sizeMax at hfit; omega
    rw [decodeRecordPrefix_begins hn hpre, frameOfPrefix_fields ha hfit (hle.trans hmax),
      if_pos hle]

/-- The checks let a record pass only if it ends within the bytes at hand. -/
theorem crcEnd_le_of_frameOfPrefix {p : PrefixFields} {consumed size offset : ℕ} {depth : UInt8}
    {f : RecordFrame}
    (hf : frameOfPrefix p consumed size offset depth = .frame f) : f.crcEnd ≤ size := by
  unfold frameOfPrefix at hf
  split at hf
  · cases hf
  split at hf
  · cases hf
  split at hf
  · cases hf
  · rename_i hle
    rw [← Framing.frame.inj hf]
    exact Nat.not_lt.mp hle

/-- The payload of an accepted record ends before the record does. -/
theorem payloadEnd_le_of_frameOfPrefix {p : PrefixFields} {consumed size offset : ℕ} {depth : UInt8}
    {f : RecordFrame} (hf : frameOfPrefix p consumed size offset depth = .frame f) :
    f.payloadEnd ≤ f.crcEnd := by
  unfold frameOfPrefix at hf
  split at hf
  · cases hf
  rename_i hhead
  have ha : p.alignmentLog2 ≤ 4 := UInt8.not_lt.mp (not_or.mp hhead).2
  split at hf
  · cases hf
  rename_i x y z hends
  split at hf
  · cases hf
  simp only [frameEnds, Option.bind_eq_bind, Option.bind_eq_some_iff, checkedAddU64_eq_some_iff,
    alignU64_eq_some_iff _ _ ha, Option.pure_def, Option.some.injEq, Prod.mk.injEq] at hends
  obtain ⟨a, -, b, hb, c, ⟨-, hc⟩, d, hd, e, he, rfl, rfl, rfl⟩ := hends
  have hle := le_alignUp p.alignmentLog2.toNat a.toNat
  have hpadded : c.toNat = alignUp p.alignmentLog2.toNat a.toNat := hc
  rw [← Framing.frame.inj hf]
  dsimp only
  omega

/-- With more bytes at hand the checks answer as before, unless that was `TRUNCATED`. -/
theorem frameOfPrefix_extend {p : PrefixFields} {consumed size size' offset : ℕ} {depth : UInt8}
    (hle : size ≤ size') (hne : frameOfPrefix p consumed size offset depth ≠ .truncated) :
    frameOfPrefix p consumed size' offset depth = frameOfPrefix p consumed size offset depth := by
  unfold frameOfPrefix at hne ⊢
  by_cases hhead : p.headerSize.toNat ≠ consumed ∨ p.alignmentLog2 > 4
  · rw [if_pos hhead, if_pos hhead]
  · rw [if_neg hhead] at hne
    rw [if_neg hhead, if_neg hhead]
    cases hends : frameEnds p offset with
    | none => rfl
    | some e =>
      obtain ⟨payloadEnd, paddingEnd, crcEnd⟩ := e
      rw [hends] at hne
      dsimp only at hne ⊢
      by_cases hcrc : crcEnd.toNat > size
      · rw [if_pos hcrc] at hne
        exact absurd rfl hne
      · rw [if_neg hcrc, if_neg (by omega)]

/-- An accepted record ends within the bytes at hand, and its payload before it. -/
theorem ends_le_of_frame {data : Bytes} {size offset : ℕ} {depth : UInt8} {f : RecordFrame}
    (hf : decodeRecordPrefix data size offset depth = .frame f) :
    f.payloadEnd ≤ f.crcEnd ∧ f.crcEnd ≤ size := by
  unfold decodeRecordPrefix at hf
  split at hf
  · cases hf
  split at hf
  · cases hf
  · exact ⟨payloadEnd_le_of_frameOfPrefix hf, crcEnd_le_of_frameOfPrefix hf⟩

/-- **More bytes do not change an answer** other than `TRUNCATED`. -/
theorem decodeRecordPrefix_extend {data : Bytes} {size size' offset : ℕ} {depth : UInt8}
    (hle : size ≤ size') (hne : decodeRecordPrefix data size offset depth ≠ .truncated) :
    decodeRecordPrefix data size' offset depth = decodeRecordPrefix data size offset depth := by
  unfold decodeRecordPrefix at hne ⊢
  by_cases h8 : size - offset < 8
  · rw [if_pos h8] at hne
    exact absurd rfl hne
  rw [if_neg h8] at hne
  rw [if_neg h8, if_neg (by omega)]
  cases hrun : readPrefix.run (readerInit (slice data offset (size - offset))) with
  | none =>
    rw [hrun] at hne
    exact absurd rfl hne
  | some x =>
    obtain ⟨p, r⟩ := x
    have hsplit : slice data offset (size' - offset) =
        slice data offset (size - offset) ++ slice data (offset + (size - offset)) (size' - offset -
          (size - offset)) :=
      slice_of_le (by omega)
    have hrun' := decodes_prefix.extend (Nat.zero_le _) hrun (slice data (offset + (size - offset))
      (size' - offset - (size - offset)))
    rw [← hsplit] at hrun'
    rw [hrun] at hne
    rw [readerInit, hrun']
    exact frameOfPrefix_extend hle hne

/-- A record cut short is `TRUNCATED`. -/
theorem decodeRecordPrefix_cut {data : Bytes} {size size' offset : ℕ} {depth : UInt8}
    {f : RecordFrame} (hf : decodeRecordPrefix data size' offset depth = .frame f)
    (hle : size ≤ size') (hcut : size < f.crcEnd) :
    decodeRecordPrefix data size offset depth = .truncated := by
  by_contra hne
  rw [decodeRecordPrefix_extend hle hne] at hf
  have := (ends_le_of_frame hf).2
  omega

/-- A record is accepted as soon as its last byte is there. -/
theorem decodeRecordPrefix_shrink {data : Bytes} {size size' offset : ℕ} {depth : UInt8}
    {f : RecordFrame} (hmax : size ≤ sizeMax)
    (hf : decodeRecordPrefix data size offset depth = .frame f) (hle : size' ≤ size)
    (hend : f.crcEnd ≤ size') :
    decodeRecordPrefix data size' offset depth = .frame f := by
  obtain ⟨h, n, ha, hfit, -, hpre, rfl⟩ := (decodeRecordPrefix_eq_frame_iff hmax).mp hf
  have hcrc : (h.frameAt offset n depth).crcEnd = offset + h.size n := rfl
  rw [hcrc] at hend
  refine (decodeRecordPrefix_eq_frame_iff (hle.trans hmax)).mpr ⟨h, n, ha, hfit, hend, ?_, rfl⟩
  have hpad := h.le_paddedSize n
  have hsize : h.size n = h.paddedSize n + 4 := rfl
  have hslice : slice data offset (size' - offset) = (slice data offset (size - offset)).take
      (size' - offset) := by
    rw [slice, slice, List.take_take, Nat.min_eq_left (by omega)]
  rw [hslice, List.prefix_take_iff, h.length_prefixBytes]
  exact ⟨hpre, by omega⟩

/-- The answer depends on the first `size` bytes only. -/
theorem decodeRecordPrefix_congr {data data' : Bytes} {size offset : ℕ}
    (hd : data.take size = data'.take size) (depth : UInt8) :
    decodeRecordPrefix data size offset depth = decodeRecordPrefix data' size offset depth := by
  unfold decodeRecordPrefix
  by_cases h8 : size - offset < 8
  · rw [if_pos h8, if_pos h8]
  · rw [if_neg h8, if_neg h8, slice_congr hd (by omega)]

/-! ### `tide_validate_record_integrity` -/

/-- Four bytes that are read as a word. -/
theorem joinU32_eq_iff {bs : Bytes} (h : bs.length = 4) (v : UInt32) :
    joinU32 bs = v ↔ bs = writeU32 v := by
  constructor
  · rintro rfl
    exact (writeU32_joinU32 h).symm
  · rintro rfl
    exact joinU32_writeU32 v

/-- A loop over the padding that finds no byte but zero. -/
theorem findIdx_nonzero_eq_none_iff {bs : Bytes} {n : ℕ} (h : bs.length = n) :
    bs.findIdx? (· != 0) = none ↔ bs = List.replicate n 0 := by
  rw [List.findIdx?_eq_none_iff, List.eq_replicate_iff]
  simp [h]

/-- **What `tide_validate_record_integrity` accepts**: with a record's prefix at the
offset, the whole record with the payload that is there. -/
theorem validateRecordIntegrity_eq_ok_iff {data : Bytes} {offset n : ℕ} {h : RecordHead}
    (depth : UInt8) (hle : offset + h.size n ≤ data.length)
    (hpre : slice data offset (h.headerSize n) = h.prefixBytes n) :
    validateRecordIntegrity data (h.frameAt offset n depth) = .ok () ↔
      slice data offset (h.size n) = h.bytes (slice data (offset + h.headerSize n) n) := by
  have hpad := h.le_paddedSize n
  have hsize : h.size n = h.paddedSize n + 4 := rfl
  have hn : (slice data (offset + h.headerSize n) n).length = n := length_slice (by omega)
  -- the slice is the prefix, the payload, what stands for the padding and what stands for the
  -- checksum
  have hbody : slice data offset (h.paddedSize n) = h.prefixBytes n ++
      slice data (offset + h.headerSize n) n ++ slice data (offset + h.headerSize n + n)
        (h.paddedSize n - (h.headerSize n + n)) := by
    rw [slice_of_le (show h.headerSize n + n ≤ h.paddedSize n from hpad), slice_add,
      hpre, Nat.add_assoc]
  have hall : slice data offset (h.size n) = slice data offset (h.paddedSize n) ++
      slice data (offset + h.paddedSize n) 4 :=
    slice_add ..
  have hpadlen : (slice data (offset + h.headerSize n + n) (h.paddedSize n -
      (h.headerSize n + n))).length = h.paddedSize n - (h.headerSize n + n) :=
    length_slice (by omega)
  have hcrclen : (slice data (offset + h.paddedSize n) 4).length = 4 := length_slice (by omega)
  have hzeros := findIdx_nonzero_eq_none_iff hpadlen
  have hword := joinU32_eq_iff hcrclen
  have hrange : offset + h.paddedSize n - (offset + h.headerSize n + n) = h.paddedSize n -
      (h.headerSize n + n) := by omega
  have hcrc : offset + h.paddedSize n - offset = h.paddedSize n := by omega
  rw [RecordHead.bytes, RecordHead.body, hn, hall]
  unfold validateRecordIntegrity
  simp only [RecordHead.frameAt, hrange, hcrc]
  constructor
  · intro hok
    split at hok
    · cases hok
    rename_i hnone
    split at hok
    · cases hok
    rename_i hstored
    have hpadding := hzeros.mp hnone
    rw [← hpadding, ← hbody, ← (hword _).mp (not_not.mp hstored)]
  · intro heq
    have hlen : (slice data offset (h.paddedSize n)).length =
        (h.prefixBytes n ++ slice data (offset + h.headerSize n) n ++
          List.replicate (h.paddedSize n - (h.headerSize n + n)) 0).length := by
      rw [length_slice (by omega)]
      simp only [List.length_append, h.length_prefixBytes, hn, List.length_replicate]
      omega
    obtain ⟨h1, h2⟩ := List.append_inj heq hlen
    have hpadding := List.append_cancel_left (hbody.symm.trans h1)
    rw [← h1] at h2
    rw [hzeros.mpr hpadding]
    dsimp only
    rw [if_neg (not_not.mpr ((hword _).mpr h2))]

/-- The check depends on the bytes up to the record's end. -/
theorem validateRecordIntegrity_congr {data data' : Bytes} {f : RecordFrame} {e : ℕ}
    (hd : data.take e = data'.take e) (hpad : f.payloadEnd ≤ f.paddingEnd)
    (hoff : f.offset ≤ f.paddingEnd) (he : f.paddingEnd + 4 ≤ e) :
    validateRecordIntegrity data f = validateRecordIntegrity data' f := by
  unfold validateRecordIntegrity
  rw [slice_congr hd (by omega : f.payloadEnd + (f.paddingEnd - f.payloadEnd) ≤ e),
    slice_congr hd he, slice_congr hd (by omega : f.offset + (f.paddingEnd - f.offset) ≤ e)]

/-! ### Both together -/

/-- A record's bytes are its prefix and more. -/
theorem RecordHead.prefixBytes_isPrefix (h : RecordHead) (payload : Bytes) :
    h.prefixBytes payload.length <+: h.bytes payload := by
  simp only [RecordHead.bytes, RecordHead.body, List.append_assoc]
  exact List.prefix_append ..

/-- The payload of a record that lies at `offset` lies behind its prefix. -/
theorem RecordHead.lies_payload {h : RecordHead} {data payload : Bytes} {offset : ℕ}
    (hl : Lies data offset (h.bytes payload)) :
    Lies data (offset + h.headerSize payload.length) payload := by
  simp only [RecordHead.bytes, RecordHead.body, List.append_assoc] at hl
  have := (lies_append_iff.mp (lies_append_iff.mp hl).2).1
  rwa [h.length_prefixBytes] at this

/-- **What is accepted as a record**: the two functions accept at an offset exactly the
records that lie there, with an alignment up to 16 and sizes that do not wrap. -/
theorem framed_iff {data : Bytes} {size offset : ℕ} {depth : UInt8} {f : RecordFrame}
    (hsize : size ≤ data.length) (hmax : size ≤ sizeMax) :
    decodeRecordPrefix data size offset depth = .frame f ∧ validateRecordIntegrity data f = .ok () ↔
      ∃ (h : RecordHead) (payload : Bytes), h.alignmentLog2 ≤ 4 ∧ h.SizeFits payload.length ∧
        Lies data offset (h.bytes payload) ∧
        offset + h.size payload.length ≤ size ∧ f = h.frameAt offset payload.length depth := by
  rw [decodeRecordPrefix_eq_frame_iff hmax]
  constructor
  · rintro ⟨⟨h, n, ha, hfit, hle, ⟨post, hpost⟩, rfl⟩, hok⟩
    have hpad := h.le_paddedSize n
    have hbegins : slice data offset (h.headerSize n) = h.prefixBytes n := by
      unfold RecordHead.size at hle
      rw [slice_of_le (show h.headerSize n ≤ size - offset by omega)] at hpost
      exact (List.append_inj_left hpost.symm
        (by rw [length_slice (by omega), h.length_prefixBytes]))
    have hn : (slice data (offset + h.headerSize n) n).length = n :=
      length_slice (by unfold RecordHead.size at hle; omega)
    have hbytes := (validateRecordIntegrity_eq_ok_iff depth (by omega) hbegins).mp hok
    refine ⟨h, slice data (offset + h.headerSize n) n, ha,
      by rw [hn]; exact hfit, ?_, by rw [hn]; exact hle, by rw [hn]⟩
    rw [Lies, h.length_bytes, hn, hbytes]
  · rintro ⟨h, payload, ha, hfit, hl, hle, rfl⟩
    have hbytes : slice data offset (h.size payload.length) = h.bytes payload := by
      rw [← h.length_bytes payload]; exact hl
    have hbegins : slice data offset (h.headerSize payload.length) =
        h.prefixBytes payload.length := by
      have := hl
      simp only [RecordHead.bytes, RecordHead.body, List.append_assoc] at this
      have hpre := (lies_append_iff.mp this).1
      rwa [Lies, h.length_prefixBytes] at hpre
    refine ⟨⟨h, payload.length, ha, hfit, hle, ?_, rfl⟩, ?_⟩
    · rw [slice_of_le (show h.size payload.length ≤ size -
        offset by have := h.size_ge payload.length; omega), hbytes]
      exact (h.prefixBytes_isPrefix payload).trans (List.prefix_append ..)
    · rw [validateRecordIntegrity_eq_ok_iff depth (by omega) hbegins, hbytes, h.lies_payload hl]

/-! ### What is refused -/

/-- The statuses that refuse the input, as against those that say it is good so far. -/
def Status.Rejects (s : Status) : Prop := s ≠ .ok ∧ s ≠ .partialTail ∧ s ≠ .truncated

instance (s : Status) : Decidable s.Rejects := by unfold Status.Rejects; infer_instance

theorem rejects_of_rejected {data : Bytes} {size offset : ℕ} {depth : UInt8} {e : Error}
    (h : decodeRecordPrefix data size offset depth = .rejected e) : e.code.Rejects := by
  unfold decodeRecordPrefix frameOfPrefix at h
  split at h
  · cases h
  split at h
  · cases h
  split at h
  · cases h
    exact (show Status.format.Rejects by decide)
  split at h
  · cases h
    exact (show Status.resource.Rejects by decide)
  split at h <;> cases h

theorem rejects_of_integrity {data : Bytes} {f : RecordFrame} {e : Error}
    (h : validateRecordIntegrity data f = .error e) :
    e.code.Rejects := by
  unfold validateRecordIntegrity at h
  split at h
  · cases h
    exact (show Status.format.Rejects by decide)
  dsimp only at h
  split at h
  · cases h
    exact (show Status.integrity.Rejects by decide)
  · cases h

end Tide
