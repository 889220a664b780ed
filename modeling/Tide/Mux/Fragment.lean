import Tide.Format.Closing
import Tide.Mux.Failure

/-!
# Fragments of records

A call that fails may leave the first pieces of its record in the output, and if the mux is
closed then, the footer comes behind them. A decoder takes the bytes of the footer for the
missing ones of the record. No client accepts what it finds there (`fragment_refused`):

* if the prefix alone was left, a descriptor finds zeros for its time base (`no_stream`), and a
  packet that is as short as a footer ends inside the digest, where no record begins, since
  the last two words of a digest differ too much (`no_packet`);
* if more was left, the padding or the checksum is found in the first bytes of the footer, and
  the bytes behind them are of no known type (`no_record`).

The last part says what a call leaves (`Mux.call_fragment`) and when a footer can be appended
(`muxAppendFooter_eq_ok_iff`).
-/

namespace Tide

open Theory

variable {σ : Type}

/-! ### Records that are accepted -/

/-- A record that any client accepts: it may be skipped, or it is of a known type, and if it
describes a stream, then one with a time base. -/
def Recognized (h : RecordHead) (payload : Bytes) : Prop :=
  skippable h.type = true ∨ ∃ t : RecordType, h.type = t.code ∧
    (t = .streamDesc → ∃ s, wholePayload readStream payload = some s ∧
      rationalIsValid s.timeBase = true)

/-- The records that are not groups are recognized. -/
def Forest.Recognized : Forest → Prop
  | .nil => True
  | .leaf h payload next => Tide.Recognized h payload ∧ next.Recognized
  | .group _ _ children next => children.Recognized ∧ next.Recognized

theorem Forest.recognized_append_iff (f g : Forest) :
    (f.append g).Recognized ↔ f.Recognized ∧ g.Recognized := by
  induction f with
  | nil => exact (and_iff_right trivial).symm
  | leaf h payload next ih => rw [append, Recognized, Recognized, ih, and_assoc]
  | group h m children next _ ih => rw [append, Recognized, Recognized, ih, and_assoc]

/-- A descriptor that is accepted has a time base, also if its track is lost. -/
theorem emitStream_ok {p q : Parsing σ} {payload : Bytes} {frame : RecordFrame}
    (hok : emitStream p payload frame = (.ok, q)) :
    ∃ s, wholePayload readStream payload = some s ∧ rationalIsValid s.timeBase = true := by
  unfold emitStream at hok
  cases hread : wholePayload readStream payload with
  | none =>
    rw [hread] at hok
    cases hok
  | some s =>
    rw [hread] at hok
    dsimp only at hok
    by_cases htb : rationalIsValid s.timeBase = true
    · exact ⟨s, rfl, htb⟩
    · rw [if_pos (by simpa using htb)] at hok
      cases hok

/-- A record that is accepted is recognized. -/
theorem Found.recognized {data payload : Bytes} {limits : Limits} {lo hi offset depth : ℕ}
    {h : RecordHead} {parse : ParseRecords σ} {p q : Parsing σ}
    (hf : Found data limits lo hi offset h payload)
    (hok : processRecord parse data (h.frameAt offset payload.length (UInt8.ofNat depth)) p =
      (.ok, q)) :
    Recognized h payload := by
  have htype : (h.frameAt offset payload.length (UInt8.ofNat depth)).type = h.type := rfl
  unfold processRecord at hok
  rw [slice_frameAt data h offset payload.length, h.lies_payload hf.lies, htype] at hok
  dsimp only at hok
  by_cases hskip : skippable h.type = true
  · exact .inl hskip
  rw [if_neg hskip] at hok
  obtain ⟨-, hok⟩ := (andThen_fst_eq_ok_iff ..).mp (congrArg Prod.fst hok)
  cases hrt : recordTypeOf h.type with
  | none =>
    rw [hrt] at hok
    cases hok
  | some t =>
    refine .inr ⟨t, (recordTypeOf_eq_some_iff ..).mp hrt, ?_⟩
    rintro rfl
    rw [hrt] at hok
    exact emitStream_ok (Prod.ext hok rfl)

theorem tracked_recognized (data : Bytes) : Tracked (σ := σ) data fun _ f _ => f.Recognized where
  nil _ := trivial
  append _ hf hg := (Forest.recognized_append_iff ..).mpr ⟨hf, hg⟩
  leaf _ hf _ hok := ⟨hf.recognized hok, trivial⟩
  group _ hchildren := ⟨hchildren, trivial⟩

/-- The first record of a forest that is not empty, and what follows it. -/
theorem Forest.Each.head {P : ℕ → RecordHead → Bytes → Prop} {f : Forest} {offset : ℕ}
    (hf : f.Each P offset) (hr : f.Recognized) (hne : f.bytes ≠ []) :
    ∃ h payload next, f.bytes = h.bytes payload ++ Forest.bytes next ∧ Tide.Recognized h payload ∧
      next.Each P (offset + h.size payload.length) ∧ next.Recognized := by
  cases f with
  | nil => exact absurd rfl hne
  | leaf h payload next => exact ⟨h, payload, next, rfl, hr.1, hf.2.2, hr.2⟩
  | group h m children next =>
    refine ⟨h, groupPayload m children.bytes, next, rfl, .inr ⟨.group, hf.1, nofun⟩, ?_, hr.2⟩
    rw [length_groupPayload]
    exact hf.2.2.2

/-- The prefix of a record says of which record it is, and where it ends. -/
theorem RecordHead.prefixBytes_split {h h' : RecordHead} {n n' : ℕ} {s t : Bytes} (hn : n ≤ sizeMax)
    (hn' : n' ≤ sizeMax) (heq : h.prefixBytes n ++ s = h'.prefixBytes n' ++ t) :
    h = h' ∧ n = n' ∧ s = t := by
  simp only [RecordHead.prefixBytes, List.append_assoc] at heq
  obtain ⟨htype, heq⟩ := List.append_inj heq rfl
  obtain ⟨hflags, heq⟩ := List.append_inj heq rfl
  obtain ⟨-, heq⟩ := List.append_inj heq rfl
  obtain ⟨hbytes, heq⟩ := List.append_inj heq rfl
  obtain ⟨hsize, -, heq⟩ := decodes_uleb128.split rfl rfl heq
  obtain ⟨hsequence, -, heq⟩ := decodes_uleb128.split rfl rfl heq
  rw [List.cons.injEq, List.cons.injEq] at hbytes
  refine ⟨RecordHead.ext (writeU16_inj htype) (writeU16_inj hflags) hbytes.1 hbytes.2.1 hsequence,
    ?_, heq⟩
  have hnat := congrArg UInt64.toNat hsize
  rwa [UInt64.toNat_ofNat_of_lt' (by unfold sizeMax at hn; change n < 2 ^ 64; omega),
    UInt64.toNat_ofNat_of_lt' (by unfold sizeMax at hn'; change n' < 2 ^ 64; omega)] at hnat

/-! ### The digest -/

/-- Words that differ from a third one by `k` and by `l` differ by `k ^^^ l`, and so do their low
bytes. -/
theorem xor_low_byte (b k l : UInt32) :
    ((b ^^^ k) &&& 0xff).toUInt8 ^^^ ((b ^^^ l) &&& 0xff).toUInt8 = (k ^^^ l).toUInt8 := by
  have hmask : ∀ w : UInt32, (w &&& 0xff).toUInt8 = w.toUInt8 := fun w => by
    rw [UInt32.toUInt8_and]
    exact UInt8.and_neg_one
  rw [hmask, hmask, UInt32.toUInt8_xor, UInt32.toUInt8_xor, UInt32.toUInt8_xor,
    UInt8.xor_comm b.toUInt8, UInt8.xor_assoc, ← UInt8.xor_assoc b.toUInt8, UInt8.xor_self,
      UInt8.zero_xor]

/-- The last two words of a digest differ by 32 or more in each byte. -/
theorem digest_differs (data : Bytes) {i : ℕ} (hi : 24 ≤ i) (hlt : i < 28) {a b : UInt8}
    (ha : (digestAdapter32 data)[i]? = some a) (hb : (digestAdapter32 data)[i + 4]? = some b) :
    32 ≤ (a ^^^ b).toNat := by
  have hlast : digestAdapter32 data = (List.range 6).flatMap
      (fun i => writeU32 (crc32c data ^^^ (0x9e3779b9 * (UInt32.ofNat i + 1)))) ++
        (writeU32 (crc32c data ^^^ 0x5384540f) ++ writeU32 (crc32c data ^^^ 0xf1bbcdc8)) := rfl
  have hlen : ((List.range 6).flatMap
      (fun i => writeU32 (crc32c data ^^^ (0x9e3779b9 * (UInt32.ofNat i + 1))))).length = 24 := rfl
  obtain ⟨j, rfl⟩ := Nat.exists_eq_add_of_le hi
  rw [hlast, List.getElem?_append_right (by omega), hlen] at ha hb
  simp only [writeU32, UInt32.shiftRight_xor, List.cons_append, List.nil_append,
    Nat.add_sub_cancel_left, Nat.add_assoc] at ha hb
  have hj : j = 0 ∨ j = 1 ∨ j = 2 ∨ j = 3 := by omega
  rcases hj with rfl | rfl | rfl | rfl
  all_goals
    cases ha
    cases hb
    rw [xor_low_byte]
    decide

/-! ### A footer in place of what is missing -/

/-- The header of a record with a payload of less than 128 bytes. -/
theorem RecordHead.headerSize_of_lt (h : RecordHead) {n : ℕ} (hn : n < 128) :
    h.headerSize n = 9 + (writeUleb128 h.sequence).length := by
  rw [RecordHead.headerSize, writeUleb128_of_lt hn]
  rfl

theorem headerSize_footerHead (sequence : UInt64) :
    (footerHead sequence).headerSize 49 = 9 + (writeUleb128 sequence).length :=
  (footerHead sequence).headerSize_of_lt (by decide)

/-- The bytes of the footer of `data`, up to the digest, and what follows it. -/
theorem footerForest_bytes (sequence : UInt64) (data : Bytes) :
    ∃ tail, (footerForest sequence data).bytes =
    [0x7f, 0, 0, 0] ++ (writeU16 (UInt16.ofNat ((footerHead sequence).headerSize 49)) ++
      ([3, 0, 0x31] ++ (writeUleb128 sequence ++
      (writeU64 (UInt64.ofNat data.length + UInt64.ofNat ((footerHead sequence).size 49)) ++
        (List.replicate 9 0 ++
        (digestAdapter32 data ++ tail)))))) := by
  have h49 : writeUleb128 (UInt64.ofNat 49) = [0x31] := writeUleb128_of_lt (by decide)
  have hzero : writeU64 0 = List.replicate 8 0 := rfl
  refine ⟨List.replicate ((footerHead sequence).paddedSize 49 -
    ((footerHead sequence).headerSize 49 + 49)) 0 ++
    writeU32 (crc32c ((footerHead sequence).body
      (footerPayload data ((footerHead sequence).size 49)))), ?_⟩
  simp only [footerForest, Forest.bytes, RecordHead.bytes, RecordHead.body, RecordHead.prefixBytes,
    length_footerPayload, h49]
  simp [footerPayload, hzero, footerHead]
  rfl

/-- A footer takes 68 bytes. -/
theorem footerForest_length {sequence : UInt64} (hseq : (writeUleb128 sequence).length ≤ 4)
    (data : Bytes) :
    (footerForest sequence data).bytes.length = 68 := by
  have hpos := (length_writeUleb128 sequence).1
  rw [footerForest, Forest.bytes, Forest.bytes, List.append_nil, RecordHead.length_bytes,
    length_footerPayload]
  change alignUp 3 ((footerHead sequence).headerSize 49 + 49) + 4 = 68
  rw [headerSize_footerHead, alignUp]
  omega

/-- Between the length and the digest there are zeros, and more of them if the length is small. -/
theorem footerForest_zero (sequence : UInt64) {data : Bytes} (hdata : data.length < 2 ^ 31) {i : ℕ}
    (hi : i < 13) :
    (footerForest sequence data).bytes[13 + (writeUleb128 sequence).length + i]? = some 0 := by
  obtain ⟨tail, hbytes⟩ := footerForest_bytes sequence data
  have hbounds := (footerHead sequence).headerSize_bounds 49
  have hpad := alignUp_lt 3 ((footerHead sequence).headerSize 49 + 49)
  have hsize : (footerHead sequence).size 49 = alignUp 3 ((footerHead sequence).headerSize 49 +
      49) + 4 := rfl
  have hv :
      (UInt64.ofNat data.length + UInt64.ofNat ((footerHead sequence).size 49)) >>> 32 = 0 := by
    apply UInt64.toNat_inj.mp
    rw [← UInt64.ofNat_add, UInt64.toNat_shiftRight,
      UInt64.toNat_ofNat_of_lt' (by change _ < 2 ^ 64; omega)]
    exact (Nat.shiftRight_eq_div_pow ..).trans (Nat.div_eq_of_lt (show _ < 2 ^ 32 by omega))
  have hzeros : writeU32 (0 : UInt64).toUInt32 ++ List.replicate 9 0 = List.replicate 13 0 := rfl
  rw [hbytes, writeU64, hv, List.append_assoc (writeU32 _) (writeU32 _),
    ← List.append_assoc (writeU32 (0 : UInt64).toUInt32), hzeros]
  simp only [← List.append_assoc]
  rw [List.append_assoc _ (digestAdapter32 data), List.append_assoc _ (List.replicate 13 0),
    List.getElem?_append_right, List.getElem?_append_left]
  · rw [List.getElem?_replicate_of_lt]
    simp
    omega
  · simp
    omega
  · simp
    omega

/-- Where the digest is. -/
theorem footerForest_digest (sequence : UInt64) (data : Bytes) {i : ℕ} (hi : i < 32) :
    (footerForest sequence data).bytes[26 + (writeUleb128 sequence).length + i]? =
      (digestAdapter32 data)[i]? := by
  obtain ⟨tail, hbytes⟩ := footerForest_bytes sequence data
  rw [hbytes]
  simp only [← List.append_assoc]
  rw [List.append_assoc _ (digestAdapter32 data), List.getElem?_append_right,
    List.getElem?_append_left]
  · congr 1
    simp
    omega
  · simp
    omega
  · simp
    omega

/-- What begins as a footer does describes no stream with a time base. -/
theorem no_stream {sequence : UInt64} (hseq : (writeUleb128 sequence).length ≤ 4) {data : Bytes}
    (hdata : data.length < 2 ^ 31) {payload more : Bytes}
    (hbytes : (footerForest sequence data).bytes = payload ++ more) {s : StreamInfo}
    (hread : wholePayload readStream payload = some s) : ¬ rationalIsValid s.timeBase = true := by
  intro hvalid
  have hpos := (length_writeUleb128 sequence).1
  obtain ⟨-, reserved, hreserved, rfl⟩ := (wholePayload_eq_some_iff decodes_stream ..).mp hread
  have hden : writeU32 s.timeBase.denominator = writeU32 0 := by
    apply List.ext_getElem?
    intro i
    by_cases hi : i < 4
    · have hzero := footerForest_zero sequence hdata (i := 7 + i - (writeUleb128 sequence).length)
        (by omega)
      rw [show 13 + (writeUleb128 sequence).length + (7 + i - (writeUleb128 sequence).length) = 20 +
        i by omega, hbytes] at hzero
      simp only [← List.append_assoc] at hzero
      rw [List.getElem?_append_left (by simp; omega), List.getElem?_append_left (by simp; omega),
        List.getElem?_append_left (by simp; omega),
          List.getElem?_append_right (by simp; omega)] at hzero
      have hindex : 20 + i - (writeU32 s.trackId ++ writeU32 s.generation ++ writeU16 s.mediaKind ++
          reserved ++ writeU32 s.codecTag ++ writeU32 s.timeBase.numerator).length = i := by
        simp
        omega
      rw [hindex] at hzero
      rw [hzero]
      exact (List.getElem?_replicate_of_lt hi).symm
    · rw [List.getElem?_eq_none (by simpa using hi), List.getElem?_eq_none (by simpa using hi)]
  have hpositive := ((rationalIsValid_iff _).mp hvalid).2.1
  rw [writeU32_inj hden] at hpositive
  exact Nat.lt_irrefl 0 hpositive

/-- The number of a record behind a short one is short as well. -/
theorem next_sequence {sequence : UInt64} (hseq : sequence.toNat < 2 ^ 28 - 1) :
    (sequence + 1).toNat = sequence.toNat + 1 ∧ (writeUleb128 (sequence + 1)).length ≤ 4 := by
  have hsucc : (sequence + 1).toNat = sequence.toNat + 1 := by
    rw [UInt64.toNat_add]
    exact Nat.mod_eq_of_lt (show sequence.toNat + 1 < 2 ^ 64 by omega)
  refine ⟨hsucc, ?_⟩
  rw [writeUleb128_eq, hsucc]
  exact length_leb128_le 3 _ (by omega)

/-- Two numbers in a row, of which the first takes two bytes or less, take five at most. -/
theorem length_sequences {sequence : UInt64} (hsucc : (sequence + 1).toNat = sequence.toNat + 1)
    (htwo : (writeUleb128 sequence).length ≤ 2) :
    (writeUleb128 sequence).length + (writeUleb128 (sequence + 1)).length ≤ 5 := by
  have hpos := (length_writeUleb128 sequence).1
  have hlt := lt_of_length_leb128 sequence.toNat
  rw [← writeUleb128_eq] at hlt
  rw [writeUleb128_eq (sequence + 1), hsucc]
  obtain hlen | hlen : (writeUleb128 sequence).length = 1 ∨ (writeUleb128 sequence).length = 2 := by
    omega
  · rw [hlen] at hlt ⊢
    have hle := length_leb128_le 1 (sequence.toNat + 1) (by omega)
    omega
  · rw [hlen] at hlt ⊢
    have hle := length_leb128_le 2 (sequence.toNat + 1) (by omega)
    omega

theorem xor_lt {a b : UInt8} (ha : a.toNat < 32) (hb : b.toNat < 32) : (a ^^^ b).toNat < 32 := by
  rw [UInt8.toNat_xor]
  exact Nat.xor_lt_two_pow (n := 5) ha hb

/-- The prefix of a small record, at the bytes for its size and for that of its payload. -/
theorem RecordHead.prefixBytes_small (h : RecordHead) {n : ℕ} (hn : n < 32) (more : Bytes) :
    ∃ a b, (h.prefixBytes n ++ more)[4]? = some a ∧ (h.prefixBytes n ++ more)[8]? = some b ∧
      a.toNat < 32 ∧ b.toNat < 32 := by
  have hbounds := h.headerSize_bounds n
  have hlow : ((UInt16.ofNat (h.headerSize n) &&& 0xff).toUInt8).toNat = h.headerSize n := by
    rw [UInt16.toNat_toUInt8, UInt16.toNat_and,
      UInt16.toNat_ofNat_of_lt' (by change _ < 2 ^ 16; omega)]
    change (_ &&& (2 ^ 8 - 1)) % 2 ^ 8 = _
    rw [Nat.and_two_pow_sub_one_eq_mod]
    omega
  refine ⟨_, UInt8.ofNat n, rfl, ?_, ?_, ?_⟩
  · rw [RecordHead.prefixBytes, writeUleb128_of_lt (by omega)]
    rfl
  · rw [hlow]
    omega
  · rw [UInt8.toNat_ofNat']
    omega

/-- No small record begins where its bytes 4 and 8 are in the last two words of the digest. -/
theorem no_small_record {sequence : UInt64} {data : Bytes} {place : ℕ}
    (hlo : 46 + (writeUleb128 sequence).length ≤ place)
    (hhi : place < 50 + (writeUleb128 sequence).length) (h : RecordHead) {n : ℕ} (hn : n < 32)
    (more : Bytes) :
    (footerForest sequence data).bytes.drop place ≠ h.prefixBytes n ++ more := by
  intro hbytes
  obtain ⟨a, b, ha, hb, ha32, hb32⟩ := h.prefixBytes_small hn more
  obtain ⟨i, hi⟩ := Nat.exists_eq_add_of_le (show 22 + (writeUleb128 sequence).length ≤
    place by omega)
  have hdigest := fun j hj => footerForest_digest sequence data (i := j) hj
  rw [← hbytes, List.getElem?_drop] at ha hb
  rw [show place + 4 = 26 + (writeUleb128 sequence).length + i by omega, hdigest i (by omega)] at ha
  rw [show place + 8 = 26 + (writeUleb128 sequence).length +
    (i + 4) by omega, hdigest (i + 4) (by omega)] at hb
  exact Nat.not_le.mpr (xor_lt ha32 hb32) (digest_differs data (by omega) (by omega) ha hb)

/-- A packet that ends inside a footer does not end where the footer does. If the rest has room
for a record, the packet's number takes two bytes at most, and how many are left is
determined. -/
theorem RecordHead.left_in_footer {h : RecordHead} (halign : h.alignmentLog2 = 3)
    (hle : (writeUleb128 h.sequence).length ≤ 4) {n left : ℕ} (hn : 45 ≤ n)
    (hsum : 68 = n + (h.paddedSize n - (h.headerSize n + n) + (4 + left))) :
    left ≠ 0 ∧ (14 ≤ left → (writeUleb128 h.sequence).length ≤ 2 ∧
      left = 17 + (writeUleb128 h.sequence).length) := by
  have hpos := (length_writeUleb128 h.sequence).1
  have hpadded : h.paddedSize n = (h.headerSize n + n + 7) / 8 * 8 := by
    rw [RecordHead.paddedSize, halign]
    rfl
  rw [h.headerSize_of_lt (by omega)] at hsum hpadded
  omega

/-- A packet whose payload is found in a footer ends inside the digest, and no record begins
there. -/
theorem no_packet {P : ℕ → RecordHead → Bytes → Prop} {sequence : UInt64}
    (hseq : sequence.toNat < 2 ^ 28 - 1) {data : Bytes} {h : RecordHead}
    (halign : h.alignmentLog2 = 3) (hsequence : h.sequence = sequence) {payload crc : Bytes}
    (hlen : 45 ≤ payload.length) (hcrc : crc.length = 4) {next : Forest} {place : ℕ}
    (hnext : next.Each P place) (hrec : next.Recognized) :
    (footerForest (sequence + 1) data).bytes ≠ payload ++
      (List.replicate (h.paddedSize payload.length -
      (h.headerSize payload.length + payload.length)) 0 ++ (crc ++ next.bytes)) := by
  intro hbytes
  subst hsequence
  obtain ⟨hsucc, hle⟩ := next_sequence hseq
  have hle' : (writeUleb128 h.sequence).length ≤ 4 := by
    rw [writeUleb128_eq]
    exact length_leb128_le 3 _ (by omega)
  have hlength := congrArg List.length hbytes
  simp only [footerForest_length hle data, List.length_append, List.length_replicate,
    hcrc] at hlength
  obtain ⟨hne, hleft⟩ := h.left_in_footer halign hle' hlen hlength
  -- the record that begins in what is left takes 14 bytes
  obtain ⟨h', payload', next', hnext', -⟩ := hnext.head hrec (mt (congrArg List.length) hne)
  have hge := h'.size_ge payload'.length
  have hrest := congrArg List.length hnext'
  rw [List.length_append, h'.length_bytes] at hrest
  obtain ⟨htwo, hleft⟩ := hleft (by omega)
  have hdigits := length_sequences hsucc htwo
  have hpos := (length_writeUleb128 (h.sequence + 1)).1
  have hpos' := (length_writeUleb128 h.sequence).1
  obtain ⟨more, hmore⟩ := h'.prefixBytes_isPrefix payload'
  have hlo : 46 + (writeUleb128 (h.sequence + 1)).length ≤ 51 - (writeUleb128 h.sequence).length :=
    by omega
  apply no_small_record hlo (by omega) h' (show payload'.length < 32 by omega) (more ++ next'.bytes)
  rw [hbytes, ← List.append_assoc, ← List.append_assoc, List.drop_left' (by simp; omega), hnext',
    ← hmore, List.append_assoc]

/-- The bytes of a footer behind the first four are no record of a known type. -/
theorem no_record {P : ℕ → RecordHead → Bytes → Prop} {sequence : UInt64}
    (hseq : (writeUleb128 sequence).length ≤ 4) {data crc : Bytes} (hcrc : crc.length = 4)
    {next : Forest} {place : ℕ} (hnext : next.Each P place) (hrec : next.Recognized) :
    (footerForest sequence data).bytes ≠ crc ++ next.bytes := by
  intro hbytes
  have hpos := (length_writeUleb128 sequence).1
  obtain ⟨tail, htail⟩ := footerForest_bytes sequence data
  rw [hbytes, headerSize_footerHead] at htail
  obtain ⟨-, hbehind⟩ := List.append_inj htail hcrc
  obtain ⟨h, payload, next', hnext', hknown, -⟩ :=
    hnext.head hrec (by rw [hbehind]; simp [writeU16])
  have htype : h.type = UInt16.ofNat (9 + (writeUleb128 sequence).length) := by
    rw [hbehind] at hnext'
    simp only [RecordHead.bytes, RecordHead.body, RecordHead.prefixBytes,
      List.append_assoc] at hnext'
    exact (writeU16_inj (List.append_inj hnext' rfl).1).symm
  have hfour : (writeUleb128 sequence).length = 1 ∨ (writeUleb128 sequence).length = 2 ∨
      (writeUleb128 sequence).length = 3 ∨ (writeUleb128 sequence).length = 4 := by omega
  rcases hknown with hskip | ⟨t, ht, -⟩
  · rw [htype] at hskip
    rcases hfour with hlen | hlen | hlen | hlen <;> rw [hlen] at hskip <;>
      exact absurd hskip (by decide)
  · rw [htype] at ht
    rcases hfour with hlen | hlen | hlen | hlen <;> rw [hlen] at ht <;> cases t <;>
      exact absurd ht (by decide)

/-- **A fragment of a record with a footer behind it** is no forest that a client accepts. -/
theorem fragment_refused {P : ℕ → RecordHead → Bytes → Prop} {sequence : UInt64}
    (hseq : sequence.toNat < 2 ^ 28 - 1) {data : Bytes} (hdata : data.length < 2 ^ 31) {c : Content}
    (hc : c.payload.length ≤ sizeMax) {k : ℕ} (hk : 0 < k) (hk4 : k < 4) {rest : Forest} {place : ℕ}
    (hrest : rest.Each P place) (hrec : rest.Recognized) (hsize : rest.bytes.length ≤ sizeMax) :
    rest.bytes ≠ ((recordPieces (c.head sequence) c.payload).take k).flatten ++
      (footerForest (sequence + 1) data).bytes := by
  intro hbytes
  have hle := (next_sequence hseq).2
  obtain ⟨k, rfl⟩ := Nat.exists_eq_succ_of_ne_zero (Nat.ne_of_gt hk)
  have hfirst : ((recordPieces (c.head sequence) c.payload).take (k + 1)).flatten =
      (c.head sequence).prefixBytes c.payload.length ++
        ((recordPieces (c.head sequence) c.payload).tail.take k).flatten := rfl
  rw [hfirst, List.append_assoc] at hbytes
  -- the first record is the one that was begun, with another payload
  have hne : rest.bytes ≠ [] := by
    have hbounds := (c.head sequence).headerSize_bounds c.payload.length
    rw [hbytes, ← List.length_pos_iff, List.length_append, RecordHead.length_prefixBytes]
    omega
  obtain ⟨h, payload, next, hrest', hknown, hnext, hrecnext⟩ := hrest.head hrec hne
  have hpayload : payload.length ≤ sizeMax := by
    have hge := h.size_ge payload.length
    rw [hrest', List.length_append, h.length_bytes] at hsize
    omega
  rw [hrest'] at hbytes
  simp only [RecordHead.bytes, RecordHead.body, List.append_assoc] at hbytes
  obtain ⟨rfl, hlen, hbehind⟩ := RecordHead.prefixBytes_split hpayload hc hbytes
  obtain rfl | rfl | rfl : k = 0 ∨ k = 1 ∨ k = 2 := by omega
  · -- the payload is found in the footer
    have hbehind : payload ++ _ = (footerForest (sequence + 1) data).bytes := hbehind
    cases c with
    | stream s =>
      rcases hknown with hskip | ⟨t, ht, hread⟩
      · exact absurd (hskip.symm.trans (skippable_code .streamDesc)) (by simp)
      · have ht' : RecordType.streamDesc.code = t.code := ht
        have htype : some t = some .streamDesc := by
          rw [← recordTypeOf_code t, ← ht', recordTypeOf_code]
        obtain ⟨s', hs', hvalid⟩ := hread (Option.some.inj htype)
        exact no_stream hle hdata hbehind.symm hs' hvalid
    | packet p =>
      refine no_packet hseq rfl rfl ?_ rfl hnext hrecnext hbehind.symm
      rw [hlen]
      have hpos := (length_writeUleb128 (UInt64.ofNat p.payload.length)).1
      simp only [Content.payload, PacketInfo.bytes, packetFixed, List.length_append,
        length_writeU32, length_writeU64, length_writeI64]
      omega
  · -- the padding is found in the footer, which does not begin with a zero
    have hpieces : ((recordPieces (c.head sequence) c.payload).tail.take 1).flatten = c.payload :=
      by simp [recordPieces]
    rw [hpieces] at hbehind
    obtain ⟨-, hbehind⟩ := List.append_inj hbehind hlen
    generalize (c.head sequence).paddedSize payload.length -
      ((c.head sequence).headerSize payload.length + payload.length) = padding
      at hbehind
    cases padding with
    | zero => exact no_record hle rfl hnext hrecnext hbehind.symm
    | succ n =>
      obtain ⟨tail, htail⟩ := footerForest_bytes (sequence + 1) data
      rw [htail] at hbehind
      cases hbehind
  · -- the checksum is found in the footer
    have hpieces : ((recordPieces (c.head sequence) c.payload).tail.take 2).flatten = c.payload ++
        List.replicate ((c.head sequence).paddedSize c.payload.length -
          ((c.head sequence).headerSize c.payload.length + c.payload.length)) 0 :=
            by simp [recordPieces]
    rw [hpieces, List.append_assoc] at hbehind
    obtain ⟨-, hbehind⟩ := List.append_inj hbehind hlen
    obtain ⟨-, hbehind⟩ := List.append_inj hbehind (by rw [hlen])
    exact no_record hle rfl hnext hrecnext hbehind.symm

/-! ### What a call that fails leaves -/

/-- Pieces that could not all be appended leave those before the one that failed. -/
theorem appendAll_leaves {b : Buffer} {ps : List Bytes} (hfail : (appendAll b ps).1 ≠ .ok) :
    ∃ k < ps.length, (appendAll b ps).2.data = b.data ++ (ps.take k).flatten := by
  induction ps generalizing b with
  | nil => exact absurd rfl hfail
  | cons p ps ih =>
    rw [appendAll] at hfail ⊢
    obtain ⟨-, ⟨hok, hdata, -⟩ | ⟨hres, hdata⟩⟩ := bufferAppend_cases b p
    · have hr : bufferAppend b p = (.ok, (bufferAppend b p).2) := Prod.ext hok rfl
      rw [hr, andThen_ok] at hfail ⊢
      obtain ⟨k, hk, hleft⟩ := ih hfail
      refine ⟨k + 1, Nat.succ_lt_succ hk, ?_⟩
      rw [hleft, hdata, List.take_succ_cons, List.flatten_cons, List.append_assoc]
    · refine ⟨0, Nat.succ_pos _, ?_⟩
      rw [andThen_of_ne (by simp [hres]), hdata]
      exact (List.append_nil _).symm

theorem appendAll_aggregateLimit (b : Buffer) (ps : List Bytes) :
    (appendAll b ps).2.aggregateLimit = b.aggregateLimit := by
  induction ps generalizing b with
  | nil => rfl
  | cons p ps ih =>
    have hlimit := (bufferAppend_cases b p).1
    rw [appendAll]
    by_cases hok : (bufferAppend b p).1 = .ok
    · have hr : bufferAppend b p = (.ok, (bufferAppend b p).2) := Prod.ext hok rfl
      rw [hr, andThen_ok, ih, hlimit]
    · rw [andThen_of_ne hok, hlimit]

/-- **A record that is begun and has no room as a whole** leaves its first pieces. -/
theorem Mux.call_fragment {mux : Mux} {c : Content} (hnot : ¬ mux.Whole c) :
    ∃ k, 0 < k ∧ k < 4 ∧ c.payload.length ≤ sizeMax ∧ (mux.call c).2.sequence = mux.sequence + 1 ∧
      (mux.call c).2.buffer.data = mux.buffer.data ++
        ((recordPieces (c.head mux.sequence) c.payload).take k).flatten := by
  have hkeeps := mt (mux.keeps_iff_whole c).mp hnot
  unfold Mux.Keeps at hkeeps
  obtain ⟨hfail, hdata⟩ := Classical.not_imp.mp hkeeps
  obtain ⟨-, -, -, hbuffer⟩ | ⟨-, hsize, -, error, hcall⟩ := mux.call_cases c
  · exact absurd (congrArg Buffer.data hbuffer) hdata
  rw [hcall] at hfail hdata ⊢
  dsimp only at hfail hdata ⊢
  have h3 : (3 : UInt8) ≤ 4 := by decide
  by_cases hfits : (c.head mux.sequence).SizeFits c.payload.length
  · have hwrite := writeRecord_eq mux.buffer c.type.code 0 h3 mux.sequence hsize hfits
    rw [hwrite] at hfail hdata ⊢
    obtain ⟨k, hk, hleft⟩ := appendAll_leaves hfail
    refine ⟨k, Nat.pos_of_ne_zero ?_, hk, hsize, rfl, hleft⟩
    rintro rfl
    exact hdata (hleft.trans (List.append_nil _))
  · exact absurd (congrArg (fun r => r.2.data) (writeRecord_wraps mux.buffer c.type.code 0 h3
      mux.sequence hsize hfits)) hdata

/-- The output of a mux is within the limit on all allocations. -/
structure Mux.Limited (mux : Mux) : Prop where
  bounded : mux.buffer.Bounded
  limit : mux.buffer.aggregateLimit = mux.limits.maxAggregateAlloc.toNat

/-- No call takes it beyond. -/
theorem Mux.Limited.call {mux : Mux} (h : mux.Limited) (c : Content) :
    (mux.call c).2.Limited ∧ (mux.call c).2.limits = mux.limits := by
  obtain ⟨-, -, hext, hbuffer⟩ | ⟨-, hsize, -, error, hcall⟩ := mux.call_cases c
  · refine ⟨⟨?_, ?_⟩, hext.limits⟩
    · rw [hbuffer]
      exact h.bounded
    · rw [hbuffer, hext.limits]
      exact h.limit
  rw [hcall]
  have h3 : (3 : UInt8) ≤ 4 := by decide
  refine ⟨⟨writeRecord_bounded h.bounded _ _ h3 _ hsize, ?_⟩, rfl⟩
  dsimp only
  by_cases hfits : (c.head mux.sequence).SizeFits c.payload.length
  · have hwrite := writeRecord_eq mux.buffer c.type.code 0 h3 mux.sequence hsize hfits
    rw [hwrite, appendAll_aggregateLimit]
    exact h.limit
  · have hwrite := writeRecord_wraps mux.buffer c.type.code 0 h3 mux.sequence hsize hfits
    rw [hwrite]
    exact h.limit

/-- So do no calls. -/
theorem Mux.Limited.calls {mux : Mux} (h : mux.Limited) (cs : List Content) :
    (mux.calls cs).2.Limited ∧ (mux.calls cs).2.limits = mux.limits := by
  induction cs generalizing mux with
  | nil => exact ⟨h, rfl⟩
  | cons c cs ih =>
    obtain ⟨hcall, hlimits⟩ := h.call c
    rw [Mux.calls]
    by_cases hok : (mux.call c).1 = .ok
    · have hr : mux.call c = (.ok, (mux.call c).2) := Prod.ext hok rfl
      rw [hr, andThen_ok]
      obtain ⟨hcalls, hlimits'⟩ := ih hcall
      exact ⟨hcalls, hlimits'.trans hlimits⟩
    · rw [andThen_of_ne hok]
      exact ⟨hcall, hlimits⟩

/-- A mux is created within the limit. -/
theorem Mux.limited_create {options : Option MuxOptions} {opened : Bool} {allocs : Stream' Bool}
    {scratch : Stream' (Stream' Bool)} {mux : Mux}
    (h : muxCreate options opened allocs scratch = (.ok, some mux)) : mux.Limited := by
  obtain ⟨-, -, hbounded, hlimits, -⟩ := muxCreate_ok h
  refine ⟨hbounded, ?_⟩
  rw [hlimits]
  unfold muxCreate at h
  dsimp only at h
  split at h
  · cases h
  split at h
  swap
  · cases h
  rename_i buffer hheader
  cases h
  unfold writeHeader at hheader
  split at hheader
  · cases hheader
  dsimp only at hheader
  obtain ⟨hlimit, -⟩ :=
    bufferAppend_cases (Buffer.empty (muxLimits options).maxAggregateAlloc.toNat allocs)
    (headerBody (muxTimeBase options) muxUuid ++
      writeU32 (crc32c (headerBody (muxTimeBase options) muxUuid)))
  rwa [hheader] at hlimit

/-! ### Room for the footer -/

/-- There is room for the footer: in the two buffers in which its record is written, and in the
output. -/
def Mux.FooterFits (mux : Mux) : Prop :=
  (Buffer.empty mux.limits.maxSingleAlloc.toNat mux.scratch.head).HasRoom
    (recordSizes (footerHead mux.sequence) 49) ∧
    (Buffer.empty mux.limits.maxSingleAlloc.toNat mux.scratch.tail.head).HasRoom
      (recordSizes (footerHead mux.sequence) 49) ∧
    mux.buffer.HasRoom [(footerHead mux.sequence).size 49]

instance (mux : Mux) : Decidable mux.FooterFits :=
  inferInstanceAs (Decidable (Buffer.HasRoom _ _ ∧ Buffer.HasRoom _ _ ∧ Buffer.HasRoom _ _))

/-- The record of a footer is written if there is room for it. -/
theorem writeRecord_footer_iff (out : Buffer) (sequence : UInt64) {payload : Bytes}
    (hp : payload.length = 49) :
    (writeRecord out RecordType.footer.code 0 3 sequence payload).1 = .ok ↔
      out.HasRoom (recordSizes (footerHead sequence) 49) := by
  have hbounds := (footerHead sequence).headerSize_bounds 49
  have hfits : (footerHead sequence).SizeFits payload.length := by
    rw [hp]
    change (footerHead sequence).headerSize 49 + 49 + (2 ^ 3 - 1) ≤ 2 ^ 64 - 1
    omega
  have hwrite := writeRecord_eq out RecordType.footer.code 0 (show (3 : UInt8) ≤ 4 by decide)
    sequence (by rw [hp]; decide) hfits
  rw [hwrite, appendAll_eq_ok_iff, map_length_recordPieces, hp]
  rfl

/-- **A footer is appended** if and only if there is room for it. -/
theorem muxAppendFooter_eq_ok_iff (mux : Mux) : (muxAppendFooter mux).1 = .ok ↔ mux.FooterFits := by
  unfold muxAppendFooter Mux.FooterFits
  dsimp only
  rw [← writeRecord_footer_iff _ _ (List.length_replicate (n := 49) (a := (0 : UInt8))),
    ← writeRecord_footer_iff (Buffer.empty mux.limits.maxSingleAlloc.toNat mux.scratch.tail.head)
      mux.sequence
      (length_footerPayload mux.buffer.data
        (writeRecord (Buffer.empty mux.limits.maxSingleAlloc.toNat mux.scratch.head)
        RecordType.footer.code 0 3 mux.sequence (List.replicate 49 0)).2.data.length)]
  split
  · rename_i hne
    exact iff_of_false hne fun h => hne h.1
  rename_i hmeasured
  split
  · rename_i hne
    exact iff_of_false hne fun h => hne h.2.1
  rename_i hrecord
  rw [writeRecord_footer (length_footerPayload ..) (not_not.mp hrecord)]
  have hroom := mux.buffer.hasRoom_cons_iff ((footerHead mux.sequence).bytes
    (footerPayload mux.buffer.data
    (writeRecord (Buffer.empty mux.limits.maxSingleAlloc.toNat mux.scratch.head)
      RecordType.footer.code 0 3 mux.sequence
      (List.replicate 49 0)).2.data.length)) []
  rw [RecordHead.length_bytes, length_footerPayload] at hroom
  rw [hroom]
  exact ⟨fun h => ⟨not_not.mp hmeasured, not_not.mp hrecord, h, trivial⟩, fun h => h.2.2.1⟩

end Tide
