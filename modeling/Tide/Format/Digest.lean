import Tide.Format.File

/-!
# What the digest of a footer is blind to

A footer holds a digest of the bytes before it, which is computed from one run of
CRC32C over them. Every record ends in its own CRC32C, so the register comes out of
a record in a state that depends on its length alone (`crcRun_closed`): a packet may be
replaced by any other of the same length, and every footer behind it still matches.
-/

namespace Tide

open Theory

variable {σ : Type}

/-- Two strings that no digest tells apart, nor an offset. -/
structure SameDigest (a b : Bytes) : Prop where
  length : a.length = b.length
  run : ∀ crc, crcRun crc a = crcRun crc b

theorem SameDigest.append {a b : Bytes} (h : SameDigest a b) (c : Bytes) :
    SameDigest (a ++ c) (b ++ c) where
  length := by simp [h.length]
  run crc := by simp [crcRun_append, h.run]

theorem SameDigest.cons {a b : Bytes} (h : SameDigest a b) (c : Bytes) :
    SameDigest (c ++ a) (c ++ b) where
  length := by simp [h.length]
  run crc := by simp [crcRun_append, h.run]

/-- **Records of one length are not told apart.** -/
theorem sameDigest_record {h h' : RecordHead} {payload payload' : Bytes}
    (hsize : h.size payload.length = h'.size payload'.length) :
    SameDigest (h.bytes payload) (h'.bytes payload') where
  length := by simpa using hsize
  run crc := by
    have hbody : (h.body payload).length = (h'.body payload').length := by
      simpa [RecordHead.size] using hsize
    exact crcRun_closed crc hbody

/-- A record that is well formed behind some bytes is so behind others with the same
digest. -/
theorem LeafOk.sameDigest {limits : Limits} {depth : ℕ} {pre pre' : Bytes}
    {tracks : List TrackSnapshot} {h : RecordHead} {payload : Bytes} (hp : SameDigest pre pre')
    (hok : LeafOk limits depth pre tracks h payload) :
    LeafOk limits depth pre' tracks h payload := by
  have hemit : emitSimpleRecord limits tracks (h.frameAt pre'.length payload.length
      (UInt8.ofNat depth)) pre' payload = emitSimpleRecord limits tracks
        (h.frameAt pre.length payload.length (UInt8.ofNat depth)) pre payload := by
    rw [← hp.length]
    refine emitSimpleRecord_congr payload ?_
    have hoff : (h.frameAt pre.length payload.length (UInt8.ofNat depth)).offset = pre.length := rfl
    rw [hoff, List.take_length, hp.length, List.take_length, crc32c, crc32c, hp.run]
  unfold LeafOk at hok ⊢
  rwa [hemit]

/-- A forest that is well formed behind some bytes is so behind others with the same
digest. -/
theorem Forest.Valid.sameDigest {limits : Limits} {opens : ℕ → Prop} {depth : ℕ} {pre pre' : Bytes}
    {tracks : List TrackSnapshot} {f : Forest} (hp : SameDigest pre pre')
    (hv : f.Valid limits opens depth pre tracks) :
    f.Valid limits opens depth pre' tracks := by
  induction f generalizing depth pre pre' tracks with
  | nil => trivial
  | leaf h payload next ih =>
    obtain ⟨hhead, hleaf, hnext⟩ := hv
    exact ⟨hhead, hleaf.sameDigest hp, ih (hp.append _) hnext⟩
  | group h m children next ihc ih =>
    obtain ⟨hhead, ht, hopen, hchildren, hnext⟩ := hv
    exact ⟨hhead, ht, hopen, ihc (hp.append _) hchildren, ih (hp.append _) hnext⟩

/-! ### Replacing a packet -/

/-- A file that ends with a footer, a packet at its top level, and another packet of the
same track and generation that takes the same room: a record of its own, with its own
checksum. -/
structure Replacement (L : Limits) where
  header : Header
  before : Forest
  head : RecordHead
  payload : Bytes
  packet : PacketInfo
  after : Forest
  footer : RecordHead
  footerPayload : Bytes
  newHead : RecordHead
  newPayload : Bytes
  newPacket : PacketInfo
  file_ok : FileOk L (admits L) (header.bytes ++
    (before.append (.leaf head payload (after.append (.leaf footer footerPayload .nil)))).bytes)
    header (before.append (.leaf head payload (after.append (.leaf footer footerPayload .nil))))
  head_type : head.type = RecordType.packet.code
  payload_eq : wholePayload readPacket payload = some packet
  footer_type : footer.type = RecordType.footer.code
  newHead_type : newHead.type = RecordType.packet.code
  alignment : newHead.alignmentLog2 ≤ 4
  newPayload_eq : wholePayload readPacket newPayload = some newPacket
  duration : ¬ newPacket.duration < 0
  trackId : newPacket.trackId = packet.trackId
  generation : newPacket.generation = packet.generation
  length : (newHead.bytes newPayload).length = (head.bytes payload).length
  different : newHead.bytes newPayload ≠ head.bytes payload

namespace Replacement

variable {L : Limits} (x : Replacement L)

/-- The records from the packet on, when the packet is `h` and `payload`. -/
def rest (h : RecordHead) (payload : Bytes) : Forest :=
  .leaf h payload (x.after.append (.leaf x.footer x.footerPayload .nil))

/-- The file. -/
def file : Bytes := x.header.bytes ++ (x.before.append (x.rest x.head x.payload)).bytes

/-- The file with the other packet. -/
def replaced : Bytes := x.header.bytes ++ (x.before.append (x.rest x.newHead x.newPayload)).bytes

theorem size_eq : x.newHead.size x.newPayload.length = x.head.size x.payload.length := by
  simpa using x.length

/-- The other packet is well formed where the packet was. -/
theorem newPacket_ok {pre : Bytes} {tracks : List TrackSnapshot}
    (hok : LeafOk L 0 pre tracks x.head x.payload) :
    LeafOk L 0 pre tracks x.newHead x.newPayload := by
  have hskip : ¬ skippable RecordType.packet.code = true := by decide
  unfold LeafOk at hok ⊢
  rw [x.head_type, or_iff_right hskip, recordTypeOf_code] at hok
  rw [x.newHead_type, or_iff_right hskip, recordTypeOf_code]
  obtain ⟨k, hk, -, htrack⟩ := hok
  obtain rfl := Option.some.inj (hk.symm.trans x.payload_eq)
  exact ⟨x.newPacket, x.newPayload_eq, x.duration, by rw [x.trackId, x.generation]; exact htrack⟩

/-- The tracks of a packet are none. -/
theorem leafTracks_packet {h : RecordHead} (ht : h.type = RecordType.packet.code)
    (payload : Bytes) : leafTracks h payload = [] := by
  unfold leafTracks
  rw [ht, recordTypeOf_code]

/-- The forest with the other packet is well formed, if its payload is within the limit. -/
theorem replaced_ok (hlimit : x.newPayload.length ≤ L.maxPayloadSize.toNat) :
    FileOk L (admits L) x.replaced x.header (x.before.append (x.rest x.newHead x.newPayload)) := by
  have hfile := x.file_ok
  refine ⟨hfile.header, ?_, rfl⟩
  obtain ⟨hbefore, hhead, hleaf, hafter⟩ := (Forest.valid_append_iff ..).mp hfile.forest
  refine (Forest.valid_append_iff ..).mpr ⟨hbefore, ⟨x.alignment, hlimit, ?_⟩,
    x.newPacket_ok hleaf, ?_⟩
  · rw [x.size_eq]
    exact hhead.record
  · rw [leafTracks_packet x.newHead_type]
    rw [leafTracks_packet x.head_type] at hafter
    exact hafter.sameDigest ((sameDigest_record x.size_eq.symm).cons _)

theorem length_replaced : x.replaced.length = x.file.length := by
  simp [replaced, file, rest, Forest.bytes, x.size_eq]

/-- A packet whose payload is above the limit is refused for that. -/
theorem parse_of_limit {callbacks : Callbacks σ} {trace : σ → List Event}
    (hcb : callbacks.Traces trace) (user : σ) (hmax : x.replaced.length ≤ sizeMax)
    (hlimit : L.maxPayloadSize.toNat < x.newPayload.length) :
    (parseTideBytes x.replaced true (some L) callbacks user (Stream'.const true)).1 =
      .resource := by
  have hfile := x.file_ok
  have hbefore := ((Forest.valid_append_iff ..).mp hfile.forest).1
  have hbytes : x.replaced = x.header.bytes ++ x.before.bytes ++
      (x.rest x.newHead x.newPayload).bytes := by
    simp [replaced]
  obtain ⟨p, hfol, -, hparse⟩ := parseTideBytes_forest (hcb.calm (some L) user) hmax hfile.header
    hbefore ⟨_, hbytes.symm⟩ true
  have hlen : (x.header.bytes ++ x.before.bytes).length = 72 + x.before.bytes.length := by
    simp [x.header.length_bytes hfile.header.uuid_length]
  have hsize : 72 + x.before.bytes.length + x.newHead.size x.newPayload.length ≤
      x.replaced.length := by
    rw [hbytes, List.length_append, hlen, rest, Forest.bytes, List.length_append,
      RecordHead.length_bytes]
    omega
  have hge := x.newHead.size_ge x.newPayload.length
  have hl : Lies x.replaced (72 + x.before.bytes.length) (x.newHead.bytes x.newPayload) := by
    rw [hbytes, ← hlen]
    exact lies_mid ..
  have hfit := x.newHead.sizeFits_of_le x.alignment (Nat.le_add_right 72 _) (hsize.trans hmax)
  obtain ⟨hdec, -⟩ : decodeRecordPrefix x.replaced x.replaced.length (72 + x.before.bytes.length)
      0 = .frame (x.newHead.frameAt (72 + x.before.bytes.length) x.newPayload.length 0) ∧ _ :=
    (framed_iff (Nat.le_refl _) hmax).mpr ⟨x.newHead, x.newPayload, x.alignment, hfit,
      hl, hsize, rfl⟩
  have hover : (x.newHead.frameAt (72 + x.before.bytes.length) x.newPayload.length 0).payloadSize >
      p.limits.maxPayloadSize := by
    rw [show p.limits = L from hfol.limits, gt_iff_lt, UInt64.lt_iff_toNat_lt]
    simpa [RecordHead.frameAt, x.newHead.toNat_payloadSize hfit] using hlimit
  rw [hparse, parseRecords_eq _ hmax, if_pos (by omega), recordStep, hdec]
  dsimp only
  rw [if_pos (.inl hover)]
  rfl

end Replacement

/-- **No footer notices another packet**: the file is accepted, and the file with the
other packet is never refused for its integrity; it is accepted, if the payload is
within the limit on payloads. -/
theorem parseTideBytes_replaced {L : Limits} (x : Replacement L) (hmax : x.file.length ≤ sizeMax)
    (callbacks : Callbacks σ) (trace : σ → List Event) (hcb : callbacks.Traces trace) (user : σ) :
    (parseTideBytes x.file true (some L) callbacks user (Stream'.const true)).1 = .ok ∧
      (parseTideBytes x.replaced true (some L) callbacks user (Stream'.const true)).1 ≠ .integrity ∧
      (x.newPayload.length ≤ L.maxPayloadSize.toNat →
        (parseTideBytes x.replaced true (some L) callbacks user (Stream'.const true)).1 = .ok) := by
  have hc := hcb.calm (some L) user
  have hmax' : x.replaced.length ≤ sizeMax := by rw [x.length_replaced]; exact hmax
  have hok : x.newPayload.length ≤ L.maxPayloadSize.toNat →
      (parseTideBytes x.replaced true (some L) callbacks user (Stream'.const true)).1 = .ok := by
    intro hlimit
    obtain ⟨p', hreplaced, -⟩ := parseTideBytes_file hc hmax' (x.replaced_ok hlimit) true
    rw [hreplaced]
  obtain ⟨p, hfile, -⟩ := parseTideBytes_file hc hmax x.file_ok true
  refine ⟨by rw [hfile], ?_, hok⟩
  by_cases hlimit : x.newPayload.length ≤ L.maxPayloadSize.toNat
  · rw [hok hlimit]
    nofun
  · rw [x.parse_of_limit hcb user hmax' (Nat.not_le.mp hlimit)]
    nofun

/-! ### A file with two contents -/

/-- A packet of one byte. -/
def bytePacket (byte : UInt8) : PacketInfo := ⟨1, 0, 0, 0, 0, 40, 1, [byte]⟩

/-- Its payload. -/
def bytePayload (byte : UInt8) : Bytes := packetFixed (bytePacket byte) ++ [1, byte]

/-- A stream, before the packet. -/
def byteStream : Forest :=
  .leaf ⟨RecordType.streamDesc.code, 0, 3, 0, 0⟩ (streamFixed ⟨1, 0, 2, 7, ⟨1, 1000⟩, []⟩ ++
    [0]) .nil

/-- The packet's record. -/
def byteHead : RecordHead := ⟨RecordType.packet.code, 0, 3, 0, 1⟩

/-- The footer's record. -/
def byteFooterHead : RecordHead := ⟨RecordType.footer.code, 0, 3, 0, 2⟩

/-- The bytes before the footer, for the packet of the byte 42. -/
def byteFile : Bytes := sampleHeader.bytes ++ (byteStream.bytes ++ byteHead.bytes (bytePayload 42))

/-- The footer of these bytes. -/
def byteFooter : Bytes :=
  writeU64 (UInt64.ofNat (byteFile.length + byteFooterHead.size 49)) ++
    (writeU64 0 ++ ([0] ++ digestAdapter32 byteFile))

theorem byteFile_ok : FileOk limitsDefault (admits limitsDefault)
    (sampleHeader.bytes ++
      (byteStream.append (.leaf byteHead (bytePayload 42)
        (Forest.append .nil (.leaf byteFooterHead byteFooter .nil)))).bytes)
    sampleHeader (byteStream.append (.leaf byteHead (bytePayload 42)
      (Forest.append .nil (.leaf byteFooterHead byteFooter .nil)))) := by
  refine ⟨?_, ⟨?_, ?_, ?_, ?_, ?_, ?_, trivial⟩, rfl⟩
  · constructor <;> decide +kernel
  · constructor <;> decide +kernel
  · exact .inr ⟨⟨1, 0, 2, 7, ⟨1, 1000⟩, []⟩,
      by decide +kernel, by decide +kernel, by decide +kernel, by decide +kernel⟩
  · constructor <;> decide +kernel
  · exact .inr ⟨bytePacket 42, by decide +kernel, by decide +kernel, by decide +kernel⟩
  · constructor <;> decide +kernel
  · refine .inr ?_
    have hread : wholePayload readFooter byteFooter =
        some (UInt64.ofNat (byteFile.length + byteFooterHead.size 49), 0,
          digestAdapter32 byteFile) := by decide +kernel
    exact (emitSimpleRecord_footer rfl _ 0 _ hread).mpr (by decide +kernel)

/-- The packet of the byte 43 in the place of that of 42. -/
def byteReplacement : Replacement limitsDefault where
  header := sampleHeader
  before := byteStream
  head := byteHead
  payload := bytePayload 42
  packet := bytePacket 42
  after := .nil
  footer := byteFooterHead
  footerPayload := byteFooter
  newHead := byteHead
  newPayload := bytePayload 43
  newPacket := bytePacket 43
  file_ok := byteFile_ok
  head_type := rfl
  payload_eq := by decide +kernel
  footer_type := rfl
  newHead_type := rfl
  alignment := by decide
  newPayload_eq := by decide +kernel
  duration := by decide
  trackId := rfl
  generation := rfl
  length := by decide +kernel
  different := by decide +kernel

theorem byteReplacement_accepted :
    (parseTideBytes byteReplacement.replaced true (some limitsDefault) recorder []
      (Stream'.const true)).1 = .ok :=
  (parseTideBytes_replaced byteReplacement (by decide +kernel) recorder id recorder_traces []).2.2
    (by decide +kernel)

/-- The footer made for the packet of 42 is accepted behind that of 43. -/
theorem byteReplacement_not_noticed :
    ¬ ∀ (L : Limits) (x : Replacement L) (callbacks : Callbacks (List Event)), callbacks.Traces id →
      x.file.length ≤ sizeMax →
      (parseTideBytes x.replaced true (some L) callbacks [] (Stream'.const true)).1 =
        .integrity := by
  intro h
  have hint := h limitsDefault byteReplacement recorder recorder_traces (by decide +kernel)
  have hok : (parseTideBytes byteReplacement.replaced true (some limitsDefault) recorder []
      (Stream'.const true)).1 = .ok := by
    decide +kernel
  rw [hok] at hint
  cases hint

end Tide
