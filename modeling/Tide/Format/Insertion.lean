import Tide.Format.Shift
import Tide.Format.Within
import Tide.Format.Writer

/-!
# Records put into a file

A file that is accepted and has no footer is a header and a forest (`fileOk_of_unfooted`),
and its records may be moved further behind. So a record of a type that may be skipped can
be put between any two of them (`parseTideBytes_insert`), and any of them that follow one
another can be gathered into a group (`parseTideBytes_gather`): the file is accepted again
and tells the same streams and packets.
-/

namespace Tide

open Theory

variable {σ : Type} {callbacks : Callbacks σ} {trace : σ → List Event} {user : σ} {L : Limits}
    {H : Bytes} {finish : Bool}

/-- **An accepted file without footers** is a header and its forest. -/
theorem fileOk_of_unfooted (hcb : callbacks.Traces trace) (hH : H.length = 72) {f : Forest}
    (hno : f.Each (fun _ h _ => NoFooter h) 72) (hB : (H ++ f.bytes).length ≤ sizeMax)
    (hok : (parseTideBytes (H ++ f.bytes) finish (some L) callbacks user (Stream'.const true)).1 =
      .ok) :
    ∃ hd : Header, H = hd.bytes ∧ hd.Valid L ∧ f.Valid L (admits L) 0 hd.bytes [] := by
  obtain ⟨hd, g, hfile⟩ := fileOk_of_ok (hcb.calm (some L) user) hB hok
  obtain ⟨rfl, hbytes⟩ :=
    List.append_inj hfile.bytes (hH.trans (hd.length_bytes hfile.header.uuid_length).symm)
  have hl := hd.lies_behind hfile.header.uuid_length f.bytes
  have hfg : f = g := hno.unique And.left id hl (hfile.forest.each 72) (by rw [← hbytes]; exact hl)
    (by rw [hbytes])
    (by rw [List.length_append, hH]) (Nat.le_refl _) hB (Nat.le_refl _)
  subst hfg
  exact ⟨hd, rfl, hfile.header, hfile.forest⟩

/-- The run over a header and a well-formed forest. -/
theorem trace_of_valid (user : σ) (finish : Bool) (hcb : callbacks.Traces trace) {hd : Header}
    {f : Forest} (hhd : hd.Valid L) (hf : f.Valid L (admits L) 0 hd.bytes [])
    (hB : (hd.bytes ++ f.bytes).length ≤ sizeMax) :
    (parseTideBytes (hd.bytes ++ f.bytes) finish (some L) callbacks user (Stream'.const true)).1 =
      .ok ∧
      trace (parseTideBytes (hd.bytes ++ f.bytes) finish (some L) callbacks user
        (Stream'.const true)).2.user =
        trace user ++ (f.events 72 0).filter callbacks.hears := by
  obtain ⟨p, hparse, hfol, -⟩ := parseTideBytes_file (hcb.calm (some L) user) hB ⟨hhd,
    hf, rfl⟩ finish
  rw [hparse]
  refine ⟨rfl, ?_⟩
  rw [hfol.user]
  exact hcb.deliver user _

/-- Some records of a forest replaced by others that leave the same tracks and are not shorter. -/
theorem Forest.Valid.replace {opens : ℕ → Prop} {depth place : ℕ} {pre : Bytes}
    {ts : List TrackSnapshot} {P R R' Q : Forest}
    (hv : (P.append (R.append Q)).Valid L opens depth pre ts)
    (hno : Q.Each (fun _ h _ => NoFooter h) place)
    (hR' : R'.Valid L opens depth (pre ++ P.bytes) (ts ++ P.tracks))
    (htracks : R'.tracks = R.tracks) (hle : R.bytes.length ≤ R'.bytes.length) :
    (P.append (R'.append Q)).Valid L opens depth pre ts := by
  rw [valid_append_iff, valid_append_iff] at hv ⊢
  obtain ⟨hP, -, hQ⟩ := hv
  refine ⟨hP, hR', ?_⟩
  rw [htracks]
  refine hQ.shift hno ?_ fun _ _ h => h
  simpa using hle

/-- **Records replaced by others** that leave the same tracks and are not shorter: the file is
accepted again, and the records behind them tell the same from other places. -/
theorem parseTideBytes_replace (user : σ) (finish : Bool) (hcb : callbacks.Traces trace)
    (hH : H.length = 72) {P R R' Q : Forest}
    (hno : (P.append (R.append Q)).Each (fun _ h _ => NoFooter h) 72)
    (hok : (parseTideBytes (H ++ (P.bytes ++ (R.bytes ++ Q.bytes))) finish (some L) callbacks user
      (Stream'.const true)).1 = .ok)
    (hR' : ∀ pre ts, R.Valid L (admits L) 0 pre ts → R'.Valid L (admits L) 0 pre ts)
    (htracks : R'.tracks = R.tracks) (hle : R.bytes.length ≤ R'.bytes.length)
    (hB : (H ++ (P.bytes ++ (R'.bytes ++ Q.bytes))).length ≤ sizeMax) :
    let old := parseTideBytes (H ++ (P.bytes ++ (R.bytes ++ Q.bytes))) finish (some L) callbacks
      user (Stream'.const true)
    let new := parseTideBytes (H ++ (P.bytes ++ (R'.bytes ++ Q.bytes))) finish (some L) callbacks
      user (Stream'.const true)
    new.1 = .ok ∧
      trace old.2.user = trace user ++ (P.events 72 0 ++
        (R.events (72 + P.bytes.length) 0 ++ Q.events (72 + P.bytes.length + R.bytes.length)
          0)).filter callbacks.hears ∧
      trace new.2.user = trace user ++ (P.events 72 0 ++
        (R'.events (72 + P.bytes.length) 0 ++
          (Q.events (72 + P.bytes.length + R.bytes.length) 0).map
          (Event.moved (R'.bytes.length - R.bytes.length) 0))).filter callbacks.hears := by
  have hB' : (H ++ (P.append (R.append Q)).bytes).length ≤ sizeMax := by
    simp only [Forest.bytes_append, List.length_append] at hB ⊢
    omega
  obtain ⟨hd, rfl, hhd, hv⟩ := fileOk_of_unfooted (f := P.append (R.append Q)) hcb hH hno hB'
    (by rw [Forest.bytes_append, Forest.bytes_append]; exact hok)
  have hR : R.Valid L (admits L) 0 (hd.bytes ++ P.bytes) ([] ++ P.tracks) :=
    ((Forest.valid_append_iff ..).mp ((Forest.valid_append_iff ..).mp hv).2).1
  have hnoQ := (Forest.each_append_iff.mp (Forest.each_append_iff.mp hno).2).2
  have hnew : (P.append (R'.append Q)).Valid L (admits L) 0 hd.bytes [] :=
    hv.replace hnoQ (hR' _ _ hR) htracks hle
  have hlast : Q.events (72 + P.bytes.length + R'.bytes.length) 0 =
      (Q.events (72 + P.bytes.length + R.bytes.length) 0).map
        (Event.moved (R'.bytes.length - R.bytes.length) 0) := by
    rw [← Forest.events_moved]
    congr 1
    omega
  obtain ⟨-, htold⟩ := trace_of_valid user finish hcb hhd hv hB'
  obtain ⟨haccepted, htold'⟩ := trace_of_valid user finish hcb hhd hnew (by simpa using hB)
  simp only [Forest.bytes_append, Forest.events_append, hlast] at htold htold' haccepted
  exact ⟨haccepted, htold, htold'⟩

/-- Clients hear of the same streams and packets, if these are told. -/
theorem heard_of_same {events events' : List Event}
    (hstreams : streamsOf events' = streamsOf events)
    (hpackets : packetsOf events' = packetsOf events) (told : List Event)
    (callbacks : Callbacks σ) :
    streamsOf (told ++ events'.filter callbacks.hears) =
      streamsOf (told ++ events.filter callbacks.hears) ∧
      packetsOf (told ++ events'.filter callbacks.hears) =
        packetsOf (told ++ events.filter callbacks.hears) := by
  simp only [streamsOf_append, packetsOf_append, Callbacks.streamsOf_heard,
    Callbacks.packetsOf_heard, hstreams, hpackets, and_self]

/-- What `tide_write_record` leaves in an empty buffer. -/
theorem writeRecord_alone {limit : ℕ} {allocs : Stream' Bool} {type flags : UInt16}
    {alignmentLog2 : UInt8} {sequence : UInt64} {payload : Bytes} {out : Buffer}
    (hp : payload.length ≤ sizeMax)
    (hwrite : writeRecord (Buffer.empty limit allocs) type flags alignmentLog2 sequence payload =
      (.ok, out)) :
    alignmentLog2 ≤ 4 ∧ out.data = RecordHead.bytes ⟨type, flags, alignmentLog2, 0,
      sequence⟩ payload := by
  have ha : alignmentLog2 ≤ 4 := by
    by_contra hgt
    rw [writeRecord, if_pos (by simpa using hgt)] at hwrite
    cases hwrite
  have hdata := (writeRecord_ok ha hp (by rw [hwrite])).2
  rw [hwrite] at hdata
  exact ⟨ha, hdata⟩

/-! ### A record that may be skipped -/

/-- **A record that may be skipped, put in between**: the file is accepted again, the streams
and packets are the same, and there is one event more, of the record put in. -/
theorem parseTideBytes_insert (L : Limits) (hcb : callbacks.Traces trace) (user : σ) (finish : Bool)
    {H : Bytes} (hH : H.length = 72) {P Q : Forest}
    (hno : (P.append Q).Each (fun _ h _ => NoFooter h) 72)
    (hok : (parseTideBytes (H ++ (P.bytes ++ Q.bytes)) finish (some L) callbacks user
      (Stream'.const true)).1 = .ok)
    {limit : ℕ} {allocs : Stream' Bool} {type flags : UInt16} {alignmentLog2 : UInt8}
    {sequence : UInt64} {payload : Bytes} {out : Buffer} (hskip : skippable type = true)
    (hpayload : payload.length ≤ L.maxPayloadSize.toNat)
    (hwrite : writeRecord (Buffer.empty limit allocs) type flags alignmentLog2 sequence payload =
      (.ok, out))
    (hrecord : out.data.length ≤ L.maxRecordSize.toNat)
    (hB : (H ++ (P.bytes ++ (out.data ++ Q.bytes))).length ≤ sizeMax) :
    let old :=
      parseTideBytes (H ++ (P.bytes ++ Q.bytes)) finish (some L) callbacks user (Stream'.const true)
    let new := parseTideBytes (H ++ (P.bytes ++ (out.data ++ Q.bytes))) finish (some L) callbacks
      user (Stream'.const true)
    new.1 = .ok ∧ streamsOf (trace new.2.user) = streamsOf (trace old.2.user) ∧
      packetsOf (trace new.2.user) = packetsOf (trace old.2.user) ∧
      ∃ inserted : RecordEvent, inserted.skippable = true ∧ inserted.type = type ∧
        inserted.offset = 72 + P.bytes.length ∧
        trace old.2.user = trace user ++
          (P.events 72 0 ++ Q.events (72 + P.bytes.length) 0).filter callbacks.hears ∧
        trace new.2.user = trace user ++
          (P.events 72 0 ++ .record inserted ::
            (Q.events (72 + P.bytes.length) 0).map (Event.moved out.data.length 0)).filter
              callbacks.hears := by
  intro old new
  have hmax : payload.length ≤ sizeMax :=
    hpayload.trans (Nat.le_pred_of_lt L.maxPayloadSize.toNat_lt)
  obtain ⟨ha, hdata⟩ := writeRecord_alone hmax hwrite
  set h : RecordHead := ⟨type, flags, alignmentLog2, 0, sequence⟩
  have hrt : recordTypeOf h.type = none := recordTypeOf_of_skippable hskip
  have hbytes : (Forest.leaf h payload .nil).bytes = out.data := by
    rw [hdata, Forest.bytes, Forest.bytes, List.append_nil]
  have hsize : out.data.length = h.size payload.length := by rw [hdata, h.length_bytes]
  have hvalid : ∀ pre ts, Forest.nil.Valid L (admits L) 0 pre ts →
      (Forest.leaf h payload .nil).Valid L (admits L) 0 pre ts :=
    fun _ _ _ => ⟨⟨ha, hpayload, hsize ▸ hrecord⟩, .inl hskip, trivial⟩
  obtain ⟨haccepted, htold, htold'⟩ := parseTideBytes_replace user finish hcb hH hno hok hvalid
    (by simp [Forest.tracks, leafTracks, hrt]) (Nat.zero_le _) (by rw [hbytes]; exact hB)
  rw [hbytes] at haccepted htold'
  simp only [Forest.events, Forest.bytes, leafContent, hrt, List.nil_append, List.length_nil,
    Nat.add_zero, Nat.sub_zero] at htold htold'
  refine ⟨haccepted, ?_⟩
  rw [← and_assoc]
  refine ⟨?_, (h.frameAt (72 + P.bytes.length) payload.length (UInt8.ofNat 0)).event, hskip, rfl,
    rfl, htold, htold'⟩
  rw [htold, htold']
  exact heard_of_same (by simp [headEvent]) (by simp [headEvent]) _ _

/-- A record of a type that may be skipped. -/
def spareRecord : Buffer :=
  (writeRecord (Buffer.empty 0 (Stream'.const true)) 0x8001 0 3 9 [1, 2, 3]).2

/-- A record of a type nobody knows, put before the group of the small file. -/
theorem sampleFile_insert :
    (parseTideBytes (sampleHeader.bytes ++ ([] ++ (spareRecord.data ++ sampleForest.bytes))) true
      (some limitsDefault) recorder []
      (Stream'.const true)).1 = .ok := by
  have hok : (parseTideBytes (sampleHeader.bytes ++ ([] ++ sampleForest.bytes)) true
      (some limitsDefault) recorder [] (Stream'.const true)).1 = .ok := by decide +kernel
  have hno : (Forest.nil.append sampleForest).Each (fun _ h _ => NoFooter h) 72 :=
    ⟨rfl, ⟨by decide, by decide⟩,
      ⟨by decide, ⟨by decide, by decide⟩, by decide, ⟨by decide, by decide⟩, trivial⟩, trivial⟩
  have hwrite : writeRecord (Buffer.empty 0 (Stream'.const true)) 0x8001 0 3 9 [1, 2, 3] =
      (.ok, spareRecord) :=
    Prod.ext (by decide +kernel) rfl
  exact (parseTideBytes_insert limitsDefault recorder_traces [] true (by decide +kernel)
    (P := .nil) hno hok (by decide) (by decide)
    hwrite (by decide +kernel) (by decide +kernel)).1

/-! ### Records in a group -/

/-- A depth below the limit is one that groups may have. -/
theorem admits_of_lt {L : Limits} {depth : ℕ} (h : depth < L.maxDepth.toNat) : admits L depth :=
  lt_of_le_of_lt (by simpa using Nat.mod_le ..) h

/-- **Records gathered into a group**: the file is accepted again, the streams and packets are
the same, and there is one event more, of the group, before those of its records. -/
theorem parseTideBytes_gather (L : Limits) (hcb : callbacks.Traces trace) (user : σ) (finish : Bool)
    {H : Bytes} (hH : H.length = 72) {P R Q : Forest}
    (hno : (P.append (R.append Q)).Each (fun _ h _ => NoFooter h) 72)
    (hok : (parseTideBytes (H ++ (P.bytes ++ (R.bytes ++ Q.bytes))) finish (some L) callbacks user
      (Stream'.const true)).1 = .ok)
    {limit : ℕ} {allocs : Stream' Bool} {flags : UInt16} {alignmentLog2 : UInt8} {sequence : UInt64}
    (m : GroupMeta) {out : Buffer}
    (hpayload : (groupPayload m R.bytes).length ≤ L.maxPayloadSize.toNat)
    (hwrite : writeRecord (Buffer.empty limit allocs) RecordType.group.code flags alignmentLog2
      sequence (groupPayload m R.bytes) = (.ok, out))
    (hrecord : out.data.length ≤ L.maxRecordSize.toNat) (hdepth : R.nesting < L.maxDepth.toNat)
    (hB : (H ++ (P.bytes ++ (out.data ++ Q.bytes))).length ≤ sizeMax) :
    let old := parseTideBytes (H ++ (P.bytes ++ (R.bytes ++ Q.bytes))) finish (some L) callbacks
      user (Stream'.const true)
    let new := parseTideBytes (H ++ (P.bytes ++ (out.data ++ Q.bytes))) finish (some L) callbacks
      user (Stream'.const true)
    new.1 = .ok ∧ streamsOf (trace new.2.user) = streamsOf (trace old.2.user) ∧
      packetsOf (trace new.2.user) = packetsOf (trace old.2.user) ∧
      ∃ group : RecordEvent, group.type = RecordType.group.code ∧
        group.offset = 72 + P.bytes.length ∧
        trace old.2.user = trace user ++ (P.events 72 0 ++
          (R.events (72 + P.bytes.length) 0 ++ Q.events (72 + P.bytes.length + R.bytes.length)
            0)).filter callbacks.hears ∧
        trace new.2.user = trace user ++ (P.events 72 0 ++ .record group ::
          ((R.events (72 + P.bytes.length) 0).map
            (Event.moved (group.payloadOffset + 20 - group.offset) 1) ++
            (Q.events (72 + P.bytes.length + R.bytes.length) 0).map
              (Event.moved (out.data.length - R.bytes.length) 0))).filter callbacks.hears := by
  intro old new
  have hmax : (groupPayload m R.bytes).length ≤ sizeMax :=
    hpayload.trans (Nat.le_pred_of_lt L.maxPayloadSize.toNat_lt)
  obtain ⟨ha, hdata⟩ := writeRecord_alone hmax hwrite
  set h : RecordHead := ⟨RecordType.group.code, flags, alignmentLog2, 0, sequence⟩
  have hlen := length_groupPayload m R.bytes
  have hbytes : (Forest.group h m R .nil).bytes = out.data := by
    rw [hdata, Forest.bytes, Forest.bytes, List.append_nil]
  have hsize : out.data.length = h.size (20 + R.bytes.length) := by rw [hdata, h.length_bytes, hlen]
  have hle : R.bytes.length ≤ out.data.length := by
    have hge := h.le_paddedSize (20 + R.bytes.length)
    rw [hsize, RecordHead.size]
    omega
  have hnoR := (Forest.each_append_iff.mp (Forest.each_append_iff.mp hno).2).1
  -- the records of the group lie further behind, and in one group more
  have hvalid : ∀ pre ts, R.Valid L (admits L) 0 pre ts →
      (Forest.group h m R .nil).Valid L (admits L) 0 pre ts := by
    intro pre ts hR
    refine ⟨⟨ha, hlen ▸ hpayload, hsize ▸ hrecord⟩, rfl, admits_of_lt (by omega),
      hR.shift hnoR (by simp) fun k hk _ => ?_, trivial⟩
    exact admits_of_lt (by omega)
  obtain ⟨haccepted, htold, htold'⟩ := parseTideBytes_replace user finish hcb hH hno hok hvalid
    (List.append_nil _)
    (by rw [hbytes]; exact hle) (by rw [hbytes]; exact hB)
  have hevents : (Forest.group h m R .nil).events (72 + P.bytes.length) 0 =
      headEvent h (20 + R.bytes.length) (72 + P.bytes.length) 0 ::
        (R.events (72 + P.bytes.length) 0).map
          (Event.moved (h.headerSize (20 + R.bytes.length) + 20) 1) := by
    rw [Forest.events, ← Forest.events_moved]
    simp [Forest.events, Forest.childOffset, Nat.add_assoc]
  have hplace : 72 + P.bytes.length + h.headerSize (20 + R.bytes.length) + 20 -
      (72 + P.bytes.length) = h.headerSize (20 + R.bytes.length) + 20 := by omega
  rw [hbytes] at haccepted htold'
  rw [hevents, ← hplace] at htold'
  refine ⟨haccepted, ?_⟩
  rw [← and_assoc]
  refine ⟨?_, (h.frameAt (72 + P.bytes.length) (20 + R.bytes.length) (UInt8.ofNat 0)).event, rfl,
    rfl, htold, htold'⟩
  rw [htold, htold']
  exact heard_of_same (by simp [headEvent]) (by simp [headEvent]) _ _

/-- A stream. -/
def flatStream : Forest :=
  .leaf ⟨RecordType.streamDesc.code, 0, 3, 0, 1⟩ (streamFixed ⟨1, 0, 2, 7, ⟨1, 1000⟩, []⟩ ++
    [2, 0xca, 0xfe]) .nil

/-- The packet of it that is gathered. -/
def flatPacket : Forest :=
  .leaf ⟨RecordType.packet.code, 0, 3, 0, 2⟩ (packetFixed ⟨1, 0, 0, 0, 0, 40, 1, []⟩ ++
    [1, 0x2a]) .nil

/-- The packet of it behind that. -/
def flatLast : Forest :=
  .leaf ⟨RecordType.packet.code, 0, 3, 0, 3⟩ (packetFixed ⟨1, 0, 1, 40, 40, 40, 1, []⟩ ++
    [1, 0x2b]) .nil

/-- The group with the one packet. -/
def gatheredRecords : Buffer :=
  (writeRecord (Buffer.empty 0 (Stream'.const true)) RecordType.group.code 0 3 9
    (groupPayload ⟨1, 0, 0⟩ flatPacket.bytes)).2

/-- The first packet of a file, gathered into a group: the second one lies further behind. -/
theorem flatFile_gathered :
    let new := parseTideBytes (sampleHeader.bytes ++
      (flatStream.bytes ++ (gatheredRecords.data ++ flatLast.bytes))) true
      (some limitsDefault) recorder [] (Stream'.const true)
    new.1 = .ok ∧ packetsOf new.2.user = [⟨1, 0, 0, 0, 0, 40, 1, [0x2a]⟩,
      ⟨1, 0, 1, 40, 40, 40, 1, [0x2b]⟩] ∧
      ∃ group : RecordEvent, group.offset = 116 ∧
        new.2.user = flatStream.events 72 0 ++ .record group ::
        ((flatPacket.events 116 0).map (Event.moved (group.payloadOffset + 20 - group.offset) 1) ++
          (flatLast.events 176 0).map (Event.moved 40 0)) := by
  have hok : (parseTideBytes (sampleHeader.bytes ++
      (flatStream.bytes ++ (flatPacket.bytes ++ flatLast.bytes))) true (some limitsDefault) recorder
        [] (Stream'.const true)).1 = .ok := by decide +kernel
  have hno : (flatStream.append (flatPacket.append flatLast)).Each (fun _ h _ => NoFooter h) 72 :=
    ⟨by decide, ⟨by decide, by decide⟩, by decide, ⟨by decide, by decide⟩, by decide,
      ⟨by decide, by decide⟩, trivial⟩
  have hwrite : writeRecord (Buffer.empty 0 (Stream'.const true)) RecordType.group.code 0 3 9
      (groupPayload ⟨1, 0, 0⟩ flatPacket.bytes) = (.ok, gatheredRecords) :=
    Prod.ext (by decide +kernel) rfl
  have hsizes : flatStream.bytes.length = 44 ∧ flatPacket.bytes.length = 60 ∧
      gatheredRecords.data.length = 100 := by decide +kernel
  obtain ⟨haccepted, -, hpackets, group, -, hoffset, -, hevents⟩ :=
    parseTideBytes_gather limitsDefault recorder_traces [] true
    (by decide +kernel) (P := flatStream) (Q := flatLast) hno hok ⟨1, 0, 0⟩ (by decide +kernel)
      hwrite (by decide +kernel) (by decide)
    (by decide +kernel)
  rw [List.filter_eq_self.mpr fun e _ =>
    by cases e <;> rfl, hsizes.1, hsizes.2.1, hsizes.2.2] at hevents
  rw [hsizes.1] at hoffset
  exact ⟨haccepted, hpackets.trans (by decide +kernel), group, hoffset, hevents⟩

end Tide
