import Mathlib.Data.List.Nodup
import Tide.Demux
import Tide.Format.Flat
import Tide.Mux.Output

/-!
# From the mux to the demux

What a mux writes is a flat file, so it is accepted if and only if its header and its
records are well formed (`parseTideBytes_flat_iff`). Of the records a mux sees to all
but three things: the sizes that the decoder's limits allow (`Sized`), that a track and
generation is described once and within the limit on tracks, and that a packet comes
after the descriptor of its track and generation (`Placed`). Where these hold, the demux
gets back what was written.
-/

namespace Tide

namespace Content

/-- The tracks it leaves in the table. -/
def tracks : Content → List TrackSnapshot
  | stream s => [s.snapshot]
  | packet _ => []

/-- A descriptor is the first of its track and generation and has room in the table; a
packet has its descriptor before it. -/
def Placed (limits : Limits) (ts : List TrackSnapshot) : Content → Prop
  | stream s => findTrack ts s.trackId s.generation = none ∧ ts.length < limits.maxTracks.toNat
  | packet p => (findTrack ts p.trackId p.generation).isSome

theorem recordTypeOf_head (c : Content) (sequence : UInt64) :
    recordTypeOf (c.head sequence).type = some c.type :=
  recordTypeOf_code c.type

theorem not_skippable_head (c : Content) (sequence : UInt64) :
    ¬ skippable (c.head sequence).type = true := by
  rw [head, skippable_code]
  nofun

/-- The payload of a stream is read as the stream. -/
theorem wholePayload_stream {s : StreamInfo} (h : s.bytes.length ≤ sizeMax) :
    wholePayload readStream s.bytes = some s := by
  refine (wholePayload_eq_some_iff decodes_stream ..).mpr ⟨?_, [0, 0], rfl, ?_⟩
  · have hle : s.config.length ≤ s.bytes.length := by
      simp only [StreamInfo.bytes, List.length_append]
      omega
    have hsz : sizeMax = 2 ^ 64 - 1 := rfl
    omega
  · simp [StreamInfo.bytes, streamFixed, writeU16]

/-- The payload of a packet is read as the packet. -/
theorem wholePayload_packet {p : PacketInfo} (h : p.bytes.length ≤ sizeMax) :
    wholePayload readPacket p.bytes = some p := by
  refine (wholePayload_eq_some_iff decodes_packet ..).mpr ⟨?_, ?_⟩
  · have hle : p.payload.length ≤ p.bytes.length := by
      simp only [PacketInfo.bytes, List.length_append]
      omega
    have hsz : sizeMax = 2 ^ 64 - 1 := rfl
    omega
  · simp [PacketInfo.bytes, packetFixed]

/-- **The record of an accepted content** is well formed where the content is placed. -/
theorem leafOk_iff {limits limits' : Limits} {c : Content} (hc : c.Accepted limits') (depth : ℕ)
    (pre : Bytes) (ts : List TrackSnapshot) (sequence : UInt64) :
    LeafOk limits depth pre ts (c.head sequence) c.payload ↔ c.Placed limits ts := by
  unfold LeafOk
  rw [or_iff_right (c.not_skippable_head sequence), recordTypeOf_head]
  cases c with
  | stream s =>
    simp only [type, payload, wholePayload_stream hc.size, Option.some.injEq, exists_eq_left',
      StreamOk, Placed]
    exact and_iff_right hc.encodable
  | packet p =>
    simp only [type, payload, wholePayload_packet hc.size, Option.some.injEq, exists_eq_left',
      PacketOk, Placed]
    exact and_iff_right hc.encodable

theorem leafTracks_head {limits : Limits} {c : Content} (hc : c.Accepted limits)
    (sequence : UInt64) :
    leafTracks (c.head sequence) c.payload = c.tracks := by
  unfold leafTracks
  rw [recordTypeOf_head]
  cases c with
  | stream s => simp [type, payload, wholePayload_stream hc.size, tracks]
  | packet p => rfl

theorem leafContent_head {limits : Limits} {c : Content} (hc : c.Accepted limits)
    (sequence : UInt64) :
    leafContent (c.head sequence) c.payload = [c.event] := by
  unfold leafContent
  rw [recordTypeOf_head]
  cases c with
  | stream s => simp [type, payload, wholePayload_stream hc.size, event]
  | packet p => simp [type, payload, wholePayload_packet hc.size, event]

end Content

/-! ### When the records are well formed -/

/-- The records, with their sequence numbers, keep the decoder's limits. -/
def Sized (limits : Limits) : UInt64 → List Content → Prop
  | _, [] => True
  | sequence, c :: cs =>
      HeadOk limits (c.head sequence) c.payload.length ∧ Sized limits (sequence + 1) cs

/-- Each content is placed behind those before it. -/
def AllPlaced (limits : Limits) : List TrackSnapshot → List Content → Prop
  | _, [] => True
  | ts, c :: cs => c.Placed limits ts ∧ AllPlaced limits (ts ++ c.tracks) cs

/-- **The records of accepted contents are well formed** if and only if they are within the
limits and placed. -/
theorem contentForest_valid_iff {limits limits' : Limits} {opens : ℕ → Prop} {cs : List Content}
    (hcs : ∀ c ∈ cs, c.Accepted limits') (sequence : UInt64) (pre : Bytes)
    (ts : List TrackSnapshot) :
    (contentForest sequence cs).Valid limits opens 0 pre ts ↔ Sized limits sequence cs ∧
      AllPlaced limits ts cs := by
  induction cs generalizing sequence pre ts with
  | nil => exact ⟨fun _ => ⟨trivial, trivial⟩, fun _ => trivial⟩
  | cons c cs ih =>
    obtain ⟨hc, hcs⟩ := List.forall_mem_cons.mp hcs
    rw [contentForest, Forest.Valid, Content.leafOk_iff hc, Content.leafTracks_head hc, ih hcs,
      Sized, AllPlaced]
    constructor
    · rintro ⟨h1, h2, h3, h4⟩
      exact ⟨⟨h1, h3⟩, h2, h4⟩
    · rintro ⟨⟨h1, h3⟩, h2, h4⟩
      exact ⟨h1, h2, h3, h4⟩

theorem contentForest_flat (sequence : UInt64) (cs : List Content) :
    (contentForest sequence cs).Flat := by
  induction cs generalizing sequence with
  | nil => trivial
  | cons c cs ih =>
    refine ⟨?_, show (3 : UInt8) ≤ 4 by decide, ih _⟩
    cases c with
    | stream s => exact (by decide : RecordType.streamDesc.code ≠ RecordType.group.code)
    | packet p => exact (by decide : RecordType.packet.code ≠ RecordType.group.code)

/-- The streams among the contents, in order. -/
def contentStreams (cs : List Content) : List StreamInfo :=
  cs.filterMap fun | .stream s => some s | .packet _ => none

/-- The packets among the contents, in order. -/
def contentPackets (cs : List Content) : List PacketInfo :=
  cs.filterMap fun | .stream _ => none | .packet p => some p

/-- The streams and the packets of the records are those of the contents. -/
theorem contentForest_events {limits : Limits} {cs : List Content}
    (hcs : ∀ c ∈ cs, c.Accepted limits) (sequence : UInt64) (offset depth : ℕ) :
    streamsOf ((contentForest sequence cs).events offset depth) = contentStreams cs ∧
      packetsOf ((contentForest sequence cs).events offset depth) = contentPackets cs := by
  induction cs generalizing sequence offset with
  | nil => exact ⟨rfl, rfl⟩
  | cons c cs ih =>
    obtain ⟨hc, hcs⟩ := List.forall_mem_cons.mp hcs
    obtain ⟨hs, hp⟩ := ih hcs (sequence + 1) (offset + (c.head sequence).size c.payload.length)
    rw [contentForest, Forest.events, Content.leafContent_head hc]
    constructor
    · cases c with
      | stream s => exact congrArg (s :: ·) hs
      | packet p => exact hs
    · cases c with
      | stream s => exact hp
      | packet p => exact congrArg (p :: ·) hp

/-! ### Streams once each, and before their packets -/

/-- The keys of the streams, in order. -/
def streamKeys (cs : List Content) : List (UInt32 × UInt32) :=
  (contentStreams cs).map StreamInfo.key

/-- No stream is described twice, there are no more streams than tracks are allowed, and a
packet comes after its stream. -/
structure Orderly (limits : Limits) (cs : List Content) : Prop where
  distinct : (streamKeys cs).Nodup
  tracks : (contentStreams cs).length ≤ limits.maxTracks.toNat
  described : ∀ pre p post, cs = pre ++ .packet p :: post → p.key ∈ streamKeys pre

/-- A packet comes after its stream, or after the keys that are known. -/
def Described (known : List (UInt32 × UInt32)) (cs : List Content) : Prop :=
  ∀ pre p post, cs = pre ++ .packet p :: post → p.key ∈ known ++ streamKeys pre

theorem described_nil (known : List (UInt32 × UInt32)) : Described known [] := by
  intro pre p post h
  cases pre <;> cases h

theorem described_stream (known : List (UInt32 × UInt32)) (s : StreamInfo) (cs : List Content) :
    Described known (.stream s :: cs) ↔ Described (known ++ [s.key]) cs := by
  have hkeys : ∀ pre, known ++ streamKeys (.stream s :: pre) = known ++ [s.key] ++ streamKeys pre :=
    fun pre =>
    List.append_cons known s.key (streamKeys pre)
  constructor
  · intro h pre p post hcs
    rw [← hkeys]
    exact h (.stream s :: pre) p post (by rw [hcs]; rfl)
  · intro h pre p post hcs
    cases pre with
    | nil => cases hcs
    | cons d pre =>
      obtain ⟨rfl, htail⟩ := List.cons.inj hcs
      rw [hkeys]
      exact h pre p post htail

theorem described_packet (known : List (UInt32 × UInt32)) (p : PacketInfo) (cs : List Content) :
    Described known (.packet p :: cs) ↔ p.key ∈ known ∧ Described known cs := by
  constructor
  · intro h
    constructor
    · have hmem := h [] p cs rfl
      rwa [show streamKeys [] = [] from rfl, List.append_nil] at hmem
    · intro pre q post hcs
      exact h (.packet p :: pre) q post (by rw [hcs]; rfl)
  · rintro ⟨hp, h⟩ pre q post hcs
    cases pre with
    | nil =>
      cases hcs
      exact List.mem_append_left _ hp
    | cons d pre =>
      obtain ⟨rfl, htail⟩ := List.cons.inj hcs
      exact h pre q post htail

/-- Contents are placed behind the tracks of `ts` if and only if they and these tracks are
orderly. -/
theorem allPlaced_iff {limits : Limits} {ts : List TrackSnapshot} (cs : List Content)
    (hts : (ts.map TrackSnapshot.key).Nodup) (hlen : ts.length ≤ limits.maxTracks.toNat) :
    AllPlaced limits ts cs ↔ (ts.map TrackSnapshot.key ++ streamKeys cs).Nodup ∧
      ts.length + (contentStreams cs).length ≤ limits.maxTracks.toNat ∧
        Described (ts.map TrackSnapshot.key) cs := by
  induction cs generalizing ts with
  | nil =>
    refine ⟨fun _ => ⟨?_, hlen, described_nil _⟩, fun _ => trivial⟩
    rwa [show streamKeys [] = [] from rfl, List.append_nil]
  | cons c cs ih =>
    rw [AllPlaced]
    cases c with
    | stream s =>
      have hkeys : (ts ++ [s.snapshot]).map TrackSnapshot.key = ts.map TrackSnapshot.key ++
          [s.key] := by
        rw [List.map_append]
        rfl
      have hone : (ts ++ [s.snapshot]).length = ts.length + 1 := by simp
      have hall : streamKeys (.stream s :: cs) = s.key :: streamKeys cs := rfl
      have hcount : (contentStreams (.stream s :: cs)).length = (contentStreams cs).length + 1 :=
        rfl
      rw [Content.Placed, findTrack_eq_none_iff, Content.tracks, described_stream, hall,
        List.append_cons (ts.map _) s.key, hcount]
      constructor
      · rintro ⟨⟨hnew, hroom⟩, hrest⟩
        have hnodup : (ts.map TrackSnapshot.key ++ [s.key]).Nodup :=
          List.Nodup.append hts (List.nodup_singleton _) (List.disjoint_singleton.mpr hnew)
        obtain ⟨h1, h2, h3⟩ := (ih (hkeys ▸ hnodup) (by omega)).mp hrest
        rw [hkeys] at h1 h3
        exact ⟨h1, by omega, h3⟩
      · rintro ⟨h1, h2, h3⟩
        have hnodup := List.Nodup.of_append_left h1
        have hnew := List.disjoint_singleton.mp (List.disjoint_of_nodup_append hnodup)
        rw [← hkeys] at hnodup h1 h3
        exact ⟨⟨hnew, by omega⟩, (ih hnodup (by omega)).mpr ⟨h1, by omega, h3⟩⟩
    | packet p =>
      rw [Content.Placed, findTrack_isSome_iff, Content.tracks, List.append_nil, ih hts hlen,
        described_packet]
      exact ⟨fun ⟨h1, h2, h3, h4⟩ => ⟨h2, h3, h1, h4⟩, fun ⟨h2, h3, h1, h4⟩ => ⟨h1, h2, h3, h4⟩⟩

/-- **Contents are placed if and only if they are orderly.** -/
theorem allPlaced_nil_iff (limits : Limits) (cs : List Content) :
    AllPlaced limits [] cs ↔ Orderly limits cs := by
  have h := @allPlaced_iff limits [] cs List.nodup_nil (Nat.zero_le _)
  rw [List.length_nil, Nat.zero_add] at h
  exact h.trans ⟨fun ⟨h1, h2, h3⟩ => ⟨h1, h2, h3⟩, fun h => ⟨h.distinct, h.tracks, h.described⟩⟩

/-! ### The footer -/

/-- **The footer of an output is well formed** if it is within the limits. -/
theorem footerForest_valid_iff {limits : Limits} {opens : ℕ → Prop} {sequence : UInt64}
    {data : Bytes} {ts : List TrackSnapshot}
    (hmax : (data ++ (footerForest sequence data).bytes).length ≤ sizeMax) :
    (footerForest sequence data).Valid limits opens 0 data ts ↔
      HeadOk limits (footerHead sequence) 49 := by
  have hread : wholePayload readFooter (footerPayload data ((footerHead sequence).size 49)) =
      some (UInt64.ofNat data.length + UInt64.ofNat ((footerHead sequence).size 49), 0,
        digestAdapter32 data) := by
    refine (wholePayload_eq_some_iff decodes_footer ..).mpr ⟨0, length_digestAdapter32 data, ?_⟩
    have hzero : writeUleb128 0 = [0] := by rw [writeUleb128_eq]; exact leb128_of_lt (by decide)
    rw [hzero]
    rfl
  have hleaf : LeafOk limits 0 data ts (footerHead sequence)
      (footerPayload data ((footerHead sequence).size 49)) := by
    refine .inr ?_
    refine (emitSimpleRecord_footer rfl _ 0 _ hread).mpr ⟨?_, fun h => absurd rfl h, ?_⟩
    · have hsz : sizeMax = 2 ^ 64 - 1 := rfl
      simp only [footerForest, Forest.bytes, List.append_nil, List.length_append,
        RecordHead.length_bytes, length_footerPayload] at hmax
      rw [← UInt64.ofNat_add, UInt64.toNat_ofNat_of_lt' (by change _ < 2 ^ 64; omega)]
      simp [RecordHead.frameAt]
    · simp [RecordHead.frameAt]
  rw [footerForest, Forest.Valid, length_footerPayload]
  exact ⟨fun h => h.1, fun h => ⟨h, hleaf, trivial⟩⟩

/-! ### The whole output -/

theorem Forest.Flat.append {f g : Forest} (hf : f.Flat) (hg : g.Flat) : (f.append g).Flat := by
  induction f with
  | nil => exact hg
  | leaf h payload next ih =>
    obtain ⟨ht, ha, hnext⟩ := hf
    exact ⟨ht, ha, ih hnext⟩
  | group => exact hf.elim

theorem outputForest_flat (header : Bytes) (footer : Bool) (cs : List Content) :
    (outputForest header footer cs).Flat := by
  refine (contentForest_flat 0 cs).append ?_
  cases footer with
  | false => trivial
  | true =>
    exact ⟨(by decide : RecordType.footer.code ≠ RecordType.group.code), show (3 : UInt8) ≤
      4 by decide, trivial⟩

/-- **The records of an output are well formed** if and only if they are within the limits and
orderly. -/
theorem outputForest_valid_iff {limits limits' : Limits} {opens : ℕ → Prop} {header : Bytes}
    {footer : Bool} {cs : List Content} (hcs : ∀ c ∈ cs, c.Accepted limits')
    (hmax : (header ++ (outputForest header footer cs).bytes).length ≤ sizeMax) :
    (outputForest header footer cs).Valid limits opens 0 header [] ↔
      Sized limits 0 cs ∧ Orderly limits cs ∧
        (footer = true → HeadOk limits (footerHead (UInt64.ofNat cs.length)) 49) := by
  rw [outputForest, Forest.valid_append_iff, contentForest_valid_iff hcs, allPlaced_nil_iff,
    and_assoc]
  refine and_congr_right fun _ => and_congr_right fun _ => ?_
  cases footer with
  | false => exact iff_of_true trivial (by simp)
  | true =>
    rw [outputForest, Forest.bytes_append, ← List.append_assoc] at hmax
    rw [forall_prop_of_true rfl]
    exact footerForest_valid_iff hmax

/-- An output tells the streams and the packets that were written. -/
theorem outputForest_events {limits : Limits} (header : Bytes) (footer : Bool) {cs : List Content}
    (hcs : ∀ c ∈ cs, c.Accepted limits) (offset : ℕ) :
    streamsOf ((outputForest header footer cs).events offset 0) = contentStreams cs ∧
      packetsOf ((outputForest header footer cs).events offset 0) = contentPackets cs := by
  obtain ⟨hs, hp⟩ := contentForest_events hcs 0 offset 0
  rw [outputForest, Forest.events_append, streamsOf, packetsOf, List.filterMap_append,
    List.filterMap_append]
  -- a footer tells of no stream and no packet
  cases footer with
  | false => exact ⟨(List.append_nil _).trans hs, (List.append_nil _).trans hp⟩
  | true => exact ⟨(List.append_nil _).trans hs, (List.append_nil _).trans hp⟩

/-- The header of an output is valid if its hint is within the limits. -/
theorem muxHeader_valid_iff {options : Option MuxOptions}
    (h : rationalIsValid (muxTimeBase options) = true) (limits : Limits) :
    (muxHeader options).Valid limits ↔ 64 * 1024 * 1024 ≤ limits.maxRecordSize :=
  ⟨fun hv => hv.hint, fun hint => ⟨rfl, by simp only [muxHeader]; decide, h, hint⟩⟩

/-- A footer is within the limits if its payload is, where the header's hint is. -/
theorem footerHead_ok_iff {limits : Limits} (h : 64 * 1024 * 1024 ≤ limits.maxRecordSize)
    (sequence : UInt64) :
    HeadOk limits (footerHead sequence) 49 ↔ 49 ≤ limits.maxPayloadSize.toNat := by
  have hbounds := (footerHead sequence).headerSize_bounds 49
  have hpad := alignUp_lt (footerHead sequence).alignmentLog2.toNat
    ((footerHead sequence).headerSize 49 + 49)
  have hsize : (footerHead sequence).size 49 ≤ 64 * 1024 * 1024 := by
    change alignUp (footerHead sequence).alignmentLog2.toNat ((footerHead sequence).headerSize 49 +
      49) + 4 ≤ _
    rw [show (footerHead sequence).alignmentLog2.toNat = 3 from rfl] at hpad ⊢
    omega
  exact ⟨fun hok => hok.payload,
    fun hp => ⟨show (3 : UInt8) ≤ 4 by decide, hp, hsize.trans (UInt64.le_iff_toNat_le.mp h)⟩⟩

/-- **When an output is accepted**: the hint of its header and the sizes of its records are
within the decoder's limits, and the streams and packets are orderly. -/
theorem fileOk_output_iff {options : Option MuxOptions} {env : MuxEnv} {cs : List Content}
    {bytes : Bytes} (limits : Limits) (h : (muxSession options env cs).2 = some bytes) :
    FileOk limits (admits limits) bytes (muxHeader options)
    (outputForest (muxHeader options).bytes (muxWriteFooter options) cs) ↔
      64 * 1024 * 1024 ≤ limits.maxRecordSize ∧ Sized limits 0 cs ∧ Orderly limits cs ∧
        (muxWriteFooter options = true → 49 ≤ limits.maxPayloadSize.toNat) := by
  obtain ⟨hbytes, hbase, hmax, hcs⟩ := muxSession_output h
  rw [hbytes] at hmax
  constructor
  · intro hfile
    have hint := (muxHeader_valid_iff hbase limits).mp hfile.header
    obtain ⟨hsized, horderly, hfooter⟩ := (outputForest_valid_iff hcs hmax).mp hfile.forest
    exact ⟨hint, hsized, horderly, fun hw => (footerHead_ok_iff hint _).mp (hfooter hw)⟩
  · rintro ⟨hint, hsized, horderly, hfooter⟩
    refine ⟨(muxHeader_valid_iff hbase limits).mpr hint, (outputForest_valid_iff hcs hmax).mpr
      ⟨hsized, horderly, ?_⟩, hbytes⟩
    exact fun hw => (footerHead_ok_iff hint _).mpr (hfooter hw)

/-! ### From the mux to the demux -/

/-- What a mux accepts with the default limits is within the decoder's. -/
theorem sized_default {cs : List Content} (hcs : ∀ c ∈ cs, c.Accepted limitsDefault)
    (sequence : UInt64) :
    Sized limitsDefault sequence cs := by
  induction cs generalizing sequence with
  | nil => trivial
  | cons c cs ih =>
    obtain ⟨hc, hcs⟩ := List.forall_mem_cons.mp hcs
    have hlen : c.payload.length ≤ 32 * 1024 * 1024 := hc.limit.resolve_left (by decide)
    have hbounds := (c.head sequence).headerSize_bounds c.payload.length
    have hpad := alignUp_lt 3 ((c.head sequence).headerSize c.payload.length + c.payload.length)
    have hsize : (c.head sequence).size c.payload.length =
        alignUp 3 ((c.head sequence).headerSize c.payload.length + c.payload.length) + 4 := rfl
    refine ⟨⟨show (3 : UInt8) ≤ 4 by decide, ?_, ?_⟩, ih hcs _⟩
    · change _ ≤ 64 * 1024 * 1024
      omega
    · change _ ≤ 64 * 1024 * 1024
      omega

/-- **What a mux with the default limits writes** of orderly contents is a file, which tells
of these contents. -/
theorem muxSession_file {options : Option MuxOptions} {env : MuxEnv} {cs : List Content}
    {bytes : Bytes} (hlimits : muxLimits options = limitsDefault)
    (hsession : (muxSession options env cs).2 = some bytes) (hcs : Orderly limitsDefault cs) :
    ∃ f, FileOk limitsDefault (admits limitsDefault) bytes (muxHeader options) f ∧
      bytes.length ≤ sizeMax ∧
      streamsOf (f.events 72 0) = contentStreams cs ∧
        packetsOf (f.events 72 0) = contentPackets cs := by
  obtain ⟨-, -, hmax, haccepted⟩ := muxSession_output hsession
  rw [hlimits] at haccepted
  have hfile := (fileOk_output_iff limitsDefault hsession).mpr
    ⟨by decide, sized_default haccepted 0, hcs, fun _ => by decide⟩
  exact ⟨_, hfile, hmax, outputForest_events (muxHeader options).bytes
    (muxWriteFooter options) haccepted 72⟩

/-- **The round trip**: what a mux with the default limits writes of orderly streams and
packets is accepted by the parser, and the demux yields the streams and the packets that
were written. -/
theorem muxSession_roundTrip {σ : Type} (options : Option MuxOptions) (env : MuxEnv)
    (cs : List Content) (bytes : Bytes) (hlimits : muxLimits options = limitsDefault)
    (hsession : (muxSession options env cs).2 = some bytes) (hcs : Orderly limitsDefault cs)
    (callbacks : Callbacks σ) (trace : σ → List Event) (hcb : callbacks.Traces trace) (user : σ)
    (demuxOptions : Option DemuxOptions) (hdemux : demuxLimits demuxOptions = limitsDefault)
    (hselect : demuxOptions.elim 0 DemuxOptions.selectedTrack = 0) :
    (parseTideBytes bytes true (some limitsDefault) callbacks user (Stream'.const true)).1 = .ok ∧
      ∃ demux, demuxOpen bytes demuxOptions (Stream'.const true) (Stream'.const true) =
        (.ok, some demux) ∧
        demux.Yields (contentStreams cs) (contentPackets cs) := by
  obtain ⟨f, hfile, hmax, hs, hp⟩ := muxSession_file hlimits hsession hcs
  obtain ⟨p, hparse, -⟩ := parseTideBytes_file (hcb.calm (some limitsDefault) user) hmax hfile true
  rw [← hdemux] at hfile
  obtain ⟨demux, hopen, hholds⟩ := demuxOpen_file hmax hfile
  have hyields := hholds.yields hselect
  rw [hs, hp] at hyields
  exact ⟨congrArg Prod.fst hparse, demux, hopen, hyields⟩

/-- A machine on which nothing fails. -/
def MuxEnv.calm : MuxEnv :=
  ⟨true, true, true, Stream'.const true, Stream'.const (Stream'.const true)⟩

/-- A stream with a configuration, and two generations of it with packets. -/
def sampleContents : List Content :=
  [.stream ⟨1, 0, 2, 7, ⟨1, 1000⟩, [0xca, 0xfe]⟩, .packet ⟨1, 0, 0, -40, 0, 40, 1, [0x2a]⟩,
    .stream ⟨1, 1, 2, 7, ⟨1, 48000⟩, []⟩, .packet ⟨1, 1, 1, 0, 40, 40, 0, []⟩,
      .packet ⟨1, 0, 2, 40, 80, 40, 0, [1, 2, 3]⟩]

theorem sampleContents_orderly : Orderly limitsDefault sampleContents := by
  refine ⟨by decide, by decide, ?_⟩
  change Described [] sampleContents
  simp only [sampleContents, described_stream, described_packet]
  exact ⟨by decide, by decide, by decide, described_nil _⟩

theorem sampleContents_roundTrip : ∃ bytes, (muxSession none .calm sampleContents).2 = some bytes ∧
    (parseTideBytes bytes true (some limitsDefault) recorder [] (Stream'.const true)).1 = .ok ∧
      ∃ demux, demuxOpen bytes none (Stream'.const true) (Stream'.const true) = (.ok, some demux) ∧
        demux.Yields (contentStreams sampleContents) (contentPackets sampleContents) := by
  obtain ⟨bytes, hbytes⟩ := Option.isSome_iff_exists.mp
    (by decide +kernel : (muxSession none .calm sampleContents).2.isSome = true)
  exact ⟨bytes, hbytes, muxSession_roundTrip none .calm sampleContents bytes rfl hbytes
    sampleContents_orderly recorder id
    recorder_traces [] none rfl rfl⟩

/-- **When what a mux writes can be opened**, with the same limits on both sides: the hint of
the header, the payloads and the records are within the limits, and the streams and
packets are orderly. The mux checks none of this. -/
theorem demuxOpen_muxSession_iff (limits : Limits) (hlimits : limits.maxRecordSize ≠ 0)
    (movieTimeBase : Rational) (writeFooter : Bool) (selectedTrack : UInt32) (strict : Bool)
    (env : MuxEnv) (cs : List Content) (bytes : Bytes)
    (hsession : muxSession (some ⟨limits, movieTimeBase, writeFooter⟩) env cs = (.ok, some bytes)) :
    (demuxOpen bytes (some ⟨limits, selectedTrack, strict⟩) (Stream'.const true)
      (Stream'.const true)).1 = .ok ↔
      64 * 1024 * 1024 ≤ limits.maxRecordSize ∧ Sized limits 0 cs ∧ Orderly limits cs ∧
        (writeFooter = true → 49 ≤ limits.maxPayloadSize.toNat) := by
  have hdemux : demuxLimits (some ⟨limits, selectedTrack, strict⟩) = limits := if_neg hlimits
  have hout := congrArg Prod.snd hsession
  obtain ⟨rfl, -, hmax, -⟩ := muxSession_output hout
  refine Iff.trans ?_ (fileOk_output_iff limits hout)
  rw [demuxOpen_fst, hdemux]
  have hcalm := calm_demux limits (some ⟨limits, selectedTrack, strict⟩)
  refine (parseTideBytes_flat_iff hcalm rfl (outputForest_flat ..) hmax).trans ?_
  exact ⟨fun ⟨h1, h2⟩ => ⟨h1, h2, rfl⟩, fun h => ⟨h.header, h.forest⟩⟩

theorem sampleContents_opens : ∃ bytes,
    muxSession (some ⟨limitsDefault, ⟨1, 1000⟩, true⟩) .calm sampleContents = (.ok, some bytes) ∧
      (demuxOpen bytes (some ⟨limitsDefault, 0, true⟩) (Stream'.const true)
        (Stream'.const true)).1 = .ok := by
  have hok : (muxSession (some ⟨limitsDefault, ⟨1, 1000⟩, true⟩) .calm sampleContents).1 = .ok := by
    decide +kernel
  have hsome : (muxSession (some ⟨limitsDefault, ⟨1, 1000⟩, true⟩) .calm
      sampleContents).2.isSome = true := by
    decide +kernel
  obtain ⟨bytes, hbytes⟩ := Option.isSome_iff_exists.mp hsome
  have hsession : muxSession (some ⟨limitsDefault, ⟨1, 1000⟩, true⟩) .calm sampleContents =
      (.ok, some bytes) :=
    Prod.ext hok hbytes
  have haccepted := (muxSession_output hbytes).2.2.2
  refine ⟨bytes, hsession, ?_⟩
  exact (demuxOpen_muxSession_iff limitsDefault (by decide) ⟨1, 1000⟩ true 0 true .calm
    sampleContents bytes hsession).mpr
    ⟨by decide, sized_default haccepted 0, sampleContents_orderly, fun _ => by decide⟩

/-- A packet whose stream was never described. -/
def strayPacket : Content := .packet ⟨1, 0, 0, 0, 0, 40, 1, [0x2a]⟩

/-- The output of a session that writes it. -/
def strayOutput : Bytes :=
  ((muxSession (some ⟨limitsDefault, ⟨1, 1000⟩, true⟩) .calm [strayPacket]).2).getD []

/-- It is written, and refused when it is read. -/
theorem strayPacket_refused :
    ¬ ∀ (limits : Limits) (_ : limits.maxRecordSize ≠ 0) (movieTimeBase : Rational)
    (writeFooter : Bool)
    (selectedTrack : UInt32) (strict : Bool) (env : MuxEnv) (cs : List Content) (bytes : Bytes)
    (_ : muxSession (some ⟨limits, movieTimeBase, writeFooter⟩) env cs = (.ok, some bytes)),
    (demuxOpen bytes (some ⟨limits, selectedTrack, strict⟩) (Stream'.const true)
      (Stream'.const true)).1 = .ok := by
  intro hall
  have hsession : muxSession (some ⟨limitsDefault, ⟨1, 1000⟩, true⟩) .calm [strayPacket] =
      (.ok, some strayOutput) := by
    decide +kernel
  have hopen := hall limitsDefault (by decide) ⟨1, 1000⟩ true 0 false .calm [strayPacket]
    strayOutput hsession
  exact absurd hopen (by decide +kernel)

end Tide
