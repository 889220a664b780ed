import Tide.Mux.RoundTrip

/-!
# Remuxing

The model of `remux_cmd` in `src/cli/main.c`. The streams of a demux are written to a fresh
mux, and then its packets, one after the other; `tide_repair_write` has the same two loops
(`copyAll`).

* `copyAll_eq_calls`: the loops make the calls of the streams and then those of the packets.
* `Forest.orderly`: in what a file tells no stream is described twice and each packet has its
  stream, wherever in the file they are, so the copies are orderly.
* `remux_preserves`: a remuxed file yields the streams and the packets of the source, and
  remuxing it once more gives the same bytes.
-/

namespace Tide

/-! ### The loops -/

/-- The loop over the streams, from `index` on. -/
def copyStreams (demux : Demux) : (left index : ℕ) → Mux → Status × Mux
  | 0, _, mux => (.ok, mux)
  | left + 1, index, mux =>
    match demuxStreamInfo demux index with
    | (.ok, some stream) => andThen (muxAddStream mux stream) (copyStreams demux left (index + 1))
    | (status, _) => (status, mux)

/-- The loop over the packets. Each round takes one of the fuel and moves one packet out, so
that it is not used up (`copyPackets_eq_calls`). -/
def copyPackets : ℕ → Demux → Mux → Status × Mux
  | 0, _, mux => (.internal, mux)
  | fuel + 1, demux, mux =>
    match demuxNext demux with
    | (.wouldBlock, _, _) => (.ok, mux)
    | (.ok, packet, demux) => andThen (muxWritePacket mux packet) (copyPackets fuel demux)
    | (status, _, _) => (status, mux)

/-- Both loops. -/
def copyAll (demux : Demux) (mux : Mux) : Status × Mux :=
  andThen (copyStreams demux (demuxStreamCount demux) 0 mux)
    (copyPackets (demux.packets.length + 1) demux)

/-! ### `main.c` -/

/-- `status_to_exit`. -/
def statusToExit : Status → ℕ
  | .ok => 0
  | .invalidArgument => 2
  | .format | .unsupported | .integrity | .timeline | .index => 3
  | .resource => 4
  | .cancelled => 5
  | .partialTail => 6
  | _ => 10

/-- The `demux_options` of `remux_cmd`. -/
def remuxDemuxOptions : DemuxOptions := ⟨limitsDefault, 0, false⟩

/-- The `mux_options` of `remux_cmd`. -/
def remuxMuxOptions : MuxOptions := ⟨limitsDefault, ⟨1, 1000⟩, true⟩

/-- `remux_cmd` on a source that could be read: its status before `status_to_exit`, and the
bytes that are handed to `fwrite`. The mux is closed even if a call to it has failed. -/
def remux (source : Bytes) (trackAllocs allocs : Stream' Bool)
    (env : MuxEnv) : Status × Option Bytes :=
  match demuxOpen source (some remuxDemuxOptions) trackAllocs allocs with
  | (.ok, some demux) =>
    match muxCreate (some remuxMuxOptions) env.opened env.allocs env.scratch with
    | (.ok, some mux) =>
      let copied := copyAll demux mux
      let closed := muxClose copied.2 env.written env.flushed
      (if copied.1 = .ok then closed.1 else copied.1, closed.2)
    | (status, _) => (status, none)
  | (status, _) => (status, none)

/-! ### The loops make the calls -/

/-- The calls that write streams and then packets. -/
def copies (ss : List StreamInfo) (ps : List PacketInfo) : List Content :=
  ss.map .stream ++ ps.map .packet

theorem Mux.calls_append (mux : Mux) (cs ds : List Content) :
    mux.calls (cs ++ ds) = andThen (mux.calls cs) (·.calls ds) := by
  induction cs generalizing mux with
  | nil => rfl
  | cons c cs ih =>
    rw [List.cons_append, Mux.calls, Mux.calls]
    by_cases hok : (mux.call c).1 = .ok
    · have hcall : mux.call c = (.ok, (mux.call c).2) := Prod.ext hok rfl
      rw [hcall, andThen_ok, andThen_ok, ih]
    · rw [andThen_of_ne hok, andThen_of_ne hok, andThen_of_ne hok]

theorem copyStreams_eq_calls (demux : Demux) (left index : ℕ) (mux : Mux)
    (h : index + left = demux.streams.length) :
    copyStreams demux left index mux = mux.calls ((demux.streams.drop index).map .stream) := by
  induction left generalizing index mux with
  | zero =>
    rw [List.drop_eq_nil_of_le (by omega)]
    rfl
  | succ left ih =>
    have hlt : index < demux.streams.length := by omega
    have hinfo : demuxStreamInfo demux index = (.ok, some demux.streams[index]) := by
      rw [demuxStreamInfo, List.getElem?_eq_getElem hlt]
    rw [copyStreams, hinfo, List.drop_eq_getElem_cons hlt]
    exact congrArg (andThen (muxAddStream mux demux.streams[index]))
      (funext fun mux' => ih (index + 1) mux' (by omega))

theorem copyPackets_eq_calls (fuel : ℕ) (demux : Demux) (mux : Mux)
    (h : (demux.packets.drop demux.cursor).length < fuel) :
    copyPackets fuel demux mux = mux.calls ((demux.packets.drop demux.cursor).map .packet) := by
  induction fuel generalizing demux mux with
  | zero => exact absurd h (Nat.not_lt_zero _)
  | succ fuel ih =>
    rw [copyPackets]
    obtain ⟨hnil, hnext⟩ | ⟨packet, demux', hdrop, hnext⟩ := demuxNext_cases demux
    · rw [hnext, hnil]
      rfl
    · rw [hdrop, List.length_cons] at h
      rw [hnext, hdrop]
      exact congrArg (andThen (muxWritePacket mux packet))
        (funext fun mux' => ih demux' mux' (Nat.lt_of_succ_lt_succ h))

/-- **The loops make the calls** of the streams and then those of the packets. -/
theorem copyAll_eq_calls {demux : Demux} (hcursor : demux.cursor = 0) (mux : Mux) :
    copyAll demux mux = mux.calls (copies demux.streams demux.packets) := by
  have hdrop : demux.packets.drop demux.cursor = demux.packets := by rw [hcursor, List.drop_zero]
  have hstreams := copyStreams_eq_calls demux (demuxStreamCount demux) 0 mux (Nat.zero_add _)
  rw [List.drop_zero] at hstreams
  have hpackets : ∀ mux, copyPackets (demux.packets.length + 1) demux mux =
      mux.calls (demux.packets.map .packet) := by
    intro mux
    rw [copyPackets_eq_calls _ demux mux (by rw [hdrop]; exact Nat.lt_succ_self _), hdrop]
  rw [copyAll, copies, Mux.calls_append, hstreams]
  exact congrArg (andThen _) (funext hpackets)

/-! ### What a file tells is orderly -/

/-- A track table without duplicates and within the limit, in which the packets have their
streams. -/
structure TableOk (limits : Limits) (ts : List TrackSnapshot) (ps : List PacketInfo) : Prop where
  distinct : (ts.map TrackSnapshot.key).Nodup
  tracks : ts.length ≤ limits.maxTracks.toNat
  described : ∀ p ∈ ps, p.key ∈ ts.map TrackSnapshot.key

/-- The tracks of a record are those of the streams it tells of. -/
theorem leafTracks_eq (h : RecordHead) (payload : Bytes) :
    leafTracks h payload = (streamsOf (leafContent h payload)).map StreamInfo.snapshot := by
  unfold leafTracks leafContent
  cases recordTypeOf h.type with
  | none => rfl
  | some t =>
    cases t <;> try rfl
    · cases wholePayload readStream payload <;> rfl
    · cases wholePayload readPacket payload <;> rfl

theorem Forest.tracks_eq (f : Forest) (offset depth : ℕ) :
    f.tracks = (streamsOf (f.events offset depth)).map StreamInfo.snapshot := by
  induction f generalizing offset depth with
  | nil => rfl
  | leaf h payload next ih =>
    rw [tracks, events, headEvent, streamsOf_record, streamsOf_append, List.map_append,
      leafTracks_eq, ← ih]
  | group h m children next ihc ih =>
    rw [tracks, events, headEvent, streamsOf_record, streamsOf_append, List.map_append, ← ihc, ← ih]

/-- A well-formed record keeps the table. -/
theorem TableOk.leaf {limits : Limits} {ts : List TrackSnapshot} {ps : List PacketInfo}
    (hts : TableOk limits ts ps) {depth : ℕ} {pre : Bytes} {h : RecordHead} {payload : Bytes}
    (hleaf : LeafOk limits depth pre ts h payload) :
    TableOk limits (ts ++ leafTracks h payload) (ps ++ packetsOf (leafContent h payload)) := by
  unfold leafTracks leafContent
  unfold LeafOk at hleaf
  -- most records add nothing
  have hsame : TableOk limits (ts ++ []) (ps ++ packetsOf []) := by
    rw [List.append_nil, show packetsOf [] = [] from rfl, List.append_nil]
    exact hts
  rcases hleaf with hskip | hleaf
  · rw [recordTypeOf_of_skippable hskip]
    exact hsame
  generalize recordTypeOf h.type = type at hleaf ⊢
  cases type with
  | none => exact hleaf.elim
  | some t =>
    cases t with
    | streamDesc =>
      obtain ⟨s, hs, -, hnew, hroom⟩ := hleaf
      rw [findTrack_eq_none_iff] at hnew
      dsimp only
      rw [hs]
      constructor
      · rw [List.map_append]
        exact List.Nodup.append hts.distinct (List.nodup_singleton _)
          (List.disjoint_singleton.mpr hnew)
      · rw [List.length_append]
        exact hroom
      · intro p hp
        rw [List.map_append]
        exact List.mem_append_left _ (hts.described p (by simpa [packetsOf] using hp))
    | packet =>
      obtain ⟨p, hp, -, hfound⟩ := hleaf
      rw [findTrack_isSome_iff] at hfound
      dsimp only
      rw [hp, List.append_nil]
      refine ⟨hts.distinct, hts.tracks, fun q hq => ?_⟩
      rcases List.mem_append.mp hq with hq | hq
      · exact hts.described q hq
      · rw [List.mem_singleton.mp hq]
        exact hfound
    | _ => exact hsame

/-- **A well-formed forest keeps the table**: its streams are new, and its packets have their
streams. -/
theorem TableOk.forest {limits : Limits} {opens : ℕ → Prop} (f : Forest) {ts : List TrackSnapshot}
    {ps : List PacketInfo} (hts : TableOk limits ts ps) {depth : ℕ} {pre : Bytes} (offset : ℕ)
    (hf : f.Valid limits opens depth pre ts) :
    TableOk limits (ts ++ f.tracks) (ps ++ packetsOf (f.events offset depth)) := by
  induction f generalizing ts ps depth pre offset with
  | nil =>
    rw [Forest.tracks, Forest.events, List.append_nil, show packetsOf [] = [] from rfl,
      List.append_nil]
    exact hts
  | leaf h payload next ih =>
    obtain ⟨-, hleaf, hnext⟩ := hf
    rw [Forest.tracks, Forest.events, headEvent, packetsOf_record, packetsOf_append,
      ← List.append_assoc, ← List.append_assoc]
    exact ih (hts.leaf hleaf) _ hnext
  | group h m children next ihc ih =>
    obtain ⟨-, -, -, hchildren, hnext⟩ := hf
    rw [Forest.tracks, Forest.events, headEvent, packetsOf_record, packetsOf_append,
      ← List.append_assoc, ← List.append_assoc]
    exact ih (ihc hts _ hchildren) _ hnext

theorem contentStreams_copies (ss : List StreamInfo) (ps : List PacketInfo) :
    contentStreams (copies ss ps) = ss := by
  simp [contentStreams, copies, List.filterMap_map]

theorem contentPackets_copies (ss : List StreamInfo) (ps : List PacketInfo) :
    contentPackets (copies ss ps) = ps := by
  simp [contentPackets, copies, List.filterMap_map]

/-- Copies are described if the packets have their streams. -/
theorem described_copies {known : List (UInt32 × UInt32)} {ss : List StreamInfo}
    {ps : List PacketInfo} (h : ∀ p ∈ ps, p.key ∈ known ++ ss.map StreamInfo.key) :
    Described known (copies ss ps) := by
  induction ss generalizing known with
  | nil =>
    rw [List.map_nil, List.append_nil] at h
    induction ps with
    | nil => exact described_nil known
    | cons p ps ih =>
      obtain ⟨hp, hps⟩ := List.forall_mem_cons.mp h
      exact (described_packet known p _).mpr ⟨hp, ih hps⟩
  | cons s ss ih =>
    rw [List.map_cons, List.append_cons] at h
    exact (described_stream known s _).mpr (ih h)

/-- The copies of streams and packets are orderly if no stream is there twice and each packet
has its stream. -/
theorem copies_orderly {limits : Limits} {ss : List StreamInfo} {ps : List PacketInfo}
    (h : TableOk limits (ss.map StreamInfo.snapshot) ps) : Orderly limits (copies ss ps) := by
  have hkeys : (ss.map StreamInfo.snapshot).map TrackSnapshot.key = ss.map StreamInfo.key := by
    rw [List.map_map]
    rfl
  obtain ⟨hdistinct, htracks, hdescribed⟩ := h
  rw [hkeys] at hdistinct hdescribed
  rw [List.length_map] at htracks
  refine ⟨?_, ?_, @described_copies [] ss ps hdescribed⟩
  · rw [streamKeys, contentStreams_copies]
    exact hdistinct
  · rw [contentStreams_copies]
    exact htracks

/-- **The copies of what a file tells are orderly.** -/
theorem Forest.orderly {limits : Limits} {opens : ℕ → Prop} {f : Forest} {pre : Bytes}
    (hf : f.Valid limits opens 0 pre []) (offset : ℕ) :
    Orderly limits (copies (streamsOf (f.events offset 0)) (packetsOf (f.events offset 0))) := by
  have hempty : TableOk limits [] [] := ⟨List.nodup_nil, Nat.zero_le _, nofun⟩
  have htable := hempty.forest f offset hf
  rw [List.nil_append, List.nil_append, f.tracks_eq offset 0] at htable
  exact copies_orderly htable

/-! ### Remuxing once and again -/

/-- Remuxing is a session with a mux, as long as nothing fails. -/
theorem remux_session {B : Bytes} {trackAllocs allocs : Stream' Bool} {demux : Demux} (env : MuxEnv)
    (hopen : demuxOpen B (some remuxDemuxOptions) trackAllocs allocs = (.ok, some demux))
    (hcursor : demux.cursor = 0) :
    remux B trackAllocs allocs env = muxSession (some remuxMuxOptions) env
      (copies demux.streams demux.packets) ∨
      (remux B trackAllocs allocs env).1 ≠ .ok ∧
        (muxSession (some remuxMuxOptions) env (copies demux.streams demux.packets)).1 ≠ .ok := by
  unfold remux muxSession
  rw [hopen]
  dsimp only
  rcases muxCreate (some remuxMuxOptions) env.opened env.allocs env.scratch with ⟨status, _ | mux⟩
  · exact .inl (by cases status <;> rfl)
  by_cases hst : status = .ok
  swap
  · exact .inl (by cases status <;> first | exact absurd rfl hst | rfl)
  subst hst
  dsimp only
  rw [copyAll_eq_calls hcursor]
  rcases mux.calls (copies demux.streams demux.packets) with ⟨status, mux'⟩
  by_cases hcalls : status = .ok
  · subst hcalls
    exact .inl rfl
  · refine .inr ⟨?_, ?_⟩
    · rw [if_neg hcalls]
      exact hcalls
    · cases status <;> first | exact absurd rfl hcalls | exact nofun

/-- **What a session writes of the copies of a file** is opened again, and holds them. -/
theorem demuxOpen_copies {options : Option MuxOptions} {env : MuxEnv} {f : Forest}
    {pre bytes : Bytes} (hlimits : muxLimits options = limitsDefault)
    (hf : f.Valid limitsDefault (admits limitsDefault) 0 pre [])
    (hsession : (muxSession options env (copies (streamsOf (f.events 72 0))
      (packetsOf (f.events 72 0)))).2 = some bytes)
    (demuxOptions : Option DemuxOptions) (hdemux : demuxLimits demuxOptions = limitsDefault)
    (hselect : demuxOptions.elim 0 DemuxOptions.selectedTrack = 0) :
    ∃ demux, demuxOpen bytes demuxOptions (Stream'.const true) (Stream'.const true) =
      (.ok, some demux) ∧
      demux.streams = streamsOf (f.events 72 0) ∧ demux.packets = packetsOf (f.events 72 0) ∧
        demux.cursor = 0 := by
  obtain ⟨g, hfile, hmax, hs, hp⟩ := muxSession_file hlimits hsession (Forest.orderly hf 72)
  rw [contentStreams_copies] at hs
  rw [contentPackets_copies] at hp
  rw [← hdemux] at hfile
  obtain ⟨demux, hopen, hholds⟩ := demuxOpen_file hmax hfile
  exact ⟨demux, hopen, hholds.streams.trans hs, (hholds.all hselect).trans hp, hholds.cursor⟩

/-- A source that is remuxed could be opened. -/
theorem demuxOpen_of_remux {B : Bytes} {trackAllocs allocs : Stream' Bool} {env : MuxEnv}
    (h : (remux B trackAllocs allocs env).1 = .ok) :
    (demuxOpen B (some remuxDemuxOptions) trackAllocs allocs).1 = .ok := by
  unfold remux at h
  generalize demuxOpen B (some remuxDemuxOptions) trackAllocs allocs = r at h ⊢
  rcases r with ⟨status, demux⟩
  cases status <;> first | rfl | cases h

/-- **Remuxing preserves the content and is idempotent**: the file that is written yields the
streams and the packets of the source, and remuxing it gives the same bytes. -/
theorem remux_preserves (B : Bytes) (hB : B.length ≤ sizeMax) (env : MuxEnv) (bytes : Bytes)
    (hremux : remux B (Stream'.const true) (Stream'.const true) env = (.ok, some bytes)) :
    (∃ demux demux' streams packets,
        demuxOpen B (some remuxDemuxOptions) (Stream'.const true) (Stream'.const true) =
          (.ok, some demux) ∧
        demuxOpen bytes (some remuxDemuxOptions) (Stream'.const true) (Stream'.const true) =
          (.ok, some demux') ∧
        demux.Yields streams packets ∧ demux'.Yields streams packets) ∧
      remux bytes (Stream'.const true) (Stream'.const true) env = (.ok, some bytes) ∧
      ∀ env' bytes', remux bytes (Stream'.const true) (Stream'.const true) env' =
        (.ok, some bytes') → bytes' = bytes := by
  obtain ⟨hd, f, hfile⟩ := fileOk_of_demuxOpen hB (demuxOpen_of_remux (congrArg Prod.fst hremux))
  obtain ⟨demux, hopen, hholds⟩ := demuxOpen_file hB hfile
  -- the first time, the session is with what the source tells
  have hsession : muxSession (some remuxMuxOptions) env (copies demux.streams demux.packets) =
      (.ok, some bytes) := by
    obtain heq | ⟨hne, -⟩ := remux_session env hopen hholds.cursor
    · rw [← heq, hremux]
    · exact absurd (congrArg Prod.fst hremux) hne
  rw [hholds.streams, hholds.all rfl] at hsession
  obtain ⟨demux', hopen', hstreams', hpackets', hcursor'⟩ :=
    demuxOpen_copies rfl hfile.forest (congrArg Prod.snd hsession) (some remuxDemuxOptions) rfl rfl
  -- the second time it is the same session, up to what the machine does
  have hagain : ∀ env', remux bytes (Stream'.const true) (Stream'.const true) env' =
        muxSession (some remuxMuxOptions) env' (copies (streamsOf (f.events 72 0))
          (packetsOf (f.events 72 0))) ∨
      (remux bytes (Stream'.const true) (Stream'.const true) env').1 ≠ .ok ∧
        (muxSession (some remuxMuxOptions) env' (copies (streamsOf (f.events 72 0))
          (packetsOf (f.events 72 0)))).1 ≠ .ok := by
    intro env'
    rw [← hstreams', ← hpackets']
    exact remux_session env' hopen' hcursor'
  refine ⟨⟨demux, demux', demux.streams, demux.packets, hopen, hopen', demux.yields hholds.cursor,
    ?_⟩, ?_, ?_⟩
  · rw [hholds.streams, hholds.all rfl, ← hstreams', ← hpackets']
    exact demux'.yields hcursor'
  · obtain heq | ⟨-, hne⟩ := hagain env
    · rw [heq, hsession]
    · exact absurd (congrArg Prod.fst hsession) hne
  · intro env' bytes' hremux'
    obtain heq | ⟨hne, -⟩ := hagain env'
    · rw [heq] at hremux'
      -- what is written does not depend on the machine
      rw [(muxSession_output (congrArg Prod.snd hremux')).1,
        (muxSession_output (congrArg Prod.snd hsession)).1]
    · exact absurd (congrArg Prod.fst hremux') hne

/-- The small file with its group remuxed. -/
def sampleRemuxed : Bytes :=
  ((remux sampleFile (Stream'.const true) (Stream'.const true) .calm).2).getD []

theorem sampleFile_remux :
    remux sampleFile (Stream'.const true) (Stream'.const true) .calm = (.ok, some sampleRemuxed) ∧
    remux sampleRemuxed (Stream'.const true) (Stream'.const true) .calm =
      (.ok, some sampleRemuxed) := by
  have hremux : remux sampleFile (Stream'.const true) (Stream'.const true) .calm =
      (.ok, some sampleRemuxed) := by decide +kernel
  exact ⟨hremux, (remux_preserves sampleFile (by decide +kernel) .calm sampleRemuxed hremux).2.1⟩

end Tide
