import Tide.Demux
import Tide.Format.Closing
import Tide.Format.Session

/-!
# Limits

Whatever is accepted, by `tide_parse_tide_bytes`, by `tide_decoder_feed` piece by piece or
by `tide_demux_open`, keeps within the limits on records, payloads, tracks and tables,
for any client and whichever allocations succeed. The limit on the size of a file is not
looked at: what is accepted respects all the limits if and only if it happens to respect
that one (`accepted_respects_iff`).
-/

namespace Tide

open Theory

variable {σ : Type}

/-- **Within the limits**: the bytes `B`, of which the records before `stop` are taken in, with
`tracks` descriptors registered. -/
structure Respects (L : Limits) (B : Bytes) (stop tracks : ℕ) : Prop where
  file : B.length ≤ L.maxFileSize.toNat
  record : ∀ place h payload depth, Occurs B place h payload depth stop 72 0 →
    h.size payload.length ≤ L.maxRecordSize.toNat ∧ payload.length ≤ L.maxPayloadSize.toNat
  tracks : tracks ≤ L.maxTracks.toNat
  editList : ∀ place h payload depth, Occurs B place h payload depth stop 72 0 →
    h.type = RecordType.editList.code →
    ∃ n, tableCount payload = some n ∧ n.toNat ≤ L.maxEditEntries.toNat
  packetTable : ∀ place h payload depth, Occurs B place h payload depth stop 72 0 →
    h.type = RecordType.packetTable.code →
    ∃ n, tableCount payload = some n ∧ n.toNat ≤ L.maxPacketTableEntries.toNat

/-- Records that pass their checks are within the limits. -/
theorem respects_iff {L : Limits} {B : Bytes} {stop tracks : ℕ}
    (hchecked : ∀ {place h payload depth}, Occurs B place h payload depth stop 72 0 →
      Checked L place h payload)
    (htracks : tracks ≤ L.maxTracks.toNat) :
    Respects L B stop tracks ↔ B.length ≤ L.maxFileSize.toNat := by
  refine ⟨Respects.file, fun hfile => ⟨hfile, ?_, htracks, ?_, ?_⟩⟩
  · intro place h payload depth hocc
    have hhead := (hchecked hocc).head
    exact ⟨hhead.record, hhead.payload⟩
  · intro place h payload depth hocc
    exact (hchecked hocc).editList
  · intro place h payload depth hocc
    exact (hchecked hocc).packetTable

/-- What occurs in a forest of records that pass their checks passes its own. -/
theorem checked_of_occurs {L : Limits} {B : Bytes} {stop : ℕ} {f : Forest}
    (hf : f.Each (Checked L) 72) (hl : Lies B 72 f.bytes) (hend : 72 + f.bytes.length = stop)
    (hstop : stop ≤ B.length) (hB : B.length ≤ sizeMax) {place : ℕ} {h : RecordHead}
    {payload : Bytes} {depth : ℕ} (hocc : Occurs B place h payload depth stop 72 0) :
    Checked L place h payload :=
  hf.of_occurs (fun hc => hc.head.alignment) hocc hl hend hstop (hstop.trans hB) (Nat.le_refl _)

/-! ### The parser -/

section

variable {L : Limits} {callbacks : Callbacks σ} {user : σ} {allocs : Stream' Bool} {B : Bytes}
    {finish : Bool}

/-- What was delivered of bytes that are accepted. -/
theorem heard_of_parseTideBytes (hB : B.length ≤ sizeMax)
    (hok : (parseTideBytes B finish (some L) callbacks user allocs).1 = .ok) :
    ∃ ds, Heard B L 0 72 B.length [] ds (parseTideBytes B finish (some L) callbacks user
      allocs).2.tracks ∧
      (parseTideBytes B finish (some L) callbacks user allocs).2.user = callbacks.deliver user
        (eventsOf ds) ∧
      callbacks.AllOk user (eventsOf ds) := by
  cases hval : validateHeader B L with
  | error e =>
    rw [parseTideBytes_of_error hval, atEnd_eq_ok_iff] at hok
    exact absurd hok (validateHeader_error hval).1
  | ok u =>
    obtain ⟨ds, hv⟩ := parseRecords_visits 0
      { Parsing.start (some L) callbacks user allocs with validPrefix := 72 } rfl
      (length_of_validateHeader hval) (Nat.le_refl _) hB
    rw [parseTideBytes_of_ok hval] at hok ⊢
    rw [atEnd_eq_ok_iff] at hok
    exact ⟨ds, hv.heard, hv.user, (hv.allOk hok).1⟩

/-- The parser keeps the tables within the limit. -/
theorem tracks_of_parseTideBytes (hB : B.length ≤ sizeMax)
    (hok : (parseTideBytes B finish (some L) callbacks user allocs).1 = .ok) :
    (parseTideBytes B finish (some L) callbacks user allocs).2.tracks.length ≤
      L.maxTracks.toNat := by
  obtain ⟨ds, hheard, -⟩ := heard_of_parseTideBytes hB hok
  exact (hheard.tracks_ok ⟨List.nodup_nil, Nat.zero_le _⟩).2

/-- **Bytes that the parser accepts.** -/
theorem respects_of_parseTideBytes (hB : B.length ≤ sizeMax)
    (hok : (parseTideBytes B finish (some L) callbacks user allocs).1 = .ok) {tracks : ℕ}
    (htracks : tracks ≤ L.maxTracks.toNat) :
    Respects L B B.length tracks ↔ B.length ≤ L.maxFileSize.toNat := by
  obtain ⟨f, hf, hl, hend⟩ := forest_of_parseTideBytes hB hok
  exact respects_iff (checked_of_occurs hf hl hend (Nat.le_refl _) hB) htracks

end

/-! ### The decoder -/

/-- A decoder that has answered `OK` to the bytes `B`: before `parse_offset` there are records
that pass their checks. -/
structure Admitted (L : Limits) (B : Bytes) (d : Decoder σ) : Prop where
  limits : d.limits = L
  data : d.buffer.data = B
  bounded : d.buffer.Bounded
  tracks : (d.tracks.map TrackSnapshot.key).Nodup ∧ d.tracks.length ≤ L.maxTracks.toNat
  error : d.error.code = .ok
  place : d.headerValidated = false ∧ d.parseOffset = 0 ∨
    d.headerValidated = true ∧ d.validPrefix = d.parseOffset ∧ d.parseOffset ≤ B.length ∧
      ∃ f : Forest, f.Each (Checked L) 72 ∧ Lies B 72 f.bytes ∧ 72 + f.bytes.length = d.parseOffset

section

variable {L : Limits} {B : Bytes} {d : Decoder σ}

/-- What a decoder has taken in is within the limits. -/
theorem Admitted.respects (h : Admitted L B d) :
    Respects L B d.parseOffset d.tracks.length ↔ B.length ≤ L.maxFileSize.toNat := by
  have hB : B.length ≤ sizeMax := h.data ▸ h.bounded.size
  refine respects_iff (fun {place h' payload depth} hocc => ?_) h.tracks.2
  obtain ⟨-, hzero⟩ | ⟨-, -, hle, f, hf, hl, hend⟩ := h.place
  · have hb := hocc.bounds
    have hge := h'.size_ge payload.length
    omega
  · exact checked_of_occurs hf hl hend hle hB hocc

/-- The loop over records, as a decoder behind its header calls it. -/
theorem Admitted.parse (h : Admitted L B d) (hval : d.headerValidated = true)
    {r : Status × Parsing σ}
    (hr : parseRecords d.buffer.data d.parseOffset d.buffer.data.length 0 d.toParsing = r)
    (hst : r.1 = .ok ∨ r.1 = .truncated) :
    r.2.validPrefix ≤ B.length ∧ (r.1 = .ok → r.2.validPrefix = B.length) ∧ ∀ terminal,
      Admitted L B { d with toParsing := r.2, parseOffset := r.2.validPrefix,
                            terminal := terminal } := by
  obtain ⟨hno, -⟩ | ⟨-, hvp, hle, f, hf, hl, hend⟩ := h.place
  · rw [hval] at hno
    cases hno
  have hB := h.bounded.size
  rw [h.data] at hr hB
  obtain ⟨ds, hv⟩ := parseRecords_visits 0 d.toParsing h.error hle (Nat.le_refl _) hB
  obtain ⟨g, hg, hlg, hleg, hokg, hvg⟩ := forest_of_parse h.error hle (Nat.le_refl _) hB
    (by omega) hr hst
  rw [show UInt8.ofNat 0 = 0 from rfl, hr] at hv
  have hstop := hvg hvp
  rw [← hend] at hg hlg hstop
  rw [h.limits] at hg
  refine ⟨by omega, fun hok => (hvg hvp).symm.trans (hokg hok),
    fun terminal => ⟨hv.limits.trans h.limits, h.data, h.bounded, ?_, ?_, .inr ⟨hval, rfl,
      by dsimp only; omega, f.append g, Forest.each_append_iff.mpr ⟨hf, hg⟩, ?_, ?_⟩⟩⟩
  · have hheard := hv.heard
    rw [h.limits] at hheard
    exact hheard.tracks_ok h.tracks
  · exact (congrArg Error.code (hv.error hst)).trans h.error
  · rw [Forest.bytes_append, lies_append_iff]
    exact ⟨hl, hlg⟩
  · rw [Forest.bytes_append, List.length_append]
    dsimp only
    omega

/-- A decoder behind the header. -/
theorem Admitted.acceptHeader (h : Admitted L B d) {d' : Decoder σ} (hd : d.acceptHeader = .ok d') :
    Admitted L B d' ∧ d'.headerValidated = true := by
  unfold Decoder.acceptHeader at hd
  by_cases hval : d.headerValidated = true
  · rw [if_pos hval] at hd
    cases hd
    exact ⟨h, hval⟩
  rw [if_neg hval] at hd
  cases hv : validateHeader d.buffer.data d.limits with
  | error e =>
    rw [hv] at hd
    cases hd
  | ok u =>
    have h72 : 72 ≤ B.length := h.data ▸ length_of_validateHeader hv
    rw [hv] at hd
    cases hd
    exact ⟨⟨h.limits, h.data, h.bounded, h.tracks, h.error, .inr ⟨rfl, rfl, h72, .nil, trivial,
      rfl, rfl⟩⟩, rfl⟩

/-- A decoder with more bytes. -/
theorem Admitted.append (h : Admitted L B d) {bs : Bytes}
    (hdata : (bufferAppend d.buffer bs).2.data = d.buffer.data ++ bs) :
    Admitted L (B ++ bs) { d with buffer := (bufferAppend d.buffer bs).2 } := by
  refine ⟨h.limits, hdata.trans (by rw [h.data]), bufferAppend_bounded h.bounded _, h.tracks,
    h.error, h.place.imp_right ?_⟩
  rintro ⟨hval, hvp, hle, f, hf, hl, hend⟩
  refine ⟨hval, hvp, hle.trans (by simp), f, hf, hl.congr (e := d.parseOffset) ?_ (by omega), hend⟩
  rw [List.take_append_of_le_length hle]

/-- **A feed that is answered with `OK`** has taken its bytes in. -/
theorem Admitted.feed (h : Admitted L B d) {piece : Piece} (hok : (d.feed piece).1 = .ok) :
    Admitted L (B ++ piece.data) (d.feed piece).2 ∧
      (piece.finish = true → (d.feed piece).2.parseOffset = (B ++ piece.data).length) := by
  obtain ⟨-, hdata, ⟨hmore, hfeed⟩ | ⟨d', r, hd, hr, hst, hfeed⟩⟩ := (feed_case d piece).of_ok hok
  · rw [hfeed]
    exact ⟨h.append hdata, fun hlast => by simp [hmore] at hlast⟩
  obtain ⟨hadm, hval⟩ := (h.append hdata).acceptHeader hd
  obtain ⟨-, hend, hafter⟩ := hadm.parse hval hr (hst.imp_right And.left)
  have hplace : (if r.1 = .ok then d'.buffer.data.length else r.2.validPrefix) =
      r.2.validPrefix := by
    split
    · rename_i hrok
      rw [hadm.data, hend hrok]
    · rfl
  rw [hfeed, hplace]
  refine ⟨hafter piece.finish, fun hlast => ?_⟩
  rcases hst with hrok | ⟨-, hmore⟩
  · exact hend hrok
  · simp [hlast] at hmore

/-- **A session that is answered with `OK`** throughout. -/
theorem Admitted.feeds (h : Admitted L B d) {pieces : List Piece}
    (hok : ∀ status ∈ (answers Decoder.feed d pieces).1, status = .ok) :
    Admitted L (B ++ (pieces.map Piece.data).flatten) (answers Decoder.feed d pieces).2 ∧
      ((∃ last, pieces.getLast? = some last ∧ last.finish = true) →
        (answers Decoder.feed d pieces).2.parseOffset =
          (B ++ (pieces.map Piece.data).flatten).length) := by
  induction pieces generalizing d B with
  | nil => exact ⟨by simpa [answers] using h, by simp⟩
  | cons piece pieces ih =>
    rw [answers] at hok ⊢
    obtain ⟨hadm, hend⟩ := h.feed (hok _ List.mem_cons_self)
    obtain ⟨hadm', hend'⟩ := ih hadm fun status hmem => hok status (List.mem_cons_of_mem _ hmem)
    rw [List.append_assoc] at hadm' hend'
    refine ⟨hadm', ?_⟩
    rintro ⟨last, hlast, hfin⟩
    cases pieces with
    | nil =>
      obtain rfl : piece = last := by simpa using hlast
      simpa [answers] using hend hfin
    | cons next rest =>
      rw [List.getLast?_cons_cons] at hlast
      exact hend' ⟨last, hlast, hfin⟩

end

/-- A decoder that has just been initialised has taken nothing in. -/
theorem admitted_decoderInit (L : Limits) (callbacks : Callbacks σ) (user : σ)
    (allocs bufferAllocs : Stream' Bool) :
    Admitted L [] (decoderInit (some L) callbacks user allocs bufferAllocs) :=
  ⟨rfl, rfl, Buffer.bounded_empty .., ⟨List.nodup_nil, Nat.zero_le _⟩, rfl, .inl ⟨rfl, rfl⟩⟩

/-! ### The demuxer -/

theorem Demux.growStreams_streams (demux : Demux) :
    demux.growStreams.2.streams = demux.streams := by
  unfold Demux.growStreams
  split
  · dsimp only
    split
    · rfl
    split <;> rfl
  · rfl

theorem Demux.growPackets_streams (demux : Demux) :
    demux.growPackets.2.streams = demux.streams := by
  unfold Demux.growPackets
  split
  · dsimp only
    split <;> rfl
  · rfl

/-- A callback that returns `OK` has copied its stream, if it is one. -/
theorem demuxCallbacks_streams {demux : Demux} {event : Event}
    (hok : (demuxCallbacks.call demux event).1 = .ok) :
    (demuxCallbacks.call demux event).2.streams = demux.streams ++ streamsOf [event] := by
  cases event with
  | record event => exact (List.append_nil _).symm
  | stream stream =>
    change (demuxAddStream demux stream).1 = .ok at hok
    change (demuxAddStream demux stream).2.streams = demux.streams ++ [stream]
    have hgrow := demux.growStreams_streams
    unfold demuxAddStream at hok ⊢
    generalize demux.growStreams = g at hok hgrow ⊢
    rcases g with ⟨st, grown⟩
    cases st with
    | ok =>
      rw [andThen_ok] at hok ⊢
      split
      · split
        · rename_i hconfig halloc
          rw [if_pos hconfig, if_pos halloc] at hok
          cases hok
        · exact congrArg (· ++ [stream]) hgrow
      · exact congrArg (· ++ [stream]) hgrow
    | _ => cases hok
  | packet packet =>
    change (demuxAddPacket demux packet).2.streams = demux.streams ++ []
    have hgrow := demux.growPackets_streams
    rw [List.append_nil]
    unfold demuxAddPacket
    split
    · rfl
    generalize demux.growPackets = g at hgrow ⊢
    rcases g with ⟨st, grown⟩
    cases st with
    | ok =>
      rw [andThen_ok]
      dsimp only
      split <;> exact hgrow
    | _ => exact hgrow

/-- Callbacks that all return `OK` have copied the streams. -/
theorem Demux.streams_deliver {demux : Demux} {events : List Event}
    (hok : demuxCallbacks.AllOk demux events) :
    (demuxCallbacks.deliver demux events).streams = demux.streams ++ streamsOf events := by
  induction events generalizing demux with
  | nil => exact (List.append_nil _).symm
  | cons event events ih =>
    obtain ⟨hcall, hrest⟩ := hok
    change (demuxCallbacks.deliver (demuxCallbacks.call demux event).2 events).streams = _
    rw [ih hrest, demuxCallbacks_streams hcall, List.append_assoc, streamsOf, streamsOf, streamsOf,
      ← List.filterMap_append]
    rfl

/-- What is opened with `OK` has no more streams than the limit. -/
theorem demuxOpen_streams {B : Bytes} (hB : B.length ≤ sizeMax) {options : Option DemuxOptions}
    {trackAllocs allocs : Stream' Bool} (hok : (demuxOpen B options trackAllocs allocs).1 = .ok) :
    ∃ demux, demuxOpen B options trackAllocs allocs = (.ok, some demux) ∧
      demuxStreamCount demux ≤ (demuxLimits options).maxTracks.toNat := by
  rw [demuxOpen_fst] at hok
  obtain ⟨ds, hheard, huser, hall⟩ := heard_of_parseTideBytes hB hok
  have htracks := congrArg List.length hheard.tracks_eq
  have hroom := tracks_of_parseTideBytes hB hok
  rw [List.nil_append, List.length_map] at htracks
  rw [htracks] at hroom
  have hstreams := Demux.streams_deliver hall
  rw [← huser] at hstreams
  unfold demuxOpen
  generalize parseTideBytes B true (some (demuxLimits options)) demuxCallbacks
    (Demux.start options allocs) trackAllocs = r at hok hstreams
  rcases r with ⟨st, q⟩
  subst hok
  refine ⟨{ q.user with error := q.error }, by simp, ?_⟩
  rw [demuxStreamCount]
  dsimp only at hstreams ⊢
  rw [hstreams]
  exact hroom

/-! ### All the ways in -/

/-- **What is accepted keeps within the limits**, if and only if it is within the limit on the
size of a file. A decoder has taken in the records before `parse_offset`, and that is the
end if the last feed says so. -/
theorem accepted_respects_iff (L : Limits) :
    (∀ (B : Bytes) (finish : Bool) (callbacks : Callbacks σ) (user : σ) (allocs : Stream' Bool),
      B.length ≤ sizeMax →
      (parseTideBytes B finish (some L) callbacks user allocs).1 = .ok →
      (Respects L B B.length
          (parseTideBytes B finish (some L) callbacks user allocs).2.tracks.length ↔
        B.length ≤ L.maxFileSize.toNat)) ∧
    (∀ (pieces : List Piece) (callbacks : Callbacks σ) (user : σ)
      (allocs bufferAllocs : Stream' Bool),
      let r := answers Decoder.feed (decoderInit (some L) callbacks user allocs bufferAllocs) pieces
      let B := (pieces.map Piece.data).flatten
      (∀ status ∈ r.1, status = .ok) →
      (Respects L B r.2.parseOffset r.2.tracks.length ↔ B.length ≤ L.maxFileSize.toNat) ∧
        ((∃ last, pieces.getLast? = some last ∧ last.finish = true) → r.2.parseOffset = B.length)) ∧
    ∀ (B : Bytes) (options : Option DemuxOptions) (trackAllocs allocs : Stream' Bool),
      B.length ≤ sizeMax → demuxLimits options = L →
      (demuxOpen B options trackAllocs allocs).1 = .ok →
      ∃ demux, demuxOpen B options trackAllocs allocs = (.ok, some demux) ∧
        (Respects L B B.length (demuxStreamCount demux) ↔ B.length ≤ L.maxFileSize.toNat) := by
  refine ⟨?_, ?_, ?_⟩
  · intro B finish callbacks user allocs hB hok
    exact respects_of_parseTideBytes hB hok (tracks_of_parseTideBytes hB hok)
  · intro pieces callbacks user allocs bufferAllocs r B hok
    obtain ⟨hadm, hend⟩ := (admitted_decoderInit L callbacks user allocs bufferAllocs).feeds hok
    rw [List.nil_append] at hadm hend
    exact ⟨hadm.respects, hend⟩
  · rintro B options trackAllocs allocs hB rfl hok
    obtain ⟨demux, hopen, hstreams⟩ := demuxOpen_streams hB hok
    rw [demuxOpen_fst] at hok
    exact ⟨demux, hopen, respects_of_parseTideBytes hB hok hstreams⟩

/-- The sample file is within the default limits, whichever way it comes in. -/
theorem sampleFile_respects : Respects limitsDefault sampleFile sampleFile.length 1 := by
  have hok : (parseTideBytes sampleFile true (some limitsDefault) recorder []
      (Stream'.const true)).1 = .ok := by
    decide +kernel
  have htracks : (parseTideBytes sampleFile true (some limitsDefault) recorder []
      (Stream'.const true)).2.tracks.length = 1 := by
    decide +kernel
  have hB : sampleFile.length ≤ sizeMax := by decide +kernel
  have hiff := (accepted_respects_iff limitsDefault).1 sampleFile true recorder []
    (Stream'.const true) hB hok
  rw [htracks] at hiff
  exact hiff.mpr (by decide +kernel)

/-- Limits under which no file is allowed. -/
def noFileLimits : Limits := { limitsDefault with maxFileSize := 0 }

/-- The sample file is accepted all the same. -/
theorem sampleFile_above_limit :
    ¬ ∀ (L : Limits) (B : Bytes),
      (parseTideBytes B true (some L) recorder [] (Stream'.const true)).1 = .ok →
      Respects L B B.length (parseTideBytes B true (some L) recorder []
        (Stream'.const true)).2.tracks.length := by
  intro h
  have hfile := (h noFileLimits sampleFile (by decide +kernel)).file
  have hlt : noFileLimits.maxFileSize.toNat < sampleFile.length := by decide +kernel
  omega

end Tide
