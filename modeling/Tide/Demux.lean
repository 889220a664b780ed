import Tide.Format.File

/-!
# The demuxer

The model of `src/demux/demux.c`. Opening parses all the bytes, and the callbacks copy
the streams and the packets into tables, which are read afterwards one by one.

With allocations that succeed, a demux holds exactly the streams and the packets of the
events that were delivered (`Demux.deliver`), so a file is opened exactly if it is one,
and yields what its forest says (`demuxOpen_file`, `fileOk_of_demuxOpen`).
-/

namespace Tide

/-- `tide_demux_options`. -/
structure DemuxOptions where
  limits : Limits
  selectedTrack : UInt32
  strict : Bool

/-- `struct tide_demux`, with the bytes that a stream's `config` and a packet's `lease` hold
for the copies; `allocs` are the outcomes of the allocations to come. -/
structure Demux where
  error : Error
  streams : List StreamInfo
  streamCapacity : ℕ
  packets : List PacketInfo
  packetCapacity : ℕ
  cursor : ℕ
  selectedTrack : UInt32
  allocs : Stream' Bool

/-- Room for one more stream: both tables are reallocated. -/
def Demux.growStreams (demux : Demux) : Status × Demux :=
  if demux.streams.length = demux.streamCapacity then
    let next := if demux.streamCapacity = 0 then 8 else demux.streamCapacity * 2
    if !demux.allocs.head then (.resource, { demux with allocs := demux.allocs.tail })
    else if !demux.allocs.tail.head then
      (.resource, { demux with allocs := demux.allocs.tail.tail })
    else (.ok, { demux with streamCapacity := next, allocs := demux.allocs.tail.tail })
  else (.ok, demux)

/-- `tide_demux_add_stream`. -/
def demuxAddStream (demux : Demux) (stream : StreamInfo) : Status × Demux :=
  andThen demux.growStreams fun demux =>
  if stream.config.length ≠ 0 then
    if !demux.allocs.head then (.resource, { demux with allocs := demux.allocs.tail })
    else (.ok, { demux with streams := demux.streams ++ [stream], allocs := demux.allocs.tail })
  else (.ok, { demux with streams := demux.streams ++ [stream] })

/-- `tide_payload_lease_create_copy`: the bytes of the lease, if there is one. -/
def payloadLeaseCreateCopy (data : Bytes) (allocs : Stream' Bool) : Option Bytes × Stream' Bool :=
  if !allocs.head then (none, allocs.tail)
  else if data.length ≠ 0 then (if allocs.tail.head then some data else none, allocs.tail.tail)
  else (some data, allocs.tail)

/-- Room for one more packet. -/
def Demux.growPackets (demux : Demux) : Status × Demux :=
  if demux.packets.length = demux.packetCapacity then
    let next := if demux.packetCapacity = 0 then 16 else demux.packetCapacity * 2
    if !demux.allocs.head then (.resource, { demux with allocs := demux.allocs.tail })
    else (.ok, { demux with packetCapacity := next, allocs := demux.allocs.tail })
  else (.ok, demux)

/-- `tide_demux_add_packet`. -/
def demuxAddPacket (demux : Demux) (packet : PacketInfo) : Status × Demux :=
  if demux.selectedTrack ≠ 0 ∧ packet.trackId ≠ demux.selectedTrack then (.ok, demux)
  else
    andThen demux.growPackets fun demux =>
    let lease := payloadLeaseCreateCopy packet.payload demux.allocs
    let demux := { demux with allocs := lease.2 }
    if lease.1 = none ∧ packet.payload.length ≠ 0 then (.resource, demux)
    else
      (.ok, { demux with packets := demux.packets ++ [{ packet with payload := lease.1.getD [] }] })

/-- The callbacks of `tide_demux_open`. -/
def demuxCallbacks : Callbacks Demux where
  onRecord := none
  onStream := some demuxAddStream
  onPacket := some demuxAddPacket
  onError := some fun demux error => { demux with error := error }

/-- The limits the options give, if they give any. -/
def demuxLimits : Option DemuxOptions → Limits
  | none => limitsDefault
  | some options => if options.limits.maxRecordSize = 0 then limitsDefault else options.limits

/-- The demux before it is opened. -/
def Demux.start (options : Option DemuxOptions) (allocs : Stream' Bool) : Demux where
  error := errorClear
  streams := []
  streamCapacity := 0
  packets := []
  packetCapacity := 0
  cursor := 0
  selectedTrack := options.elim 0 DemuxOptions.selectedTrack
  allocs := allocs

/-- `tide_demux_open`, unless the demux itself cannot be allocated. A file with a partial tail
is opened only for options that are there and not strict. -/
def demuxOpen (data : Bytes) (options : Option DemuxOptions)
    (trackAllocs allocs : Stream' Bool) : Status × Option Demux :=
  let r := parseTideBytes data true (some (demuxLimits options)) demuxCallbacks
    (Demux.start options allocs) trackAllocs
  if r.1 ≠ .ok ∧ ¬ (r.1 = .partialTail ∧ options.any (!·.strict)) then (r.1, none)
  else (r.1, some { r.2.user with error := r.2.error })

/-- `tide_demux_next`: a packet is moved out. -/
def demuxNext (demux : Demux) : Status × PacketInfo × Demux :=
  if demux.cursor ≥ demux.packets.length then (.wouldBlock, .zero, demux)
  else
    (.ok, demux.packets.getD demux.cursor .zero,
      { demux with packets := demux.packets.set demux.cursor .zero, cursor := demux.cursor + 1 })

/-- `tide_demux_stream_count`. -/
def demuxStreamCount (demux : Demux) : ℕ := demux.streams.length

/-- `tide_demux_stream_info`. -/
def demuxStreamInfo (demux : Demux) (index : ℕ) : Status × Option StreamInfo :=
  match demux.streams[index]? with
  | none => (.invalidArgument, none)
  | some stream => (.ok, some stream)

/-- The packets that calls to `tide_demux_next` move out, as many as `fuel` calls do. -/
def demuxDrain : ℕ → Demux → List PacketInfo
  | 0, _ => []
  | fuel + 1, demux =>
    match demuxNext demux with
    | (.ok, packet, demux) => packet :: demuxDrain fuel demux
    | _ => []

/-- What a client gets from a demux: the streams one by one, and the packets until there are
no more. -/
structure Demux.Yields (demux : Demux) (ss : List StreamInfo) (ps : List PacketInfo) : Prop where
  streams : (List.range (demuxStreamCount demux)).map (demuxStreamInfo demux) = ss.map fun stream =>
    (.ok, some stream)
  packets : ∀ fuel, ps.length ≤ fuel → demuxDrain fuel demux = ps

/-- **What a call to `tide_demux_next` does**: it moves out the packet at the cursor, if there
is one. -/
theorem demuxNext_cases (demux : Demux) :
    (demux.packets.drop demux.cursor = [] ∧ demuxNext demux = (.wouldBlock, .zero, demux)) ∨
      ∃ packet demux', demux.packets.drop demux.cursor = packet ::
        demux'.packets.drop demux'.cursor ∧
        demuxNext demux = (.ok, packet, demux') := by
  unfold demuxNext
  by_cases h : demux.cursor < demux.packets.length
  · refine .inr ⟨demux.packets.getD demux.cursor .zero,
      { demux with packets := demux.packets.set demux.cursor .zero, cursor := demux.cursor + 1 },
        ?_, ?_⟩
    · rw [List.drop_set_of_lt (Nat.lt_succ_self _), List.drop_eq_getElem_cons h]
      simp [List.getD, List.getElem?_eq_getElem h]
    · rw [if_neg (Nat.not_le.mpr h)]
  · rw [if_pos (Nat.le_of_not_lt h)]
    exact .inl ⟨List.drop_eq_nil_of_le (Nat.le_of_not_lt h), rfl⟩

/-- Draining a demux gives the packets from the cursor on. -/
theorem demuxDrain_eq (demux : Demux) {fuel : ℕ}
    (h : (demux.packets.drop demux.cursor).length ≤ fuel) :
    demuxDrain fuel demux = demux.packets.drop demux.cursor := by
  induction fuel generalizing demux with
  | zero => exact (List.eq_nil_of_length_eq_zero (Nat.le_zero.mp h)).symm
  | succ fuel ih =>
    rw [demuxDrain]
    obtain ⟨hnil, hnext⟩ | ⟨packet, demux', hdrop, hnext⟩ := demuxNext_cases demux
    · rw [hnext, hnil]
    · rw [hdrop, List.length_cons] at h
      rw [hnext, hdrop]
      exact congrArg (packet :: ·) (ih demux' (Nat.le_of_succ_le_succ h))

/-- A demux that was just opened yields what it holds. -/
theorem Demux.yields (demux : Demux) (hcursor : demux.cursor = 0) :
    demux.Yields demux.streams demux.packets where
  streams := by
    apply List.ext_getElem
    · simp [demuxStreamCount]
    · intro i h1 h2
      simp only [List.length_map] at h2
      simp [demuxStreamInfo, List.getElem?_eq_getElem h2]
  packets fuel h := by
    have hdrop : demux.packets.drop demux.cursor = demux.packets := by rw [hcursor, List.drop_zero]
    exact (demuxDrain_eq demux (by rwa [hdrop])).trans hdrop

/-- What a demux yields is determined. -/
theorem Demux.Yields.unique {demux : Demux} {ss ss' : List StreamInfo} {ps ps' : List PacketInfo}
    (h : demux.Yields ss ps) (h' : demux.Yields ss' ps') : ss = ss' ∧ ps = ps' := by
  constructor
  · have hinjective : Function.Injective fun stream : StreamInfo => (Status.ok, some stream) :=
      fun a b hab => by
      simpa using hab
    exact List.map_injective_iff.mpr hinjective (h.streams.symm.trans h'.streams)
  · exact (h.packets _ (Nat.le_max_left ..)).symm.trans
      (h'.packets _ (Nat.le_max_right ps.length ps'.length))

/-! ### What a demux holds -/

/-- The packets that the selection lets pass. -/
def selects (track : UInt32) (packet : PacketInfo) : Bool := track == 0 || packet.trackId == track

/-- Allocations succeed. -/
def Demux.Calm (demux : Demux) : Prop := demux.allocs = Stream'.const true

/-- From `demux` to `demux'` the streams and the packets were added. -/
structure Demux.Gains (demux demux' : Demux) (streams : List StreamInfo)
    (packets : List PacketInfo) : Prop where
  streams : demux'.streams = demux.streams ++ streams
  packets : demux'.packets = demux.packets ++ packets
  cursor : demux'.cursor = demux.cursor
  selectedTrack : demux'.selectedTrack = demux.selectedTrack
  allocs : demux'.allocs = demux.allocs

theorem Demux.Gains.refl (demux : Demux) : demux.Gains demux [] [] :=
  ⟨by simp, by simp, rfl, rfl, rfl⟩

theorem Demux.Gains.trans {demux demux' demux'' : Demux} {ss ss' : List StreamInfo}
    {ps ps' : List PacketInfo} (h : demux.Gains demux' ss ps) (h' : demux'.Gains demux'' ss' ps') :
    demux.Gains demux'' (ss ++ ss') (ps ++ ps') where
  streams := by rw [h'.streams, h.streams, List.append_assoc]
  packets := by rw [h'.packets, h.packets, List.append_assoc]
  cursor := h'.cursor.trans h.cursor
  selectedTrack := h'.selectedTrack.trans h.selectedTrack
  allocs := h'.allocs.trans h.allocs

section

variable {demux : Demux} (hc : demux.Calm)

include hc

theorem Demux.Calm.head : demux.allocs.head = true := by rw [show demux.allocs = _ from hc]; rfl

theorem Demux.Calm.tail :
    demux.allocs.tail = demux.allocs := by rw [show demux.allocs = _ from hc]; rfl

theorem growStreams_calm :
    ∃ capacity, demux.growStreams = (.ok, { demux with streamCapacity := capacity }) := by
  unfold Demux.growStreams
  by_cases hfull : demux.streams.length = demux.streamCapacity
  · simp [hfull, hc.head, hc.tail]
  · exact ⟨demux.streamCapacity, by simp [hfull]⟩

theorem growPackets_calm :
    ∃ capacity, demux.growPackets = (.ok, { demux with packetCapacity := capacity }) := by
  unfold Demux.growPackets
  by_cases hfull : demux.packets.length = demux.packetCapacity
  · simp [hfull, hc.head, hc.tail]
  · exact ⟨demux.packetCapacity, by simp [hfull]⟩

theorem demuxAddStream_calm (stream : StreamInfo) :
    (demuxAddStream demux stream).1 = .ok ∧
      demux.Gains (demuxAddStream demux stream).2 [stream] [] := by
  obtain ⟨capacity, hgrow⟩ := growStreams_calm hc
  rw [demuxAddStream, hgrow, andThen_ok]
  by_cases hconfig : stream.config.length = 0
  · rw [if_neg (not_not.mpr hconfig)]
    exact ⟨rfl, rfl, by simp, rfl, rfl, rfl⟩
  · rw [if_pos hconfig]
    simp only [hc.head, hc.tail, Bool.not_true, Bool.false_eq_true, ↓reduceIte, true_and]
    exact ⟨rfl, by simp, rfl, rfl, rfl⟩

/-- A lease is a copy of the bytes. -/
theorem payloadLeaseCreateCopy_calm (data : Bytes) :
    payloadLeaseCreateCopy data demux.allocs = (some data, demux.allocs) := by
  unfold payloadLeaseCreateCopy
  simp [hc.head, hc.tail]

theorem demuxAddPacket_calm (packet : PacketInfo) :
    (demuxAddPacket demux packet).1 = .ok ∧
      demux.Gains (demuxAddPacket demux packet).2 []
        ([packet].filter (selects demux.selectedTrack)) := by
  unfold demuxAddPacket
  by_cases hsel : demux.selectedTrack ≠ 0 ∧ packet.trackId ≠ demux.selectedTrack
  · rw [if_pos hsel]
    have hno : selects demux.selectedTrack packet = false := by simpa [selects] using hsel
    simpa [hno] using Demux.Gains.refl demux
  · rw [if_neg hsel]
    obtain ⟨capacity, hgrow⟩ := growPackets_calm hc
    have hyes : selects demux.selectedTrack packet = true := by
      rw [selects, Bool.or_eq_true, beq_iff_eq, beq_iff_eq]
      by_contra hnot
      exact hsel (not_or.mp hnot)
    rw [hgrow, andThen_ok]
    dsimp only
    rw [payloadLeaseCreateCopy_calm hc, if_neg (by simp)]
    exact ⟨rfl, by simp, by simp [hyes], rfl, rfl, rfl⟩

/-- **What a callback does**: it copies the stream, or the packet if it is selected. -/
theorem demuxCallbacks_calm (event : Event) :
    (demuxCallbacks.call demux event).1 = .ok ∧
      demux.Gains (demuxCallbacks.call demux event).2 (streamsOf [event])
        ((packetsOf [event]).filter (selects demux.selectedTrack)) := by
  cases event with
  | record event => exact ⟨rfl, Demux.Gains.refl demux⟩
  | stream stream => exact demuxAddStream_calm hc stream
  | packet packet => exact demuxAddPacket_calm hc packet

/-- The callbacks leave the streams and the packets of the events. -/
theorem Demux.deliver (events : List Event) :
    demux.Gains (demuxCallbacks.deliver demux events) (streamsOf events)
    ((packetsOf events).filter (selects demux.selectedTrack)) := by
  induction events generalizing demux with
  | nil => exact Demux.Gains.refl demux
  | cons event events ih =>
    obtain ⟨-, hgain⟩ := demuxCallbacks_calm hc event
    have hrest := ih (hgain.allocs.trans hc)
    rw [hgain.selectedTrack] at hrest
    have hboth := hgain.trans hrest
    rwa [← List.filter_append, packetsOf, packetsOf, streamsOf, streamsOf, ← List.filterMap_append,
      ← List.filterMap_append] at hboth

end

/-- The parser is calm with these callbacks. -/
theorem calm_demux (L : Limits) (options : Option DemuxOptions) :
    (Parsing.start (some L) demuxCallbacks (Demux.start options (Stream'.const true))
      (Stream'.const true)).Calm Demux.Calm :=
  ⟨fun _ event hc => ⟨(demuxCallbacks_calm hc event).1,
    (demuxCallbacks_calm hc event).2.allocs.trans hc⟩, rfl, rfl⟩

/-- A demux holds the streams and the packets of the events. -/
structure Demux.Holds (demux : Demux) (options : Option DemuxOptions)
    (events : List Event) : Prop where
  streams : demux.streams = streamsOf events
  packets : demux.packets = (packetsOf events).filter
    (selects (options.elim 0 DemuxOptions.selectedTrack))
  cursor : demux.cursor = 0

/-- Without a selection, a demux holds all the packets. -/
theorem Demux.Holds.all {demux : Demux} {options : Option DemuxOptions} {events : List Event}
    (h : demux.Holds options events) (hselect : options.elim 0 DemuxOptions.selectedTrack = 0) :
    demux.packets = packetsOf events := by
  rw [h.packets, hselect]
  exact List.filter_eq_self.mpr fun _ _ => rfl

/-- Without a selection, a demux yields the streams and the packets of the events. -/
theorem Demux.Holds.yields {demux : Demux} {options : Option DemuxOptions} {events : List Event}
    (h : demux.Holds options events) (hselect : options.elim 0 DemuxOptions.selectedTrack = 0) :
    demux.Yields (streamsOf events) (packetsOf events) := by
  rw [← h.streams, ← h.all hselect]
  exact demux.yields h.cursor

/-- A demux that is opened holds what was delivered to it. -/
theorem demuxOpen_follows {B : Bytes} {options : Option DemuxOptions} {r : Status × Parsing Demux}
    {events : List Event} {tracks : List TrackSnapshot}
    (hparse : parseTideBytes B true (some (demuxLimits options)) demuxCallbacks
      (Demux.start options (Stream'.const true)) (Stream'.const true) = r)
    (hfol : (Parsing.start (some (demuxLimits options)) demuxCallbacks
      (Demux.start options (Stream'.const true)) (Stream'.const true)).Follows r.2 events tracks)
    (hopen : r.1 = .ok ∨ r.1 = .partialTail ∧ options.any (!·.strict)) :
    ∃ demux, demuxOpen B options (Stream'.const true) (Stream'.const true) = (r.1, some demux) ∧
      demux.Holds options events := by
  have hgain := Demux.deliver (show (Demux.start options (Stream'.const true)).Calm from rfl) events
  have huser : r.2.user = demuxCallbacks.deliver (Demux.start options (Stream'.const true))
      events := hfol.user
  rw [← huser] at hgain
  refine ⟨{ r.2.user with error := r.2.error }, ?_, hgain.streams, hgain.packets, hgain.cursor⟩
  rw [demuxOpen, hparse]
  dsimp only
  rw [if_neg]
  rintro ⟨hne, hnot⟩
  exact hopen.elim hne hnot

/-- **A file is opened**, and yields the streams and the packets of its forest. -/
theorem demuxOpen_file {B : Bytes} {options : Option DemuxOptions} {hd : Header} {f : Forest}
    (hmax : B.length ≤ sizeMax)
    (hB : FileOk (demuxLimits options) (admits (demuxLimits options)) B hd f) :
    ∃ demux, demuxOpen B options (Stream'.const true) (Stream'.const true) = (.ok, some demux) ∧
      demux.Holds options (f.events 72 0) := by
  obtain ⟨p, hparse, hfol, -⟩ := parseTideBytes_file (calm_demux (demuxLimits options) options) hmax
    hB true
  exact demuxOpen_follows hparse hfol (.inl rfl)

/-- Opening answers what the parser answers. -/
theorem demuxOpen_fst (B : Bytes) (options : Option DemuxOptions)
    (trackAllocs allocs : Stream' Bool) :
    (demuxOpen B options trackAllocs allocs).1 =
      (parseTideBytes B true (some (demuxLimits options)) demuxCallbacks
        (Demux.start options allocs) trackAllocs).1 := by
  unfold demuxOpen
  dsimp only
  split <;> rfl

/-- What is opened with `OK` is a file. -/
theorem fileOk_of_demuxOpen {B : Bytes} {options : Option DemuxOptions} (hmax : B.length ≤ sizeMax)
    (hok : (demuxOpen B options (Stream'.const true) (Stream'.const true)).1 = .ok) :
    ∃ hd f, FileOk (demuxLimits options) (admits (demuxLimits options)) B hd f := by
  rw [demuxOpen_fst] at hok
  exact fileOk_of_ok (calm_demux (demuxLimits options) options) hmax hok

end Tide
