import Tide.Demux
import Tide.Format.Alike
import Tide.Theory.Simulation

/-!
# Selecting a track

`selected_track` is looked at by the callback for packets alone, which answers `OK` to a packet
that is not selected. So the parser takes the same way with a selection and without
(`parseTideBytes_alike`), and the demux holds the packets that are selected out of those it
would hold (`selection_filters`).
-/

namespace Tide

open Theory

/-! ### Draining -/

/-- A call to `tide_demux_next`: the status, and the packet if one is moved out. -/
def demuxPull (demux : Demux) (_ : Unit) : (Status × Option PacketInfo) × Demux :=
  match demuxNext demux with
  | (.ok, packet, demux) => ((.ok, some packet), demux)
  | (status, _, demux) => ((status, none), demux)

/-- Calls to `tide_demux_next` move out these packets one by one, and then answer `WOULD_BLOCK` for
ever. -/
def Demux.Drains (demux : Demux) (packets : List PacketInfo) : Prop :=
  ∀ n, (answers demuxPull demux (List.replicate n ())).1 =
    (packets.take n).map (fun packet => (.ok, some packet)) ++ List.replicate (n - packets.length)
      (.wouldBlock, none)

/-- A demux drains the packets from the cursor on; the induction is on the calls. -/
theorem Demux.drains (demux : Demux) : demux.Drains (demux.packets.drop demux.cursor) := by
  intro n
  induction n generalizing demux with
  | zero => simp [answers]
  | succ n ih =>
    rw [List.replicate_succ, answers]
    obtain ⟨hnil, hnext⟩ | ⟨packet, demux', hdrop, hnext⟩ := demuxNext_cases demux
    · have hpull : demuxPull demux () = ((.wouldBlock, none), demux) := by rw [demuxPull, hnext]
      have hrest := ih demux
      rw [hnil] at hrest
      rw [hpull, hrest, hnil]
      simp [List.replicate_succ]
    · have hpull : demuxPull demux () = ((.ok, some packet), demux') := by rw [demuxPull, hnext]
      rw [hpull, ih demux', hdrop]
      simp

/-- A demux that was just opened drains what it holds. -/
theorem Demux.drains_all {demux : Demux} (hcursor : demux.cursor = 0) {packets : List PacketInfo}
    (h : demux.packets = packets) :
    demux.Drains packets := by
  have hdrains := demux.drains
  rwa [hcursor, List.drop_zero, h] at hdrains

/-- What a demux drains is determined by it. -/
theorem Demux.Drains.unique {demux : Demux} {packets packets' : List PacketInfo}
    (h : demux.Drains packets) (h' : demux.Drains packets') : packets = packets' := by
  have hmoved : ∀ {packets : List PacketInfo}, demux.Drains packets → ∀ n, packets.length ≤ n →
      (answers demuxPull demux (List.replicate n ())).1.filterMap Prod.snd = packets := by
    intro packets h n hn
    rw [h n, List.take_of_length_le hn]
    simp
  rw [← hmoved h (packets.length + packets'.length) (Nat.le_add_right ..)]
  exact hmoved h' _ (Nat.le_add_left ..)

/-! ### With a selection and without -/

/-- A demux with a selection beside one without: it holds the same streams, and of the packets those
of the track. -/
structure Demux.Selected (track : UInt32) (demux all : Demux) : Prop where
  selectedTrack : demux.selectedTrack = track
  unselected : all.selectedTrack = 0
  streams : demux.streams = all.streams
  packets : demux.packets = all.packets.filter fun packet => packet.trackId == track
  cursor : demux.cursor = 0
  cursorAll : all.cursor = 0
  calm : demux.Calm
  calmAll : all.Calm

/-- What a selection of a track lets pass. -/
theorem selects_of_ne {track : UInt32} (htrack : track ≠ 0) :
    selects track = fun packet => packet.trackId == track := by
  funext packet
  simp [selects, htrack]

/-- Both answer `OK` to what is delivered to both, and stay side by side. -/
theorem Demux.Selected.call {track : UInt32} (htrack : track ≠ 0) {demux all : Demux}
    (h : demux.Selected track all) (event : Event) :
    (demuxCallbacks.call demux event).1 = (demuxCallbacks.call all event).1 ∧
      (demuxCallbacks.call demux event).2.Selected track (demuxCallbacks.call all event).2 := by
  obtain ⟨hok, hgain⟩ := demuxCallbacks_calm h.calm event
  obtain ⟨hokAll, hgainAll⟩ := demuxCallbacks_calm h.calmAll event
  rw [h.selectedTrack, selects_of_ne htrack] at hgain
  have hall : (packetsOf [event]).filter (selects all.selectedTrack) = packetsOf [event] := by
    rw [h.unselected]
    exact List.filter_eq_self.mpr fun _ _ => rfl
  rw [hall] at hgainAll
  refine ⟨hok.trans hokAll.symm, ?_⟩
  exact
    { selectedTrack := hgain.selectedTrack.trans h.selectedTrack
      unselected := hgainAll.selectedTrack.trans h.unselected
      streams := by rw [hgain.streams, hgainAll.streams, h.streams]
      packets := by rw [hgain.packets, hgainAll.packets, h.packets, List.filter_append]
      cursor := hgain.cursor.trans h.cursor
      cursorAll := hgainAll.cursor.trans h.cursorAll
      calm := hgain.allocs.trans h.calm
      calmAll := hgainAll.allocs.trans h.calmAll }

/-- **Selecting a track is filtering.** Whatever the bytes, opening with a selection answers what
opening without one does; if it opens, the streams are the same, and draining it gives those of the
packets that draining the other gives that are of the track, in their order, and then `WOULD_BLOCK`
for ever. -/
theorem selection_filters (data : Bytes) (limits : Limits) (strict : Bool) {track : UInt32}
    (htrack : track ≠ 0) :
    let selected :=
      demuxOpen data (some ⟨limits, track, strict⟩) (Stream'.const true) (Stream'.const true)
    let whole := demuxOpen data (some ⟨limits, 0, strict⟩) (Stream'.const true) (Stream'.const true)
    selected.1 = whole.1 ∧
      (selected.2 = none ∧ whole.2 = none ∨
        ∃ demux all packets, selected.2 = some demux ∧ whole.2 = some all ∧
          demuxStreamCount demux = demuxStreamCount all ∧
            (∀ index, demuxStreamInfo demux index = demuxStreamInfo all index) ∧
          all.Drains packets ∧
            demux.Drains (packets.filter fun packet => packet.trackId == track)) := by
  intro selected whole
  have hstart : (Demux.start (some ⟨limits, track, strict⟩) (Stream'.const true)).Selected track
      (Demux.start (some ⟨limits, 0, strict⟩) (Stream'.const true)) :=
        ⟨rfl, rfl, rfl, rfl, rfl, rfl, rfl, rfl⟩
  obtain ⟨status, p, q, hp, hq, hpq⟩ :=
    (parseTideBytes_alike (fun _ _ event h => h.call htrack event) hstart data true
    (some (demuxLimits (some ⟨limits, track, strict⟩))) (Stream'.const true)).cases
  have hselected : selected = if status ≠ .ok ∧ ¬ (status = .partialTail ∧ !strict)
      then (status, none) else (status, some { p.user with error := p.error }) := by
    simp only [selected, demuxOpen, hp]
    rfl
  have hwhole : whole = if status ≠ .ok ∧ ¬ (status = .partialTail ∧ !strict) then (status, none)
      else (status, some { q.user with error := q.error }) := by
    have hq' : parseTideBytes data true (some (demuxLimits (some ⟨limits, 0, strict⟩)))
        demuxCallbacks (Demux.start (some ⟨limits, 0, strict⟩) (Stream'.const true))
          (Stream'.const true) = (status, q) := hq
    simp only [whole, demuxOpen, hq']
    rfl
  rw [hselected, hwhole]
  have huser := hpq.user
  split_ifs
  · exact ⟨rfl, .inl ⟨rfl, rfl⟩⟩
  · refine ⟨rfl, .inr ⟨_, _, q.user.packets, rfl, rfl, ?_, ?_, ?_, ?_⟩⟩
    · exact congrArg List.length huser.streams
    · intro index
      simp only [demuxStreamInfo, huser.streams]
    · apply Demux.drains_all
      · exact huser.cursorAll
      · rfl
    · apply Demux.drains_all
      · exact huser.cursor
      · exact huser.packets

/-- The packets of a file with two tracks. -/
def trackPackets : List PacketInfo :=
  [⟨1, 0, 0, 0, 0, 40, 1, [0x2a]⟩, ⟨2, 0, 0, 0, 0, 20, 1, [0x2b]⟩, ⟨1, 0, 1, 40, 40, 40, 0, [0x2c]⟩]

/-- A file with two tracks. -/
def twoTracks : Bytes :=
  sampleHeader.bytes ++ Forest.bytes
    (.leaf ⟨RecordType.streamDesc.code, 0, 3, 0, 1⟩ (streamFixed ⟨1, 0, 2, 7, ⟨1, 1000⟩, []⟩ ++
      [2, 0xca, 0xfe])
    (.leaf ⟨RecordType.streamDesc.code, 0, 3, 0, 2⟩ (streamFixed ⟨2, 0, 1, 7, ⟨1, 1000⟩, []⟩ ++ [0])
    (.leaf ⟨RecordType.packet.code, 0, 3, 0, 3⟩ (packetFixed ⟨1, 0, 0, 0, 0, 40, 1, []⟩ ++
      [1, 0x2a])
    (.leaf ⟨RecordType.packet.code, 0, 3, 0, 4⟩ (packetFixed ⟨2, 0, 0, 0, 0, 20, 1, []⟩ ++
      [1, 0x2b])
    (.leaf ⟨RecordType.packet.code, 0, 3, 0, 5⟩ (packetFixed ⟨1, 0, 1, 40, 40, 40, 0, []⟩ ++
      [1, 0x2c]) .nil)))))

/-- Selecting track 1 of that file: of the three packets, the first and the last are drained. -/
theorem twoTracks_selection :
    ∃ demux all, demuxOpen twoTracks (some ⟨limitsDefault, 1, true⟩) (Stream'.const true)
    (Stream'.const true) = (.ok, some demux) ∧
      demuxOpen twoTracks (some ⟨limitsDefault, 0, true⟩) (Stream'.const true)
        (Stream'.const true) = (.ok, some all) ∧
      demuxStreamCount demux = 2 ∧ demuxStreamCount all = 2 ∧ all.Drains trackPackets ∧
      demux.Drains [⟨1, 0, 0, 0, 0, 40, 1, [0x2a]⟩, ⟨1, 0, 1, 40, 40, 40, 0, [0x2c]⟩] := by
  have hok : (demuxOpen twoTracks (some ⟨limitsDefault, 0, true⟩) (Stream'.const true)
      (Stream'.const true)).1 = .ok := by
    decide +kernel
  have hheld : (demuxOpen twoTracks (some ⟨limitsDefault, 0, true⟩) (Stream'.const true)
      (Stream'.const true)).2.map (fun all => (demuxStreamCount all, all.cursor, all.packets)) =
        some (2, 0, trackPackets) := by
        decide +kernel
  obtain ⟨hstatus, ⟨-, hnone⟩ | ⟨demux, all, packets, hdemux, hall, hcount, -,
      hdrains, hselected⟩⟩ :=
    selection_filters twoTracks limitsDefault true (show (1 : UInt32) ≠ 0 by decide)
  · rw [hnone] at hheld
    cases hheld
  rw [hall] at hheld
  obtain ⟨hstreams, hcursor, hpackets⟩ : demuxStreamCount all = 2 ∧ all.cursor = 0 ∧
      all.packets = trackPackets := by
    simpa using hheld
  obtain rfl := hdrains.unique (Demux.drains_all hcursor hpackets)
  exact ⟨demux, all, Prod.ext (hstatus.trans hok) hdemux, Prod.ext hok hall, hcount.trans hstreams,
    hstreams, hdrains, hselected⟩

end Tide
