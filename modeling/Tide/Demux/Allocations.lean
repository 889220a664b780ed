import Tide.Demux
import Tide.Format.Listening

/-!
# A demux that could be opened

A callback of the demuxer that cannot allocate returns `RESOURCE`, and then no demux is opened.
So a demux that could be opened holds what it would hold if every allocation had succeeded
(`demuxOpen_holds`, `demuxOpen_calm`), whichever did.
-/

namespace Tide

/-- From `demux` to `demux'` the streams and the packets were added, with whatever allocations. -/
structure Demux.Adds (demux demux' : Demux) (streams : List StreamInfo)
    (packets : List PacketInfo) : Prop where
  streams : demux'.streams = demux.streams ++ streams
  packets : demux'.packets = demux.packets ++ packets
  cursor : demux'.cursor = demux.cursor
  selectedTrack : demux'.selectedTrack = demux.selectedTrack

theorem Demux.Adds.refl (demux : Demux) : demux.Adds demux [] [] := ⟨by simp, by simp, rfl, rfl⟩

theorem Demux.Adds.trans {demux demux' demux'' : Demux} {ss ss' : List StreamInfo}
    {ps ps' : List PacketInfo} (h : demux.Adds demux' ss ps) (h' : demux'.Adds demux'' ss' ps') :
    demux.Adds demux'' (ss ++ ss') (ps ++ ps') where
  streams := by rw [h'.streams, h.streams, List.append_assoc]
  packets := by rw [h'.packets, h.packets, List.append_assoc]
  cursor := h'.cursor.trans h.cursor
  selectedTrack := h'.selectedTrack.trans h.selectedTrack

/-- Room was made first. -/
theorem Demux.Adds.grown {demux demux' demux'' : Demux} {ss : List StreamInfo}
    {ps : List PacketInfo} (h : demux.Adds demux' [] []) (h' : demux'.Adds demux'' ss ps) :
    demux.Adds demux'' ss ps := h.trans h'

/-! ### One event -/

theorem Demux.growStreams_adds (demux : Demux) :
    (demux.growStreams.1 = .ok ∨ demux.growStreams.1 = .resource) ∧
      demux.Adds demux.growStreams.2 [] [] := by
  unfold growStreams
  dsimp only
  split_ifs <;> exact ⟨by simp, by simp, by simp, rfl, rfl⟩

theorem Demux.growPackets_adds (demux : Demux) :
    (demux.growPackets.1 = .ok ∨ demux.growPackets.1 = .resource) ∧
      demux.Adds demux.growPackets.2 [] [] := by
  unfold growPackets
  dsimp only
  split_ifs <;> exact ⟨by simp, by simp, by simp, rfl, rfl⟩

/-- A lease that is missing is one of no bytes, or one that the demuxer misses. -/
theorem payloadLeaseCreateCopy_cases (data : Bytes) (allocs : Stream' Bool) :
    (payloadLeaseCreateCopy data allocs).1 = some data ∨
      (payloadLeaseCreateCopy data allocs).1 = none := by
  unfold payloadLeaseCreateCopy
  split_ifs <;> simp

theorem demuxAddStream_adds (demux : Demux) (stream : StreamInfo) :
    ((demuxAddStream demux stream).1 = .ok ∧
      demux.Adds (demuxAddStream demux stream).2 [stream] []) ∨
      (demuxAddStream demux stream).1 = .resource := by
  obtain ⟨hgrow, hadds⟩ := demux.growStreams_adds
  unfold demuxAddStream
  generalize demux.growStreams = r at hgrow hadds ⊢
  rcases r with ⟨status, grown⟩
  rcases hgrow with hok | hres
  · obtain rfl : status = .ok := hok
    have hone : ∀ allocs, demux.Adds { grown with streams := grown.streams ++ [stream],
                                                  allocs := allocs } [stream] [] := fun allocs =>
      hadds.grown ⟨rfl, by simp, rfl, rfl⟩
    rw [andThen_ok]
    split_ifs
    · exact .inr rfl
    · exact .inl ⟨rfl, hone _⟩
    · exact .inl ⟨rfl, hone _⟩
  · obtain rfl : status = .resource := hres
    exact .inr rfl

theorem demuxAddPacket_adds (demux : Demux) (packet : PacketInfo) :
    ((demuxAddPacket demux packet).1 = .ok ∧
        demux.Adds (demuxAddPacket demux packet).2 []
          ([packet].filter (selects demux.selectedTrack))) ∨
      (demuxAddPacket demux packet).1 = .resource := by
  unfold demuxAddPacket
  by_cases hsel : demux.selectedTrack ≠ 0 ∧ packet.trackId ≠ demux.selectedTrack
  · rw [if_pos hsel]
    have hno : selects demux.selectedTrack packet = false := by simpa [selects] using hsel
    exact .inl ⟨rfl, by simpa [hno] using Demux.Adds.refl demux⟩
  have hyes : selects demux.selectedTrack packet = true := by
    rw [selects, Bool.or_eq_true, beq_iff_eq, beq_iff_eq]
    by_contra hnot
    exact hsel (not_or.mp hnot)
  rw [if_neg hsel]
  obtain ⟨hgrow, hadds⟩ := demux.growPackets_adds
  generalize demux.growPackets = r at hgrow hadds ⊢
  rcases r with ⟨status, grown⟩
  rcases hgrow with hok | hres
  swap
  · obtain rfl : status = .resource := hres
    exact .inr rfl
  obtain rfl : status = .ok := hok
  rw [andThen_ok]
  dsimp only
  have hlease := payloadLeaseCreateCopy_cases packet.payload grown.allocs
  generalize payloadLeaseCreateCopy packet.payload grown.allocs = lease at hlease ⊢
  split_ifs with hmissing
  · exact .inr rfl
  · -- the bytes of the lease are those of the packet
    have hpayload : lease.1.getD [] = packet.payload := by
      rcases hlease with hsome | hnone
      · rw [hsome]
        rfl
      · have hempty : packet.payload = [] := by simpa [hnone] using hmissing
        rw [hnone, hempty]
        rfl
    refine .inl ⟨rfl, hadds.grown ⟨by simp, ?_, rfl, rfl⟩⟩
    simp [hpayload, hyes]

/-- **A callback** copies the stream, or the packet if it is selected, or it returns `RESOURCE`. -/
theorem demuxCallbacks_adds (demux : Demux) (event : Event) :
    ((demuxCallbacks.call demux event).1 = .ok ∧
      demux.Adds (demuxCallbacks.call demux event).2 (streamsOf [event])
        ((packetsOf [event]).filter (selects demux.selectedTrack))) ∨
      (demuxCallbacks.call demux event).1 = .resource := by
  cases event with
  | record event => exact .inl ⟨rfl, Demux.Adds.refl demux⟩
  | stream stream => exact demuxAddStream_adds demux stream
  | packet packet => exact demuxAddPacket_adds demux packet

/-! ### All of them -/

theorem Demux.hear_adds (demux : Demux) (events : List Event) :
    ((demuxCallbacks.hear demux events).1 = .ok ∧
      demux.Adds (demuxCallbacks.hear demux events).2 (streamsOf events)
        ((packetsOf events).filter (selects demux.selectedTrack))) ∨
      (demuxCallbacks.hear demux events).1 = .resource := by
  induction events generalizing demux with
  | nil => exact .inl ⟨rfl, Demux.Adds.refl demux⟩
  | cons event events ih =>
    rw [Callbacks.hear]
    have hone := demuxCallbacks_adds demux event
    generalize demuxCallbacks.call demux event = r at hone ⊢
    rcases r with ⟨status, demux'⟩
    rcases hone with ⟨hok, hadds⟩ | hres
    swap
    · obtain rfl : status = .resource := hres
      exact .inr rfl
    obtain rfl : status = .ok := hok
    rw [andThen_ok]
    obtain ⟨hrest, hmore⟩ | hres := ih demux'
    · refine .inl ⟨hrest, ?_⟩
      rw [hadds.selectedTrack] at hmore
      have hboth := hadds.trans hmore
      rwa [← List.filter_append, packetsOf, packetsOf, streamsOf, streamsOf,
        ← List.filterMap_append, ← List.filterMap_append] at hboth
    · exact .inr hres

/-- With allocations that succeed, every event is heard. -/
theorem Demux.Calm.hear {demux : Demux} (hc : demux.Calm) (events : List Event) :
    (demuxCallbacks.hear demux events).1 = .ok := by
  induction events generalizing demux with
  | nil => rfl
  | cons event events ih =>
    obtain ⟨hok, hgain⟩ := demuxCallbacks_calm hc event
    rw [Callbacks.hear, show demuxCallbacks.call demux event =
      (.ok, (demuxCallbacks.call demux event).2) from Prod.ext hok rfl, andThen_ok]
    exact ih (hgain.allocs.trans hc)

/-! ### Opening -/

section

variable {B : Bytes} {options : Option DemuxOptions} {trackAllocs allocs : Stream' Bool}
    {status : Status} {demux : Demux}

/-- When a demux is opened. -/
theorem exists_demuxOpen_iff :
    (∃ demux, demuxOpen B options trackAllocs allocs = (status, some demux)) ↔
    (parseTideBytes B true (some (demuxLimits options)) demuxCallbacks (Demux.start options allocs)
      trackAllocs).1 = status ∧
      (status = .ok ∨ status = .partialTail ∧ options.any (!·.strict)) := by
  unfold demuxOpen
  dsimp only
  generalize parseTideBytes B true (some (demuxLimits options)) demuxCallbacks
    (Demux.start options allocs) trackAllocs = r
  rcases r with ⟨status', p⟩
  constructor
  · rintro ⟨demux, h⟩
    split_ifs at h with hrefused
    · simp at h
    · obtain ⟨rfl, -⟩ := Prod.mk.inj h
      refine ⟨rfl, ?_⟩
      by_contra hnot
      exact hrefused ⟨fun hok => hnot (.inl hok), fun htail => hnot (.inr htail)⟩
  · rintro ⟨rfl, hopened⟩
    rw [if_neg (fun hrefused => hopened.elim hrefused.1 hrefused.2)]
    exact ⟨_, rfl⟩

theorem demuxOpen_of_ok (h : (demuxOpen B options trackAllocs allocs).1 = .ok) :
    ∃ demux, demuxOpen B options trackAllocs allocs = (.ok, some demux) := by
  rw [demuxOpen_fst] at h
  exact exists_demuxOpen_iff.mpr ⟨h, .inl rfl⟩

/-- **What a demux holds that could be opened**, whatever the allocations: the streams and the
packets that a recorder is told of. -/
theorem demuxOpen_holds (h : demuxOpen B options trackAllocs allocs = (status, some demux)) :
    (parseTideBytes B true (some (demuxLimits options)) recorder [] trackAllocs).1 = status ∧
      demux.Holds options (parseTideBytes B true (some (demuxLimits options)) recorder []
        trackAllocs).2.user := by
  obtain ⟨r, r', hrun, hcallbacks, hall, hclient⟩ :=
    parseTideBytes_heardRun B true (some (demuxLimits options)) demuxCallbacks
      (Demux.start options allocs) trackAllocs
  obtain ⟨huser, hok, hother, -⟩ := hrun.heard true
  rw [hcallbacks] at huser hok hother
  unfold demuxOpen at h
  rw [hclient] at h
  dsimp only at h
  rw [hall]
  split_ifs at h with hrefused
  · simp at h
  obtain ⟨rfl, rfl⟩ : atEnd true r'.1 = status ∧ { r'.2.user with error := r'.2.error } = demux :=
    by simpa using h
  obtain ⟨hheard, hadds⟩ | hres := Demux.hear_adds (Demux.start options allocs) r.2.user
  · refine ⟨(hok hheard).1.symm, ?_⟩
    rw [← huser] at hadds
    exact ⟨hadds.streams, hadds.packets, hadds.cursor⟩
  · -- a callback that fails is the end of the demux
    obtain ⟨hstatus, -⟩ := hother (by simp [hres]) (by simp [hres])
    rw [hstatus, hres] at hrefused
    simp at hrefused

/-- **A demux that could be opened** could also be opened if every allocation had succeeded. -/
theorem demuxOpen_calm (h : demuxOpen B options trackAllocs allocs = (status, some demux)) :
    ∃ calm, demuxOpen B options trackAllocs (Stream'.const true) = (status, some calm) ∧
      calm.streams = demux.streams ∧
      calm.packets = demux.packets ∧ demux.cursor = 0 := by
  obtain ⟨hstatus, hholds⟩ := demuxOpen_holds h
  obtain ⟨r, r', hrun, hcallbacks, hall, hclient⟩ :=
    parseTideBytes_heardRun B true (some (demuxLimits options)) demuxCallbacks
      (Demux.start options (Stream'.const true)) trackAllocs
  obtain ⟨-, hok, -, -⟩ := hrun.heard true
  rw [hcallbacks] at hok
  obtain ⟨hsame, -⟩ :=
    hok ((show (Demux.start options (Stream'.const true)).Calm from rfl).hear r.2.user)
  rw [hall] at hstatus
  have hopen : ∃ calm, demuxOpen B options trackAllocs (Stream'.const true) =
      (status, some calm) := by
    obtain ⟨-, hopened⟩ := exists_demuxOpen_iff.mp ⟨demux, h⟩
    refine exists_demuxOpen_iff.mpr ⟨?_, hopened⟩
    rw [hclient, ← hstatus]
    exact hsame
  obtain ⟨calm, hcalm⟩ := hopen
  obtain ⟨-, hcholds⟩ := demuxOpen_holds hcalm
  exact ⟨calm, hcalm,
    by rw [hcholds.streams, hholds.streams], by rw [hcholds.packets, hholds.packets], hholds.cursor⟩

end

end Tide
