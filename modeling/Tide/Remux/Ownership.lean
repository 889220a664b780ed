import Tide.Demux.Ownership
import Tide.Mux.Ownership
import Tide.Remux

/-!
# Copying and the memory

The two loops of `remux_cmd` and `tide_repair_write` once more, with a demux and a mux that live
in one memory. A packet that is moved out of the demux belongs to the loop until it is reset; what
a call to the mux reads of a stream or a packet must be there.

* `HeldDemux.Filled`: an opened demux has a block for each configuration and a lease for each
  payload (`heldOpen_filled`).
* `Copying.Owns` is what both loops keep, however the calls to the mux end (`heldCopyAll_owns`).
* `heldCopyAll_shows`: apart from the memory they are the loops of `Tide.Remux`.
-/

namespace Tide

open Theory

/-! ### The loops -/

/-- A demux and a mux in one memory. -/
structure Copying where
  demux : HeldDemux
  mux : HeldMux
  blocks : Blocks
  heap : LeaseHeap

/-- `tide_demux_stream_info`, with the memory. -/
def HeldDemux.streamInfo (demux : HeldDemux) (blocks : Blocks) (index : ℕ) :
    Option StreamInfo × Blocks :=
  match demux.streams[index]? with
  | none => (none, blocks.touch (some demux.self))
  | some stream => (some stream, (blocks.touch (some demux.self)).touch demux.streamTable)

/-- Reading the configuration of a stream where the demux has it. -/
def HeldDemux.readConfig (demux : HeldDemux) (blocks : Blocks) (index : ℕ)
    (stream : StreamInfo) : Blocks :=
  if stream.config.length ≠ 0 then blocks.touch (demux.configs.getD index none) else blocks

/-- Reading the payload of a packet. It is a fault if there is none, or if its lease was freed. -/
def readPayload (blocks : Blocks) (heap : LeaseHeap) (packet : PacketRef) : Blocks :=
  if packet.info.payload.length = 0 ∨ ∃ lease ∈ packet.viewLease, heap.counts.frees lease = 0 then
    blocks
  else { blocks with faults := blocks.faults + 1 }

/-- The loop over the streams, from `index` on. -/
def heldCopyStreams : (left index : ℕ) → Copying → Status × Copying
  | 0, _, c => (.ok, c)
  | left + 1, index, c =>
    match c.demux.streamInfo c.blocks index with
    | (none, blocks) => (.invalidArgument, { c with blocks := blocks })
    | (some stream, blocks) =>
      let called := Muxing.call ⟨c.mux, c.demux.readConfig blocks index stream⟩ (.stream stream)
      andThen (called.1, { c with mux := called.2.held, blocks := called.2.blocks })
        (heldCopyStreams left (index + 1))

/-- A packet that was moved out is written. `tide_mux_write_packet` resets it, and so does the
loop. -/
def Copying.writePacket (c : Copying) (packet : PacketRef) : Status × Copying :=
  let called := Muxing.call ⟨c.mux, readPayload c.blocks c.heap packet⟩ (.packet packet.info)
  let reset := packetRefReset packet
  let again := packetRefReset reset.2
  (called.1,
    { c with
      mux := called.2.held
      blocks := called.2.blocks
      heap := payloadLeaseRelease (payloadLeaseRelease c.heap reset.1) again.1 })

/-- The loop over the packets. -/
def heldCopyPackets : ℕ → Copying → Status × Copying
  | 0, c => (.internal, c)
  | fuel + 1, c =>
    if c.demux.cursor ≥ c.demux.packets.length then
      (.ok, { c with blocks := c.blocks.touch (some c.demux.self) })
    else
      let moved := c.demux.next packetRefInit
      let c : Copying :=
        { c with
          demux := moved.2
          blocks := (c.blocks.touch (some c.demux.self)).touch c.demux.packetTable
          heap := payloadLeaseRelease c.heap moved.1.released }
      andThen (c.writePacket moved.1.dst) (heldCopyPackets fuel)

/-- Both loops. -/
def heldCopyAll (c : Copying) : Status × Copying :=
  andThen (heldCopyStreams c.demux.streams.length 0 c) fun c =>
    heldCopyPackets (c.demux.packets.length + 1) c

/-! ### What the loops keep -/

/-- What is to be read is there: a stream with a configuration has a block for it, and a packet
with a payload has a lease, which its view spans. -/
structure HeldDemux.Filled (demux : HeldDemux) : Prop where
  configs : List.Forall₂ (fun (stream : StreamInfo) (config : Option ℕ) => stream.config.length ≠
    0 → config ≠ none) demux.streams
    demux.configs
  packets : ∀ packet ∈ demux.packets, packet.Whole ∧ (packet.info.payload.length ≠ 0 →
    packet.lease ≠ none)

theorem Demuxing.growStreams_filled {u : Demuxing} (h : u.demux.Filled) :
    u.growStreams.2.demux.Filled := by
  unfold Demuxing.growStreams
  by_cases hfull : u.demux.streams.length = u.demux.streamCapacity
  · rw [if_pos hfull]
    dsimp only
    split
    · exact h
    · split <;> exact ⟨h.configs, h.packets⟩
  · rw [if_neg hfull]
    exact h

theorem Demuxing.growPackets_filled {u : Demuxing} (h : u.demux.Filled) :
    u.growPackets.2.demux.Filled := by
  unfold Demuxing.growPackets
  by_cases hfull : u.demux.packets.length = u.demux.packetCapacity
  · rw [if_pos hfull]
    dsimp only
    split
    · exact h
    · exact ⟨h.configs, h.packets⟩
  · rw [if_neg hfull]
    exact h

theorem Demuxing.storeStream_filled {u : Demuxing} (h : u.demux.Filled) {stream : StreamInfo}
    {config : Option ℕ} (hconfig : stream.config.length ≠ 0 → config ≠ none) :
    (u.storeStream stream config).demux.Filled :=
  ⟨List.rel_append h.configs (.cons hconfig .nil), h.packets⟩

theorem heldCallbacks_filled (u : Demuxing) (event : Event) (h : u.demux.Filled) :
    (heldCallbacks.call u event).2.demux.Filled := by
  cases event with
  | record event => exact h
  | stream stream =>
    have hgrown := Demuxing.growStreams_filled h
    change (heldAddStream u stream).2.demux.Filled
    unfold heldAddStream
    generalize u.growStreams = r at hgrown
    obtain ⟨status, grown⟩ := r
    by_cases hok : status = .ok
    swap
    · rw [andThen_of_ne (show (status, grown).1 ≠ .ok from hok)]
      exact hgrown
    subst hok
    rw [andThen_ok]
    split_ifs with hconfig
    · split
      · exact hgrown
      · exact Demuxing.storeStream_filled (u := { grown with blocks := _, heap := _ }) hgrown
          fun _ => by simp
    · exact Demuxing.storeStream_filled hgrown fun hne => absurd hne hconfig
  | packet packet =>
    change (heldAddPacket u packet).2.demux.Filled
    unfold heldAddPacket
    split_ifs
    · exact h
    have hgrown := Demuxing.growPackets_filled h
    generalize u.growPackets = r at hgrown
    obtain ⟨status, grown⟩ := r
    by_cases hok : status = .ok
    swap
    · rw [andThen_of_ne (show (status, grown).1 ≠ .ok from hok)]
      exact hgrown
    subst hok
    rw [andThen_ok]
    dsimp only
    split_ifs
    · exact hgrown
    · refine ⟨hgrown.configs, fun stored hstored => ?_⟩
      rcases List.mem_append.mp hstored with hold | hnew
      · exact hgrown.packets stored hold
      · obtain rfl := List.mem_singleton.mp hnew
        generalize (grown.heap.payloadLeaseCreateCopy (some packet.payload)
          packet.payload.length).1 = lease
        cases lease with
        | none => exact ⟨fun lease hlease => (nomatch hlease), fun hne => absurd rfl hne⟩
        | some lease =>
          refine ⟨fun lease' hlease => ?_, fun _ => by simp [storeLease]⟩
          obtain rfl : lease = lease' := Option.some.inj hlease
          exact ⟨rfl, rfl⟩

/-- An opened demux is filled. -/
theorem heldOpen_filled {data : Bytes} {options : Option DemuxOptions} {trackAllocs : Stream' Bool}
    {room : Bool} {blocks : Blocks} {heap : LeaseHeap} {demux : HeldDemux}
    (h : (heldOpen data options trackAllocs room blocks heap).demux = some demux) :
    demux.Filled := by
  unfold heldOpen at h
  rcases hmalloc : blocks.malloc room with ⟨self, blocks'⟩
  rw [hmalloc] at h
  cases self with
  | none => cases h
  | some self =>
    have hstart : (⟨HeldDemux.start options self, blocks', heap⟩ : Demuxing).demux.Filled :=
      ⟨.nil, fun packet hpacket => by cases hpacket⟩
    have hparse := parseTideBytes_user (J := fun u : Demuxing => u.demux.Filled)
      heldCallbacks_filled hstart data true
      (some (demuxLimits options)) trackAllocs
    dsimp only at h
    split_ifs at h
    · obtain rfl := Option.some.inj h
      exact ⟨hparse.configs, hparse.packets⟩

/-- **What the loops keep**: the demux and the mux own their blocks, beside each other, and the
mux has its file. -/
structure Copying.Owns (c : Copying) (file : ℕ) (rest : Multiset ℕ)
    (others : Multiset Lease) : Prop where
  demux : Demuxing.Owns ⟨c.demux, c.blocks, c.heap⟩ (c.mux.owned + rest) others
  mux : Muxing.Owns ⟨c.mux, c.blocks⟩ (c.demux.owned + rest)
  filled : c.demux.Filled
  file : c.mux.file = file

section

variable {c : Copying} {file : ℕ} {rest : Multiset ℕ} {others : Multiset Lease}

/-- The mux goes on, beside the demux. -/
theorem Copying.Owns.setMux (h : c.Owns file rest others) {u : Muxing}
    (hu : u.Owns (c.demux.owned + rest)) (hfile : u.held.file = c.mux.file) :
    Copying.Owns { c with mux := u.held, blocks := u.blocks } file rest others :=
  ⟨⟨h.demux.shaped, hu.blocks.congr (by abel), h.demux.leases, h.demux.numbered⟩, hu, h.filled,
    hfile.trans h.file⟩

/-- What a demux owns may be touched. -/
theorem Copying.Owns.touch (h : c.Owns file rest others) {p : ℕ} (hp : p ∈ c.demux.owned) :
    c.blocks.touch (some p) = c.blocks :=
  h.demux.blocks.touch (Multiset.mem_add.mpr (.inl hp))

theorem Copying.Owns.touch_self (h : c.Owns file rest others) :
    c.blocks.touch (some c.demux.self) = c.blocks :=
  h.touch (by simp [HeldDemux.owned])

/-- Looking at a stream touches the demux and its table. -/
theorem Demuxing.Owns.streamInfo {u : Demuxing} (h : u.Owns rest others) (index : ℕ) :
    u.demux.streamInfo u.blocks index = (u.demux.streams[index]?, u.blocks) := by
  unfold HeldDemux.streamInfo
  rw [h.blocks.touch (by simp [HeldDemux.owned])]
  cases hstream : u.demux.streams[index]? with
  | none => rfl
  | some stream =>
    have hlt := (List.getElem?_eq_some_iff.mp hstream).1
    have hle := h.shaped.streams
    obtain ⟨p, q, hp, -⟩ := h.shaped.streamTable (by omega)
    dsimp only
    rw [hp, h.blocks.touch (by simp [HeldDemux.owned, HeldDemux.tables, hp])]

theorem Copying.Owns.streamInfo (h : c.Owns file rest others) (index : ℕ) :
    c.demux.streamInfo c.blocks index = (c.demux.streams[index]?, c.blocks) :=
  h.demux.streamInfo index

theorem Copying.Owns.readConfig (h : c.Owns file rest others) {index : ℕ} {stream : StreamInfo}
    (hstream : c.demux.streams[index]? = some stream) :
    c.demux.readConfig c.blocks index stream = c.blocks := by
  unfold HeldDemux.readConfig
  split_ifs with hne
  · obtain ⟨hlt, rfl⟩ := List.getElem?_eq_some_iff.mp hstream
    obtain ⟨hlength, hget⟩ := List.forall₂_iff_get.mp h.filled.configs
    have hconfig := hget index hlt (hlength ▸ hlt) hne
    obtain ⟨p, hp⟩ := Option.ne_none_iff_exists'.mp hconfig
    have hgetD : c.demux.configs.getD index none = some p := by
      rw [← hp]
      simp [List.getD, List.getElem?_eq_getElem (hlength ▸ hlt)]
    rw [hgetD]
    have hmem : p ∈ c.demux.configs.filterMap id :=
      List.mem_filterMap.mpr ⟨some p, hp ▸ List.get_mem _ _, rfl⟩
    exact h.touch (Multiset.mem_cons_of_mem (Multiset.mem_add.mpr (.inr hmem)))
  · rfl

/-- **The loop over the streams** keeps what is owned. -/
theorem heldCopyStreams_owns (h : c.Owns file rest others) (left index : ℕ) :
    (heldCopyStreams left index c).2.Owns file rest others := by
  induction left generalizing c index with
  | zero => exact h
  | succ left ih =>
    unfold heldCopyStreams
    rw [h.streamInfo]
    cases hstream : c.demux.streams[index]? with
    | none => exact h
    | some stream =>
      dsimp only
      rw [h.readConfig hstream]
      have hcall := h.setMux (h.mux.call (.stream stream)) (Muxing.call_file ..)
      generalize Muxing.call ⟨c.mux, c.blocks⟩ (.stream stream) = called at hcall
      obtain ⟨status, u⟩ := called
      cases status <;> first | exact ih hcall _ | exact hcall

/-- A packet is moved out: its lease is no longer the demux's. -/
theorem Copying.Owns.next (h : c.Owns file rest others)
    (hlt : c.demux.cursor < c.demux.packets.length) :
    let moved := c.demux.next packetRefInit
    Copying.Owns { c with demux := moved.2 } file rest
      ((moved.1.dst.lease.toList : Multiset Lease) + others) ∧
      moved.1.dst = c.demux.packets[c.demux.cursor] := by
  intro moved
  have hslot : c.demux.packets.getD c.demux.cursor packetRefInit =
      c.demux.packets[c.demux.cursor] := by
    simp [List.getD, List.getElem?_eq_getElem hlt]
  have hmoved : moved.1.dst = c.demux.packets[c.demux.cursor] := by
    have hwhole := (h.filled.packets _ (List.getElem_mem hlt)).1.move packetRefInit
    rw [← hslot] at hwhole ⊢
    exact hwhole
  have hleases : c.demux.leases + others = moved.2.leases +
      ((moved.1.dst.lease.toList : Multiset Lease) + others) := by
    rw [c.demux.next_leases hlt packetRefInit]
    abel
  have hbalanced : c.heap.counts.Balanced (c.demux.leases + others) := h.demux.leases
  rw [hleases] at hbalanced
  refine ⟨⟨⟨h.demux.shaped.next packetRefInit, h.demux.blocks, hbalanced, h.demux.numbered⟩, h.mux,
    ⟨h.filled.configs, ?_⟩, h.file⟩, hmoved⟩
  intro packet hpacket
  rcases List.mem_or_eq_of_mem_set hpacket with hold | rfl
  · exact h.filled.packets packet hold
  · exact ⟨fun lease hlease => (nomatch hlease), fun hne => absurd rfl hne⟩

/-- The payload of a packet whose lease is owned is there. -/
theorem Copying.Owns.readPayload {packet : PacketRef}
    (h : c.Owns file rest ((packet.lease.toList : Multiset Lease) + others))
    (hpacket : packet.Whole ∧ (packet.info.payload.length ≠ 0 → packet.lease ≠ none)) :
    readPayload c.blocks c.heap packet = c.blocks := by
  unfold Tide.readPayload
  apply if_pos
  by_cases hzero : packet.info.payload.length = 0
  · exact .inl hzero
  · obtain ⟨lease, hlease⟩ := Option.ne_none_iff_exists'.mp (hpacket.2 hzero)
    refine .inr ⟨lease, (hpacket.1 lease hlease).2, h.demux.leases.live ?_⟩
    simp [hlease]

/-- **A packet is written** and reset: its lease is released. -/
theorem Copying.Owns.writePacket {packet : PacketRef}
    (h : c.Owns file rest ((packet.lease.toList : Multiset Lease) + others))
    (hpacket : packet.Whole ∧ (packet.info.payload.length ≠ 0 → packet.lease ≠ none)) :
    (c.writePacket packet).2.Owns file rest others := by
  unfold Copying.writePacket
  rw [h.readPayload hpacket]
  have hcall := h.setMux (h.mux.call (.packet packet.info)) (Muxing.call_file ..)
  generalize Muxing.call ⟨c.mux, c.blocks⟩ (.packet packet.info) = called at hcall
  have hbalanced : c.heap.counts.Balanced ((packet.lease.toList : Multiset Lease) +
      (c.demux.leases + others)) := by
    have hleases : c.heap.counts.Balanced (c.demux.leases +
        ((packet.lease.toList : Multiset Lease) + others)) := h.demux.leases
    rwa [add_left_comm] at hleases
  have hcounts : (payloadLeaseRelease c.heap packet.lease).counts =
      c.heap.counts.releaseAll packet.lease.toList :=
    payloadLeaseRelease_counts ..
  refine ⟨⟨hcall.demux.shaped, hcall.demux.blocks, ?_, ?_⟩, hcall.mux, hcall.filled, hcall.file⟩
  · change (payloadLeaseRelease c.heap packet.lease).counts.Balanced _
    rw [hcounts]
    exact hbalanced.releaseAll
  · change ∀ lease ∈ (payloadLeaseRelease c.heap packet.lease).counts.made,
      _ < (payloadLeaseRelease c.heap packet.lease).counts.made.length
    rw [hcounts, RefCounts.releaseAll_made]
    exact h.demux.numbered

/-- **The loop over the packets** keeps what is owned. -/
theorem heldCopyPackets_owns (h : c.Owns file rest others) (fuel : ℕ) :
    (heldCopyPackets fuel c).2.Owns file rest others := by
  induction fuel generalizing c with
  | zero => exact h
  | succ fuel ih =>
    unfold heldCopyPackets
    rw [h.touch_self]
    split_ifs with hend
    · exact h
    have hlt := Nat.lt_of_not_le hend
    have hroom : c.demux.packetCapacity ≠ 0 := by
      have hle : c.demux.packets.length ≤ c.demux.packetCapacity := h.demux.shaped.packets
      omega
    obtain ⟨p, hp⟩ : ∃ p, c.demux.packetTable = some p := h.demux.shaped.packetTable hroom
    have htouch : c.blocks.touch c.demux.packetTable = c.blocks := by
      rw [hp, h.touch (by simp [HeldDemux.owned, HeldDemux.tables, hp])]
    obtain ⟨hnext, hmoved⟩ := h.next hlt
    have hpacket := h.filled.packets _ (List.getElem_mem hlt)
    rw [← hmoved] at hpacket
    have hwritten := hnext.writePacket hpacket
    dsimp only
    rw [htouch]
    change (andThen (Copying.writePacket { c with demux := (c.demux.next packetRefInit).2 }
      (c.demux.next packetRefInit).1.dst)
      (heldCopyPackets fuel)).2.Owns file rest others
    generalize Copying.writePacket { c with demux := (c.demux.next packetRefInit).2 }
      (c.demux.next packetRefInit).1.dst = written at hwritten
    obtain ⟨status, c'⟩ := written
    cases status <;> first | exact ih hwritten | exact hwritten

/-- **Both loops** keep what is owned. -/
theorem heldCopyAll_owns (h : c.Owns file rest others) :
    (heldCopyAll c).2.Owns file rest others := by
  have hstreams := heldCopyStreams_owns h c.demux.streams.length 0
  unfold heldCopyAll
  generalize heldCopyStreams c.demux.streams.length 0 c = copied at hstreams
  obtain ⟨status, c'⟩ := copied
  cases status <;> first | exact heldCopyPackets_owns hstreams _ | exact hstreams

end

/-! ### Apart from the memory -/

/-- **The loop over the streams** makes the calls of `copyStreams`. -/
theorem heldCopyStreams_shows {c : Copying} {demux : Demux} (h : c.demux.Shows demux)
    (left index : ℕ) :
    Prod.map id (fun c : Copying => c.mux.mux) (heldCopyStreams left index c) =
      copyStreams demux left index c.mux.mux ∧
      (heldCopyStreams left index c).2.demux = c.demux := by
  induction left generalizing c index with
  | zero => exact ⟨rfl, rfl⟩
  | succ left ih =>
    unfold heldCopyStreams copyStreams HeldDemux.streamInfo demuxStreamInfo
    rw [h.streams]
    cases c.demux.streams[index]? with
    | none => exact ⟨rfl, rfl⟩
    | some stream =>
      dsimp only
      generalize c.demux.readConfig _ index stream = blocks
      have hcall := Muxing.call_shows ⟨c.mux, blocks⟩ (.stream stream)
      rw [show muxAddStream c.mux.mux stream = _ from hcall.symm]
      generalize Muxing.call ⟨c.mux, blocks⟩ (.stream stream) = called
      obtain ⟨status, u⟩ := called
      cases status <;> first
        | exact ih (c := { c with mux := u.held, blocks := u.blocks }) h (index + 1)
        | exact ⟨rfl, rfl⟩

theorem Copying.writePacket_shows (c : Copying) (packet : PacketRef) :
    Prod.map id (fun c : Copying => c.mux.mux) (c.writePacket packet) =
      muxWritePacket c.mux.mux packet.info ∧
      (c.writePacket packet).2.demux = c.demux :=
  ⟨Muxing.call_shows ⟨c.mux, readPayload c.blocks c.heap packet⟩ (.packet packet.info), rfl⟩

/-- **The loop over the packets** makes the calls of `copyPackets`. -/
theorem heldCopyPackets_shows {c : Copying} {demux : Demux} (h : c.demux.Shows demux) (fuel : ℕ) :
    Prod.map id (fun c : Copying => c.mux.mux) (heldCopyPackets fuel c) =
      copyPackets fuel demux c.mux.mux := by
  induction fuel generalizing c demux with
  | zero => rfl
  | succ fuel ih =>
    have hlength : demux.packets.length = c.demux.packets.length := by
      rw [h.packets, List.length_map]
    unfold heldCopyPackets copyPackets
    by_cases hend : c.demux.cursor ≥ c.demux.packets.length
    · rw [if_pos hend, show demuxNext demux = (.wouldBlock, .zero, demux)
        from if_pos (by rw [hlength, h.cursor]; exact hend)]
      rfl
    rw [if_neg hend]
    obtain ⟨hpull, hnext⟩ := h.next (Nat.lt_of_not_le hend) packetRefInit
    obtain ⟨-, hstop⟩ | ⟨packet, demux', -, hgo⟩ := demuxNext_cases demux
    · rw [demuxPull, hstop] at hpull
      simp at hpull
    have hpulled : demuxPull demux () = ((.ok, some packet), demux') := by rw [demuxPull, hgo]
    rw [hpulled] at hpull hnext
    obtain rfl : packet = (c.demux.next packetRefInit).1.dst.info := by simpa using hpull
    rw [hgo]
    dsimp only
    generalize hc : (⟨(c.demux.next packetRefInit).2, c.mux,
      (c.blocks.touch (some c.demux.self)).touch c.demux.packetTable,
        payloadLeaseRelease c.heap (c.demux.next packetRefInit).1.released⟩ : Copying) = c'
    have hmux : c'.mux = c.mux := by rw [← hc]
    have hdemux : c'.demux = (c.demux.next packetRefInit).2 := by rw [← hc]
    obtain ⟨hwritten, hkept⟩ := c'.writePacket_shows (c.demux.next packetRefInit).1.dst
    rw [← hmux, ← hwritten]
    rw [hdemux] at hkept
    generalize c'.writePacket (c.demux.next packetRefInit).1.dst = written at hkept
    obtain ⟨status, c''⟩ := written
    replace hkept : c''.demux = (c.demux.next packetRefInit).2 := hkept
    cases status <;> first
      | exact ih (hkept ▸ hnext)
      | rfl

/-- **Both loops** make the calls of `copyAll`. -/
theorem heldCopyAll_shows {c : Copying} {demux : Demux} (h : c.demux.Shows demux) :
    Prod.map id (fun c : Copying => c.mux.mux) (heldCopyAll c) = copyAll demux c.mux.mux := by
  have hlength : demux.packets.length = c.demux.packets.length := by rw [h.packets, List.length_map]
  obtain ⟨hstreams, hkept⟩ := heldCopyStreams_shows h c.demux.streams.length 0
  unfold heldCopyAll copyAll demuxStreamCount
  rw [h.streams, hlength, ← hstreams]
  generalize heldCopyStreams c.demux.streams.length 0 c = copied at hkept
  obtain ⟨status, c'⟩ := copied
  replace hkept : c'.demux = c.demux := hkept
  cases status with
  | ok =>
    rw [andThen_ok, ← hkept]
    exact heldCopyPackets_shows (hkept ▸ h) _
  | _ => rfl

end Tide
