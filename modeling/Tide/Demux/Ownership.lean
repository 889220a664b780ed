import Tide.Demux.Selection
import Tide.Format.Loop
import Tide.Leases
import Tide.Theory.Blocks

/-!
# A demux and the memory

`src/demux/demux.c` once more, with the blocks of memory that it allocates and frees: that of the
demux itself, its tables, the copies of the configurations, and the leases of its packets, which it
hands over to the caller and which live on when it is closed. A block that is freed twice, or
touched when it is not there, is a fault.

* `Demuxing.Owns` is what the callbacks keep, whatever the file is and whichever allocations succeed
  (`heldCallbacks_owns`), and what closing gives back (`Demuxing.Owns.close`).
* `session_owns`: in any session with a demux there is no fault, each lease counts its owners, and
  when all is closed and reset nothing is left.
* `session_answers`: apart from the memory it is the demux of `Tide.Demux`.
-/

namespace Tide

open Theory

/-! ### `demux.c` -/

/-- `struct tide_demux`, with the blocks that it points to: its tables and the copies of the
configurations. The packets are those of the slots below `packet_count`. -/
structure HeldDemux where
  self : ℕ
  error : Error
  streams : List StreamInfo
  streamTable : Option ℕ
  streamCapacity : ℕ
  configs : List (Option ℕ)
  configTable : Option ℕ
  packets : List PacketRef
  packetTable : Option ℕ
  packetCapacity : ℕ
  cursor : ℕ
  selectedTrack : UInt32

/-- A demux and the memory: the blocks, and the leases with the outcomes of the allocations to
come. -/
structure Demuxing where
  demux : HeldDemux
  blocks : Blocks
  heap : LeaseHeap

/-- Another outcome of an allocation is used. -/
def LeaseHeap.next (heap : LeaseHeap) : LeaseHeap := { heap with allocs := heap.allocs.tail }

/-- Room for one more stream: both tables are reallocated. -/
def Demuxing.growStreams (u : Demuxing) : Status × Demuxing :=
  if u.demux.streams.length = u.demux.streamCapacity then
    let next := if u.demux.streamCapacity = 0 then 8 else u.demux.streamCapacity * 2
    match u.blocks.realloc u.demux.streamTable u.heap.allocs.head with
    | (none, blocks) => (.resource, { u with blocks := blocks, heap := u.heap.next })
    | (some streamTable, blocks) =>
      match blocks.realloc u.demux.configTable u.heap.next.allocs.head with
      | (none, blocks) =>
        (.resource, { demux := { u.demux with streamTable := some streamTable }, blocks := blocks,
                      heap := u.heap.next.next })
      | (some configTable, blocks) =>
        (.ok,
          { demux := { u.demux with streamTable := some streamTable,
                                    configTable := some configTable, streamCapacity := next }
            blocks := blocks, heap := u.heap.next.next })
  else (.ok, u)

/-- Storing a stream and the block of its configuration behind the others. -/
def Demuxing.storeStream (u : Demuxing) (stream : StreamInfo) (config : Option ℕ) : Demuxing :=
  { u with
    demux := { u.demux with streams := u.demux.streams ++ [stream],
                            configs := u.demux.configs ++ [config] }
    blocks := (u.blocks.touch u.demux.streamTable).touch u.demux.configTable }

/-- `tide_demux_add_stream`. -/
def heldAddStream (u : Demuxing) (stream : StreamInfo) : Status × Demuxing :=
  andThen u.growStreams fun u =>
  if stream.config.length ≠ 0 then
    match u.blocks.malloc u.heap.allocs.head with
    | (none, blocks) => (.resource, { u with blocks := blocks, heap := u.heap.next })
    | (some config, blocks) =>
        (.ok, Demuxing.storeStream { u with blocks := blocks, heap := u.heap.next } stream
          (some config))
  else (.ok, u.storeStream stream none)

/-- Room for one more packet. The slots that are new hold no lease. -/
def Demuxing.growPackets (u : Demuxing) : Status × Demuxing :=
  if u.demux.packets.length = u.demux.packetCapacity then
    let next := if u.demux.packetCapacity = 0 then 16 else u.demux.packetCapacity * 2
    match u.blocks.realloc u.demux.packetTable u.heap.allocs.head with
    | (none, blocks) => (.resource, { u with blocks := blocks, heap := u.heap.next })
    | (some packetTable, blocks) =>
      (.ok, { demux := { u.demux with packetTable := some packetTable, packetCapacity := next },
              blocks := blocks, heap := u.heap.next })
  else (.ok, u)

/-- `tide_demux_add_packet`. -/
def heldAddPacket (u : Demuxing) (packet : PacketInfo) : Status × Demuxing :=
  if u.demux.selectedTrack ≠ 0 ∧ packet.trackId ≠ u.demux.selectedTrack then (.ok, u)
  else
    andThen u.growPackets fun u =>
    let created := u.heap.payloadLeaseCreateCopy (some packet.payload) packet.payload.length
    let u := { u with heap := created.2 }
    if created.1 = none ∧ packet.payload.length ≠ 0 then (.resource, u)
    else
      (.ok,
        { u with
          demux := { u.demux with packets := u.demux.packets ++ [storeLease packet created.1] }
          blocks := u.blocks.touch u.demux.packetTable })

/-- The callbacks of `tide_demux_open`. -/
def heldCallbacks : Callbacks Demuxing where
  onRecord := none
  onStream := some heldAddStream
  onPacket := some heldAddPacket
  onError := some fun u error => { u with demux := { u.demux with error := error } }

/-- All slots, also those that hold no packet yet. -/
def HeldDemux.slots (demux : HeldDemux) : List PacketRef :=
  demux.packets ++ List.replicate (demux.packetCapacity - demux.packets.length) packetRefInit

/-- `tide_demux_close`: the packets are reset and all blocks are freed. -/
def Demuxing.close (u : Demuxing) : Blocks × LeaseHeap :=
  let heap := u.demux.slots.foldl
    (fun heap packet => payloadLeaseRelease heap (packetRefReset packet).1) u.heap
  let blocks := u.demux.slots.foldl (fun blocks _ => blocks.touch u.demux.packetTable)
    (u.blocks.touch (some u.demux.self))
  let blocks := u.demux.configs.foldl
    (fun blocks config => (blocks.touch u.demux.configTable).free config) blocks
  ((((blocks.free u.demux.configTable).free u.demux.streamTable).free u.demux.packetTable).free
    (some u.demux.self), heap)

/-- The demux before it is opened, in the block `self`. -/
def HeldDemux.start (options : Option DemuxOptions) (self : ℕ) : HeldDemux where
  self := self
  error := errorClear
  streams := []
  streamTable := none
  streamCapacity := 0
  configs := []
  configTable := none
  packets := []
  packetTable := none
  packetCapacity := 0
  cursor := 0
  selectedTrack := options.elim 0 DemuxOptions.selectedTrack

/-- What `tide_demux_open` returns, with the memory. -/
structure HeldOpen where
  status : Status
  demux : Option HeldDemux
  blocks : Blocks
  heap : LeaseHeap

/-- `tide_demux_open`; `room` is the outcome of the allocation of the demux itself. A demux that
is not handed out is closed. -/
def heldOpen (data : Bytes) (options : Option DemuxOptions) (trackAllocs : Stream' Bool)
    (room : Bool) (blocks : Blocks) (heap : LeaseHeap) : HeldOpen :=
  match blocks.malloc room with
  | (none, blocks) => ⟨.resource, none, blocks, heap⟩
  | (some self, blocks) =>
    let r := parseTideBytes data true (some (demuxLimits options)) heldCallbacks
      ⟨HeldDemux.start options self, blocks, heap⟩ trackAllocs
    let u := { r.2.user with demux := { r.2.user.demux with error := r.2.error } }
    if r.1 ≠ .ok ∧ ¬ (r.1 = .partialTail ∧ options.any (!·.strict)) then
      ⟨r.1, none, u.close.1, u.close.2⟩
    else ⟨r.1, some u.demux, u.blocks, u.heap⟩

/-! ### What a demux owns -/

/-- The tables are there and have room for what is in them. -/
structure HeldDemux.Shaped (demux : HeldDemux) : Prop where
  streams : demux.streams.length ≤ demux.streamCapacity
  configs : demux.configs.length = demux.streams.length
  packets : demux.packets.length ≤ demux.packetCapacity
  streamTable : demux.streamCapacity ≠ 0 → ∃ p q, demux.streamTable = some p ∧
    demux.configTable = some q
  packetTable : demux.packetCapacity ≠ 0 → ∃ p, demux.packetTable = some p

/-- The tables. -/
def HeldDemux.tables (demux : HeldDemux) : Multiset ℕ :=
  demux.streamTable.toList + (demux.configTable.toList + demux.packetTable.toList)

/-- The blocks of a demux. -/
def HeldDemux.owned (demux : HeldDemux) : Multiset ℕ :=
  demux.self ::ₘ (demux.tables + demux.configs.filterMap id)

/-- The leases that a demux holds for its packets. -/
def HeldDemux.leases (demux : HeldDemux) : Multiset Lease := demux.packets.filterMap PacketRef.lease

/-- **What a demux owns**: its blocks are live, beside those of `rest`, and its leases count it as
an owner, beside the others. -/
structure Demuxing.Owns (u : Demuxing) (rest : Multiset ℕ) (others : Multiset Lease) : Prop where
  shaped : u.demux.Shaped
  blocks : u.blocks.Owned (u.demux.owned + rest)
  leases : u.heap.counts.Balanced (u.demux.leases + others)
  numbered : ∀ lease ∈ u.heap.counts.made, lease.block < u.heap.counts.made.length

section

variable {u : Demuxing} {rest : Multiset ℕ} {others : Multiset Lease}

theorem Demuxing.Owns.next (h : u.Owns rest others) :
    Demuxing.Owns { u with heap := u.heap.next } rest others :=
  ⟨h.shaped, h.blocks, h.leases, h.numbered⟩

/-- Making room for a stream keeps what is owned, and there is room. -/
theorem Demuxing.Owns.growStreams (h : u.Owns rest others) :
    u.growStreams.2.Owns rest others ∧
      (u.growStreams.1 = .ok →
        u.growStreams.2.demux.streams.length < u.growStreams.2.demux.streamCapacity) := by
  obtain ⟨hshaped, hblocks, hleases, hnumbered⟩ := h
  unfold Demuxing.growStreams
  by_cases hfull : u.demux.streams.length = u.demux.streamCapacity
  swap
  · rw [if_neg hfull]
    exact ⟨⟨hshaped, hblocks, hleases, hnumbered⟩,
      fun _ => Nat.lt_of_le_of_ne hshaped.streams hfull⟩
  rw [if_pos hfull]
  dsimp only
  have hstreams : u.blocks.Owned ((u.demux.streamTable.toList : Multiset ℕ) +
      (u.demux.self ::ₘ ((u.demux.configTable.toList + u.demux.packetTable.toList : Multiset ℕ) +
        u.demux.configs.filterMap id) + rest)) := by
    refine hblocks.congr ?_
    simp only [HeldDemux.owned, HeldDemux.tables, ← Multiset.singleton_add]
    abel
  obtain ⟨hnone, -⟩ | ⟨p, blocks, hrealloc, howned, -⟩ := hstreams.realloc u.heap.allocs.head
  · rw [hnone]
    exact ⟨⟨hshaped, hblocks, hleases, hnumbered⟩, by simp⟩
  rw [hrealloc]
  dsimp only
  have hconfigs : blocks.Owned ((u.demux.configTable.toList : Multiset ℕ) +
      (u.demux.self ::ₘ (({p} + u.demux.packetTable.toList : Multiset ℕ) +
        u.demux.configs.filterMap id) + rest)) := by
    refine howned.congr ?_
    simp only [← Multiset.singleton_add]
    abel
  obtain ⟨hnone, -⟩ | ⟨q, blocks', hrealloc', howned', -⟩ :=
    hconfigs.realloc u.heap.next.allocs.head
  · -- the table of the streams is already the new one
    rw [hnone]
    refine ⟨⟨⟨hshaped.streams, hshaped.configs, hshaped.packets, fun hne => ?_,
      hshaped.packetTable⟩, howned.congr ?_, hleases, hnumbered⟩, by simp⟩
    · obtain ⟨-, q, -, hq⟩ := hshaped.streamTable hne
      exact ⟨p, q, rfl, hq⟩
    · simp only [HeldDemux.owned, HeldDemux.tables, Option.toList_some, Multiset.coe_singleton,
        ← Multiset.singleton_add]
      abel
  rw [hrealloc']
  dsimp only
  have hroom : u.demux.streams.length < if u.demux.streamCapacity = 0 then 8
      else u.demux.streamCapacity * 2 := by
    split <;> omega
  refine ⟨⟨⟨hroom.le, hshaped.configs, hshaped.packets, fun _ => ⟨p, q, rfl, rfl⟩,
    hshaped.packetTable⟩, howned'.congr ?_, hleases, hnumbered⟩, fun _ => hroom⟩
  simp only [HeldDemux.owned, HeldDemux.tables, Option.toList_some, Multiset.coe_singleton,
    ← Multiset.singleton_add]
  abel

/-- Making room for a packet keeps what is owned, and there is room. -/
theorem Demuxing.Owns.growPackets (h : u.Owns rest others) :
    u.growPackets.2.Owns rest others ∧
      (u.growPackets.1 = .ok →
        u.growPackets.2.demux.packets.length < u.growPackets.2.demux.packetCapacity) := by
  obtain ⟨hshaped, hblocks, hleases, hnumbered⟩ := h
  unfold Demuxing.growPackets
  by_cases hfull : u.demux.packets.length = u.demux.packetCapacity
  swap
  · rw [if_neg hfull]
    exact ⟨⟨hshaped, hblocks, hleases, hnumbered⟩,
      fun _ => Nat.lt_of_le_of_ne hshaped.packets hfull⟩
  rw [if_pos hfull]
  dsimp only
  have hpackets : u.blocks.Owned ((u.demux.packetTable.toList : Multiset ℕ) +
      (u.demux.self ::ₘ ((u.demux.streamTable.toList + u.demux.configTable.toList : Multiset ℕ) +
        u.demux.configs.filterMap id) + rest)) := by
    refine hblocks.congr ?_
    simp only [HeldDemux.owned, HeldDemux.tables, ← Multiset.singleton_add]
    abel
  obtain ⟨hnone, -⟩ | ⟨p, blocks, hrealloc, howned, -⟩ := hpackets.realloc u.heap.allocs.head
  · rw [hnone]
    exact ⟨⟨hshaped, hblocks, hleases, hnumbered⟩, by simp⟩
  rw [hrealloc]
  dsimp only
  have hroom : u.demux.packets.length < if u.demux.packetCapacity = 0 then 16
      else u.demux.packetCapacity * 2 := by
    split <;> omega
  refine ⟨⟨⟨hshaped.streams, hshaped.configs, hroom.le, hshaped.streamTable, fun _ => ⟨p, rfl⟩⟩,
    howned.congr ?_, hleases, hnumbered⟩, fun _ => hroom⟩
  simp only [HeldDemux.owned, HeldDemux.tables, Option.toList_some, Multiset.coe_singleton,
    ← Multiset.singleton_add]
  abel

/-- The tables of a demux may be touched. -/
theorem Demuxing.Owns.touch (h : u.Owns rest others) {p : ℕ} (hp : p ∈ u.demux.tables) :
    u.blocks.touch (some p) = u.blocks := by
  apply h.blocks.touch
  simp [HeldDemux.owned, hp]

/-- A stream is stored where there is room, with the block of its configuration. -/
theorem Demuxing.Owns.storeStream (h : u.Owns ((rest : Multiset ℕ)) others)
    (hroom : u.demux.streams.length < u.demux.streamCapacity) (stream : StreamInfo)
    {config : Option ℕ} {rest' : Multiset ℕ} (hrest : rest = config.toList + rest') :
    (u.storeStream stream config).Owns rest' others := by
  obtain ⟨p, q, hp, hq⟩ := h.shaped.streamTable (by omega)
  have htouch : (u.blocks.touch u.demux.streamTable).touch u.demux.configTable = u.blocks := by
    rw [hp, h.touch (by simp [HeldDemux.tables, hp]), hq, h.touch (by simp [HeldDemux.tables, hq])]
  have hshaped := h.shaped
  refine ⟨⟨?_, ?_, hshaped.packets, hshaped.streamTable, hshaped.packetTable⟩, ?_,
    h.leases, h.numbered⟩
  · simp only [Demuxing.storeStream, List.length_append, List.length_singleton]
    exact hroom
  · simp [Demuxing.storeStream, hshaped.configs]
  · rw [show (u.storeStream stream config).blocks = _ from htouch]
    refine h.blocks.congr ?_
    rw [hrest]
    simp only [Demuxing.storeStream, HeldDemux.owned, HeldDemux.tables, List.filterMap_append,
      ← Multiset.coe_add, ← Multiset.singleton_add]
    have hone : (([config].filterMap id : List ℕ) : Multiset ℕ) = config.toList := by
      cases config <;> rfl
    rw [hone]
    abel

theorem heldAddStream_owns (h : u.Owns rest others) (stream : StreamInfo) :
    (heldAddStream u stream).2.Owns rest others := by
  obtain ⟨hgrown, hroom⟩ := h.growStreams
  unfold heldAddStream
  generalize u.growStreams = r at hgrown hroom
  rcases r with ⟨status, grown⟩
  by_cases hok : status = .ok
  swap
  · rw [andThen_of_ne (show (status, grown).1 ≠ .ok from hok)]
    exact hgrown
  subst hok
  rw [andThen_ok]
  split_ifs
  · obtain ⟨hnone, -⟩ | ⟨p, blocks, hmalloc, howned, -⟩ :=
      hgrown.blocks.malloc grown.heap.allocs.head
    · rw [hnone]
      exact hgrown.next
    · rw [hmalloc]
      have hnew : Demuxing.Owns { grown with blocks := blocks, heap := grown.heap.next }
          (p ::ₘ rest) others :=
        ⟨hgrown.shaped, howned.congr (Multiset.add_cons ..).symm, hgrown.leases, hgrown.numbered⟩
      exact hnew.storeStream (hroom rfl) stream rfl
  · exact hgrown.storeStream (hroom rfl) stream (by simp)

/-- A packet is stored where there is room, with its lease. -/
theorem heldAddPacket_owns (h : u.Owns rest others) (packet : PacketInfo) :
    (heldAddPacket u packet).2.Owns rest others := by
  unfold heldAddPacket
  split_ifs
  · exact h
  obtain ⟨hgrown, hroom⟩ := h.growPackets
  generalize u.growPackets = r at hgrown hroom
  rcases r with ⟨status, grown⟩
  by_cases hok : status = .ok
  swap
  · rw [andThen_of_ne (show (status, grown).1 ≠ .ok from hok)]
    exact hgrown
  subst hok
  rw [andThen_ok]
  dsimp only
  replace hgrown : grown.Owns rest others := hgrown
  replace hroom : grown.demux.packets.length < grown.demux.packetCapacity := hroom rfl
  have hshaped := hgrown.shaped
  obtain ⟨p, hp⟩ := hshaped.packetTable (by omega)
  have htouch : grown.blocks.touch grown.demux.packetTable = grown.blocks := by
    rw [hp, hgrown.touch (by simp [HeldDemux.tables, hp])]
  have hstored : ∀ lease,
      HeldDemux.Shaped { grown.demux with packets := grown.demux.packets ++
                                            [storeLease packet lease] } := fun lease =>
    ⟨hshaped.streams, hshaped.configs,
      by simpa [Nat.succ_le_iff] using hroom, hshaped.streamTable, hshaped.packetTable⟩
  have hleases : ∀ lease,
      HeldDemux.leases { grown.demux with packets := grown.demux.packets ++
                                            [storeLease packet lease] } = grown.demux.leases +
                                              lease.toList := by
    intro lease
    simp only [HeldDemux.leases, List.filterMap_append, ← Multiset.coe_add]
    cases lease <;> rfl
  obtain ⟨hnone, hcounts⟩ | ⟨lease, hsome, hblock, hcounts⟩ :=
    grown.heap.payloadLeaseCreateCopy_cases (some packet.payload) packet.payload.length
  · rw [hnone]
    split_ifs
    · exact ⟨hshaped, hgrown.blocks, hcounts ▸ hgrown.leases, hcounts ▸ hgrown.numbered⟩
    · refine ⟨hstored none, ?_, ?_, hcounts ▸ hgrown.numbered⟩
      · dsimp only
        rw [htouch]
        exact hgrown.blocks
      · dsimp only
        rw [hcounts, hleases]
        simpa using hgrown.leases
  · rw [hsome]
    rw [if_neg (by simp)]
    refine ⟨hstored _, ?_, ?_, ?_⟩
    · dsimp only
      rw [htouch]
      exact hgrown.blocks
    · dsimp only
      rw [hcounts, hleases]
      have hnew : lease ∉ grown.heap.counts.made := fun hmem =>
        absurd (hgrown.numbered lease hmem) (by omega)
      have hmake := hgrown.leases.make hnew
      rwa [Option.toList_some, Multiset.coe_singleton, add_assoc, add_left_comm,
        Multiset.singleton_add]
    · dsimp only
      rw [hcounts]
      intro other hother
      simp only [RefCounts.make, List.mem_append, List.mem_singleton, List.length_append,
        List.length_singleton] at hother ⊢
      rcases hother with hother | rfl
      · exact Nat.lt_succ_of_lt (hgrown.numbered other hother)
      · omega

/-- **A callback keeps what is owned**, whatever it is told and whichever allocations succeed. -/
theorem heldCallbacks_owns (h : u.Owns rest others) (event : Event) :
    (heldCallbacks.call u event).2.Owns rest others := by
  cases event with
  | record event => exact h
  | stream stream => exact heldAddStream_owns h stream
  | packet packet => exact heldAddPacket_owns h packet

/-! ### Closing and opening -/

/-- Only the slots with packets hold leases. -/
theorem HeldDemux.slots_leases (demux : HeldDemux) :
    ((demux.slots.filterMap PacketRef.lease : List Lease) : Multiset Lease) = demux.leases := by
  have hrest : (List.replicate (demux.packetCapacity - demux.packets.length)
      packetRefInit).filterMap PacketRef.lease = [] := by
    rw [List.filterMap_eq_nil_iff]
    intro packet hpacket
    rw [List.eq_of_mem_replicate hpacket]
    rfl
  rw [HeldDemux.slots, List.filterMap_append, hrest, List.append_nil, HeldDemux.leases]

/-- **Closing gives back all that is owned.** -/
theorem Demuxing.Owns.close (h : u.Owns rest others) :
    u.close.1.Owned rest ∧ u.close.2.counts.Balanced others ∧
      u.close.2.counts.made = u.heap.counts.made := by
  obtain ⟨hshaped, hblocks, hleases, -⟩ := h
  have hcounts : u.close.2.counts = u.heap.counts.releaseAll
      (u.demux.slots.filterMap PacketRef.lease) := by
    have hfold := foldl_release_counts u.heap (u.demux.slots.map PacketRef.lease)
    rw [List.foldl_map, List.filterMap_map] at hfold
    exact hfold
  have hslots : u.demux.slots.foldl (fun blocks _ => blocks.touch u.demux.packetTable)
      (u.blocks.touch (some u.demux.self)) = u.blocks := by
    rw [hblocks.touch (by simp [HeldDemux.owned])]
    have hlength : u.demux.slots.length = u.demux.packetCapacity := by
      have hle := hshaped.packets
      rw [HeldDemux.slots, List.length_append, List.length_replicate]
      omega
    generalize u.demux.slots = slots at hlength
    cases slots with
    | nil => rfl
    | cons slot slots =>
      obtain ⟨p, hp⟩ := hshaped.packetTable (by rw [← hlength]; simp)
      have htouch : u.blocks.touch u.demux.packetTable = u.blocks := by
        rw [hp, hblocks.touch (by simp [HeldDemux.owned, HeldDemux.tables, hp])]
      generalize slot :: slots = slots
      induction slots with
      | nil => rfl
      | cons slot slots ih => rw [List.foldl_cons, htouch, ih]
  have hconfigs : u.blocks.Owned ((u.demux.configs.filterMap id : Multiset ℕ) +
      (u.demux.self ::ₘ (u.demux.tables + rest))) := by
    refine hblocks.congr ?_
    simp only [HeldDemux.owned, ← Multiset.singleton_add]
    abel
  have htable : u.demux.configs ≠ [] → ∃ q ∈ u.demux.self ::ₘ (u.demux.tables + rest),
      u.demux.configTable = some q := by
    intro hne
    have hlength := List.length_pos_of_ne_nil hne
    rw [hshaped.configs] at hlength
    have hle := hshaped.streams
    obtain ⟨p, q, -, hq⟩ := hshaped.streamTable (by omega)
    exact ⟨q, by simp [HeldDemux.tables, hq], hq⟩
  have hfreed := hconfigs.freeAll htable
  refine ⟨?_, ?_, ?_⟩
  · unfold Demuxing.close
    dsimp only
    rw [hslots]
    refine Blocks.Owned.free
      (Blocks.Owned.free (Blocks.Owned.free (Blocks.Owned.free (hfreed.congr ?_))))
    simp only [HeldDemux.tables, Option.toList_some, Multiset.coe_singleton,
      ← Multiset.singleton_add]
    abel
  · rw [hcounts]
    apply RefCounts.Balanced.releaseAll
    rwa [u.demux.slots_leases]
  · rw [hcounts, RefCounts.releaseAll_made]

end

section

variable {blocks : Blocks} {heap : LeaseHeap} {rest : Multiset ℕ} {others : Multiset Lease}

/-- **Opening** leaves a demux that owns its blocks, or nothing. -/
theorem heldOpen_owns (hblocks : blocks.Owned rest) (hleases : heap.counts.Balanced others)
    (hnumbered : ∀ lease ∈ heap.counts.made, lease.block < heap.counts.made.length) (data : Bytes)
    (options : Option DemuxOptions) (trackAllocs : Stream' Bool) (room : Bool) :
    let r := heldOpen data options trackAllocs room blocks heap
    match r.demux with
    | some demux => Demuxing.Owns ⟨demux, r.blocks, r.heap⟩ rest others
    | none => r.blocks.Owned rest ∧ r.heap.counts.Balanced others ∧ ∀ lease ∈ r.heap.counts.made,
        lease.block < r.heap.counts.made.length := by
  unfold heldOpen
  obtain ⟨hnone, -⟩ | ⟨self, blocks', hmalloc, howned, -⟩ := hblocks.malloc room
  · rw [hnone]
    exact ⟨hblocks, hleases, hnumbered⟩
  rw [hmalloc]
  dsimp only
  have hstart : Demuxing.Owns ⟨HeldDemux.start options self, blocks', heap⟩ rest others := by
    refine ⟨⟨Nat.le_refl _, rfl, Nat.le_refl _, fun h => absurd rfl h, fun h => absurd rfl h⟩,
      howned.congr ?_, ?_, hnumbered⟩
    · simp [HeldDemux.start, HeldDemux.owned, HeldDemux.tables]
    · simpa [HeldDemux.start, HeldDemux.leases] using hleases
  have hparse := parseTideBytes_user (J := fun u : Demuxing => u.Owns rest others) (fun u event h =>
    heldCallbacks_owns h event) hstart data true (some (demuxLimits options)) trackAllocs
  generalize parseTideBytes data true (some (demuxLimits options)) heldCallbacks
    ⟨HeldDemux.start options self, blocks', heap⟩ trackAllocs = r at hparse
  have hend : Demuxing.Owns { r.2.user with demux := { r.2.user.demux with error := r.2.error } }
      rest others :=
    ⟨⟨hparse.shaped.streams, hparse.shaped.configs, hparse.shaped.packets,
      hparse.shaped.streamTable, hparse.shaped.packetTable⟩, hparse.blocks, hparse.leases,
        hparse.numbered⟩
  split_ifs
  · obtain ⟨h1, h2, h3⟩ := hend.close
    refine ⟨h1, h2, ?_⟩
    rw [h3]
    exact hend.numbered
  · exact hend

end

/-! ### A session -/

/-- A caller with a demux, as long as it is open, with its packets and with what it has retained. -/
structure DemuxSession (ι : Type) where
  demux : Option HeldDemux
  blocks : Blocks
  heap : LeaseHeap
  refs : ι → PacketRef
  retained : List Lease

/-- What the caller may do. -/
inductive DemuxCall (ι : Type) where
  | next (out : ι)
  | reset (packet : ι)
  | move (dst src : ι)
  | retain (lease : Lease)
  | release (lease : Lease)
  | close

variable {ι : Type}

/-- `tide_demux_next` moves the packet of the slot at the cursor to one of the caller's. -/
def HeldDemux.next (demux : HeldDemux) (out : PacketRef) : Moved × HeldDemux :=
  let moved := packetRefMove out (demux.packets.getD demux.cursor packetRefInit)
  (moved, { demux with packets := demux.packets.set demux.cursor moved.src,
                       cursor := demux.cursor + 1 })

/-- Calling: the status, and the packet that is moved out. The caller forgets a demux that it has
closed, and calls with a null pointer from then on. -/
def DemuxSession.call [DecidableEq ι] (s : DemuxSession ι) :
    DemuxCall ι → (Status × Option PacketInfo) × DemuxSession ι
  | .next out =>
    match s.demux with
    | none => ((.invalidArgument, none), s)
    | some demux =>
      if demux.cursor ≥ demux.packets.length then
        ((.wouldBlock, none), { s with blocks := s.blocks.touch (some demux.self) })
      else
        let moved := demux.next (s.refs out)
        ((.ok, some moved.1.dst.info),
          { s with
            demux := some moved.2
            blocks := (s.blocks.touch (some demux.self)).touch demux.packetTable
            heap := payloadLeaseRelease s.heap moved.1.released
            refs := Function.update s.refs out moved.1.dst })
  | .reset packet =>
    let reset := packetRefReset (s.refs packet)
    ((.ok, none), { s with heap := payloadLeaseRelease s.heap reset.1,
                           refs := Function.update s.refs packet reset.2 })
  | .move dst src =>
    if dst = src then ((.invalidArgument, none), s)
    else
      let moved := packetRefMove (s.refs dst) (s.refs src)
      ((.ok, none),
        { s with
          heap := payloadLeaseRelease s.heap moved.released
          refs := Function.update (Function.update s.refs dst moved.dst) src moved.src })
  | .retain lease =>
      ((.ok, none), { s with heap := payloadLeaseRetain s.heap (some lease),
                             retained := lease :: s.retained })
  | .release lease =>
      ((.ok, none), { s with heap := payloadLeaseRelease s.heap (some lease),
                             retained := s.retained.erase lease })
  | .close =>
    match s.demux with
    | none => ((.ok, none), s)
    | some demux =>
      let closed := Demuxing.close ⟨demux, s.blocks, s.heap⟩
      ((.ok, none), { s with demux := none, blocks := closed.1, heap := closed.2 })

/-- A session begins: the packets are initialised, and the demux is opened. -/
def DemuxSession.opened (ι : Type) (data : Bytes) (options : Option DemuxOptions)
    (trackAllocs : Stream' Bool) (room : Bool) (allocs : Stream' Bool) : Status × DemuxSession ι :=
  let r := heldOpen data options trackAllocs room .empty ⟨.empty, 1, allocs⟩
  (r.status, ⟨r.demux, r.blocks, r.heap, fun _ => packetRefInit, []⟩)

section

variable [Fintype ι]

/-- The leases that the caller owns, in its packets or because it has retained them. -/
def DemuxSession.callers (s : DemuxSession ι) : Multiset Lease :=
  ∑ i, ((s.refs i).lease.toList : Multiset Lease) + s.retained

/-- All owners of leases. -/
def DemuxSession.owners (s : DemuxSession ι) : Multiset Lease :=
  s.demux.elim 0 HeldDemux.leases + s.callers

/-- **All is accounted for**: there was no fault, the live blocks are those of the demux, the
leases that somebody owns are live and count their owners, and if the demux is closed and the
caller owns nothing, every block and every lease was freed, the leases once. -/
structure DemuxSession.Sound (s : DemuxSession ι) : Prop where
  faults : s.blocks.faults = 0
  live : (s.blocks.live : Multiset ℕ) = s.demux.elim 0 HeldDemux.owned
  owned : ∀ lease ∈ s.owners, s.heap.counts.frees lease = 0 ∧
    (s.heap.counts.count lease).toNat = s.owners.count lease
  freed : s.owners = 0 → ∀ lease ∈ s.heap.counts.made, s.heap.counts.frees lease = 1

/-- Only a lease that somebody owns is retained, not beyond its counter, and only what was
retained is released. -/
def DemuxCall.Legal (s : DemuxSession ι) : DemuxCall ι → Prop
  | .retain lease => lease ∈ s.owners ∧ (s.heap.counts.count lease).toNat + 1 < 2 ^ 32
  | .release lease => lease ∈ s.retained
  | _ => True

/-- The invariant of a session. -/
def DemuxSession.Kept (s : DemuxSession ι) : Prop :=
  match s.demux with
  | some demux => Demuxing.Owns ⟨demux, s.blocks, s.heap⟩ 0 s.callers
  | none => s.blocks.Owned 0 ∧ s.heap.counts.Balanced s.callers ∧
      ∀ lease ∈ s.heap.counts.made, lease.block < s.heap.counts.made.length

/-- In parts that do not depend on whether the demux is open. -/
theorem DemuxSession.kept_iff (s : DemuxSession ι) :
    s.Kept ↔ (∀ demux, s.demux = some demux → demux.Shaped) ∧
      s.blocks.Owned (s.demux.elim 0 HeldDemux.owned) ∧
      s.heap.counts.Balanced s.owners ∧ ∀ lease ∈ s.heap.counts.made,
        lease.block < s.heap.counts.made.length := by
  unfold DemuxSession.Kept DemuxSession.owners
  cases s.demux with
  | none => simp
  | some demux =>
    constructor
    · rintro ⟨hshaped, hblocks, hleases, hnumbered⟩
      exact ⟨by simpa using hshaped, hblocks.congr (by simp), hleases, hnumbered⟩
    · rintro ⟨hshaped, hblocks, hleases, hnumbered⟩
      exact ⟨hshaped demux rfl, hblocks.congr (by simp), hleases, hnumbered⟩

theorem DemuxSession.Kept.sound {s : DemuxSession ι} (h : s.Kept) : s.Sound := by
  obtain ⟨-, hblocks, hleases, -⟩ := s.kept_iff.mp h
  refine ⟨hblocks.faults, hblocks.live, fun lease hlease => ⟨hleases.live hlease,
    hleases.count lease hlease⟩, ?_⟩
  intro hnone lease hmade
  rw [hleases.frees lease hmade, if_neg (by simp [hnone])]

/-! ### Each call keeps the accounts -/

/-- A slot that is emptied. -/
theorem filterMap_set {α β : Type} (f : α → Option β) {l : List α} {k : ℕ} {a b : α}
    (ha : l[k]? = some a) (hb : f b = none) :
    ((l.filterMap f : List β) : Multiset β) = (f a).toList +
      ((l.set k b).filterMap f : List β) := by
  induction l generalizing k with
  | nil => simp at ha
  | cons c l ih =>
    cases k with
    | zero =>
      obtain rfl : c = a := by simpa using ha
      rw [List.set_cons_zero, List.filterMap_cons, List.filterMap_cons, hb]
      cases f c <;> simp
    | succ k =>
      have hrest := ih (show l[k]? = some a by simpa using ha)
      rw [List.set_cons_succ, List.filterMap_cons, List.filterMap_cons]
      cases f c with
      | none => exact hrest
      | some d =>
        rw [← Multiset.cons_coe, ← Multiset.cons_coe, hrest]
        exact (Multiset.add_cons ..).symm

/-- The slot at the cursor hands its lease over. -/
theorem HeldDemux.next_leases {demux : HeldDemux} (hlt : demux.cursor < demux.packets.length)
    (out : PacketRef) :
    demux.leases = ((demux.next out).1.dst.lease.toList : Multiset Lease) +
      (demux.next out).2.leases := by
  have hslot : demux.packets[demux.cursor]? =
      some (demux.packets.getD demux.cursor packetRefInit) := by
    rw [List.getElem?_eq_getElem hlt]
    simp [List.getD, List.getElem?_eq_getElem hlt]
  have hleases := filterMap_set PacketRef.lease hslot (show packetRefInit.lease = none from rfl)
  rw [show (demux.next out).1.dst.lease = (demux.packets.getD demux.cursor packetRefInit).lease
    from packetRefMove_lease ..]
  exact hleases

theorem HeldDemux.Shaped.next {demux : HeldDemux} (h : demux.Shaped) (out : PacketRef) :
    (demux.next out).2.Shaped :=
  ⟨h.streams, h.configs, by simpa [HeldDemux.next] using h.packets, h.streamTable, h.packetTable⟩

/-- What is released was owned. -/
theorem DemuxSession.Kept.released {s s' : DemuxSession ι} (h : s.Kept) (released : Option Lease)
    (hshaped : ∀ demux, s'.demux = some demux → demux.Shaped)
    (hblocks : s'.blocks.Owned (s'.demux.elim 0 HeldDemux.owned))
    (hheap : s'.heap = payloadLeaseRelease s.heap released)
    (howners : s.owners = (released.toList : Multiset Lease) + s'.owners) : s'.Kept := by
  obtain ⟨-, -, hleases, hnumbered⟩ := s.kept_iff.mp h
  have hcounts : s'.heap.counts = s.heap.counts.releaseAll released.toList := by
    rw [hheap, payloadLeaseRelease_counts]
  rw [howners] at hleases
  refine s'.kept_iff.mpr ⟨hshaped, hblocks, ?_, ?_⟩
  · rw [hcounts]
    exact hleases.releaseAll
  · rw [hcounts, RefCounts.releaseAll_made]
    exact hnumbered

section

variable [DecidableEq ι] {s : DemuxSession ι}

/-- What the caller owns when one of its packets holds something else. -/
theorem callers_update (refs : ι → PacketRef) (retained : Multiset Lease) (i : ι)
    (packet : PacketRef) :
    ∑ j, ((Function.update refs i packet j).lease.toList : Multiset Lease) + retained +
      (refs i).lease.toList =
      ∑ j, ((refs j).lease.toList : Multiset Lease) + retained + packet.lease.toList := by
  have hsum := sum_update_add refs (fun packet => (packet.lease.toList : Multiset Lease)) i packet
  rw [add_right_comm, hsum, add_right_comm]

/-- **Each call keeps the accounts.** -/
theorem DemuxSession.Kept.call (h : s.Kept) {c : DemuxCall ι}
    (hc : c.Legal s) : (s.call c).2.Kept := by
  obtain ⟨hshaped, hblocks, hleases, hnumbered⟩ := s.kept_iff.mp h
  cases c with
  | next out =>
    cases hdemux : s.demux with
    | none =>
      rw [show (s.call (.next out)).2 = s by simp only [DemuxSession.call, hdemux]]
      exact h
    | some demux =>
      rw [hdemux] at hblocks
      replace hblocks : s.blocks.Owned demux.owned := hblocks
      have hself : s.blocks.touch (some demux.self) = s.blocks :=
        hblocks.touch (by simp [HeldDemux.owned])
      simp only [DemuxSession.call, hdemux]
      rw [hself]
      split_ifs with hend
      · rw [← hdemux]
        exact h
      have hlt : demux.cursor < demux.packets.length := Nat.lt_of_not_le hend
      obtain ⟨p, hp⟩ := (hshaped demux hdemux).packetTable
        (by have := (hshaped demux hdemux).packets; omega)
      have htable : s.blocks.touch demux.packetTable = s.blocks := by
        rw [hp, hblocks.touch (by simp [HeldDemux.owned, HeldDemux.tables, hp])]
      rw [htable]
      refine h.released (s.refs out).lease ?_ hblocks rfl ?_
      · rintro _ ⟨⟩
        exact (hshaped demux hdemux).next _
      · have hcallers := callers_update s.refs s.retained out (demux.next (s.refs out)).1.dst
        unfold DemuxSession.owners DemuxSession.callers
        rw [hdemux]
        simp only [Option.elim_some]
        rw [HeldDemux.next_leases hlt (s.refs out), add_right_comm, add_comm _ (∑ i, _ + _),
          ← hcallers]
        abel
  | reset packet =>
    refine h.released (s.refs packet).lease hshaped hblocks rfl ?_
    have hcallers := callers_update s.refs s.retained packet packetRefInit
    unfold DemuxSession.owners DemuxSession.callers
    simp only [DemuxSession.call, packetRefReset]
    rw [show (packetRefInit.lease.toList : Multiset Lease) = 0 from rfl, add_zero] at hcallers
    rw [← hcallers]
    abel
  | move dst src =>
    by_cases heq : dst = src
    · rw [show (s.call (.move dst src)).2 = s by simp only [DemuxSession.call, if_pos heq]]
      exact h
    simp only [DemuxSession.call, if_neg heq]
    refine h.released (s.refs dst).lease hshaped hblocks rfl ?_
    have hdst := callers_update s.refs s.retained dst (packetRefMove (s.refs dst) (s.refs src)).dst
    have hsrc := callers_update (Function.update s.refs dst
      (packetRefMove (s.refs dst) (s.refs src)).dst) s.retained src packetRefInit
    rw [packetRefMove_lease] at hdst
    rw [Function.update_of_ne (Ne.symm heq), show (packetRefInit.lease.toList : Multiset Lease) = 0
      from rfl, add_zero] at hsrc
    -- the source gives up what the destination has got
    rw [← hsrc, add_right_comm] at hdst
    have hcallers := add_right_cancel hdst
    unfold DemuxSession.owners DemuxSession.callers
    rw [← hcallers]
    simp only [packetRefMove]
    abel
  | retain lease =>
    obtain ⟨hmem, hlt⟩ := hc
    refine (DemuxSession.kept_iff _).mpr ⟨hshaped, hblocks, ?_, hnumbered⟩
    have hretain := hleases.retain hmem hlt
    have howners : (s.call (.retain lease)).2.owners = lease ::ₘ s.owners := by
      simp only [DemuxSession.call, DemuxSession.owners, DemuxSession.callers, ← Multiset.cons_coe,
        Multiset.add_cons]
    rw [howners]
    exact hretain
  | release lease =>
    refine h.released (some lease) hshaped hblocks rfl ?_
    have hperm := Multiset.coe_eq_coe.mpr (List.perm_cons_erase hc)
    simp only [DemuxSession.call, DemuxSession.owners, DemuxSession.callers]
    rw [hperm, ← Multiset.cons_coe]
    simp only [Option.toList_some, Multiset.coe_singleton, ← Multiset.singleton_add]
    abel
  | close =>
    cases hdemux : s.demux with
    | none =>
      rw [show (s.call .close).2 = s by simp only [DemuxSession.call, hdemux]]
      exact h
    | some demux =>
      simp only [DemuxSession.call, hdemux]
      unfold DemuxSession.Kept at h
      rw [hdemux] at h
      replace h : Demuxing.Owns ⟨demux, s.blocks, s.heap⟩ 0 s.callers := h
      obtain ⟨hfreed, hbalanced, hmade⟩ := h.close
      refine ⟨hfreed, hbalanced, ?_⟩
      dsimp only
      rw [hmade]
      exact hnumbered

/-- **Ownership in a session.** Whatever the file is, and whichever allocations succeed: when a
demux is opened, and packets are taken from it, moved about, reset, their leases retained and
released, and the demux closed, in any order, no block is touched that is not there or freed
twice, each lease counts its owners, also when the demux it came from is closed, and what nobody
owns any more was freed. -/
theorem session_owns (data : Bytes) (options : Option DemuxOptions) (trackAllocs : Stream' Bool)
    (room : Bool) (allocs : Stream' Bool) {calls : List (DemuxCall ι)}
    (hlegal : AtEach (fun s c => (DemuxSession.call s c).2) DemuxCall.Legal
      (DemuxSession.opened ι data options trackAllocs room allocs).2 calls) :
    Throughout (fun s c => (DemuxSession.call s c).2) DemuxSession.Sound
      (DemuxSession.opened ι data options trackAllocs room allocs).2 calls := by
  refine throughout_of (I := DemuxSession.Kept) (fun _ h => h.sound) (fun _ _ h hc => h.call hc) ?_
    hlegal
  have hempty : (LeaseHeap.mk .empty 1 allocs).counts.Balanced 0 := RefCounts.balanced_empty
  have hopen := heldOpen_owns Blocks.owned_empty hempty (by simp [RefCounts.empty]) data options
    trackAllocs room
  have hcallers : (DemuxSession.opened ι data options trackAllocs room allocs).2.callers = 0 := by
    simp [DemuxSession.callers, DemuxSession.opened, packetRefInit]
  unfold DemuxSession.Kept
  rw [hcallers]
  exact hopen

end

end

/-- The packet of the small file outlives the demux. -/
def sampleCalls : List (DemuxCall Bool) :=
  [.next false, .retain ⟨0, 1, [42]⟩, .close, .move true false, .release ⟨0, 1, [42]⟩, .reset true]

theorem sampleCalls_owns :
    let start :=
      (DemuxSession.opened Bool sampleFile none (Stream'.const true) true (Stream'.const true)).2
    Throughout (fun s c => (DemuxSession.call s c).2) DemuxSession.Sound start sampleCalls := by
  refine session_owns sampleFile none (Stream'.const true) true (Stream'.const true) ⟨trivial,
    ⟨?_, ?_⟩, trivial, trivial, ?_, trivial, trivial⟩
  · decide +kernel
  · decide +kernel
  · show (⟨0, 1, [42]⟩ : Lease) ∈ DemuxSession.retained _
    decide +kernel

/-! ### Apart from the memory -/

/-- A demux and what it is apart from the memory. Its packets have views that span their leases. -/
structure HeldDemux.Shows (held : HeldDemux) (demux : Demux) : Prop where
  error : demux.error = held.error
  streams : demux.streams = held.streams
  streamCapacity : demux.streamCapacity = held.streamCapacity
  packets : demux.packets = held.packets.map PacketRef.info
  packetCapacity : demux.packetCapacity = held.packetCapacity
  cursor : demux.cursor = held.cursor
  selectedTrack : demux.selectedTrack = held.selectedTrack
  whole : ∀ packet ∈ held.packets, packet.Whole

/-- The same allocations are to come. -/
structure Demuxing.Shows (u : Demuxing) (demux : Demux) : Prop where
  held : u.demux.Shows demux
  allocs : demux.allocs = u.heap.allocs

/-- Results with one status that show the same. -/
def ShowsRun (r : Status × Demuxing) (r' : Status × Demux) : Prop := r.1 = r'.1 ∧ r.2.Shows r'.2

theorem ShowsRun.andThen {r : Status × Demuxing} {r' : Status × Demux} (h : ShowsRun r r')
    {f : Demuxing → Status × Demuxing} {g : Demux → Status × Demux}
    (hfg : ∀ u demux, u.Shows demux → ShowsRun (f u) (g demux)) :
    ShowsRun (andThen r f) (andThen r' g) := by
  rcases r with ⟨status, u⟩
  rcases r' with ⟨status', demux⟩
  obtain rfl : status = status' := h.1
  have hu : u.Shows demux := h.2
  cases status <;> first | exact hfg u demux hu | exact ⟨rfl, hu⟩

section

variable {u : Demuxing} {demux : Demux}

theorem Demuxing.Shows.growStreams (h : u.Shows demux) :
    ShowsRun u.growStreams demux.growStreams := by
  obtain ⟨hheld, hallocs⟩ := h
  unfold Demuxing.growStreams Demux.growStreams
  have hlength : demux.streams.length = u.demux.streams.length := by rw [hheld.streams]
  rw [hlength, hheld.streamCapacity, hallocs]
  by_cases hfull : u.demux.streams.length = u.demux.streamCapacity
  swap
  · rw [if_neg hfull, if_neg hfull]
    exact ⟨rfl, hheld, hallocs⟩
  rw [if_pos hfull, if_pos hfull]
  dsimp only
  cases u.heap.allocs.head with
  | false => exact ⟨rfl, { hheld with streamCapacity := rfl }, rfl⟩
  | true =>
    obtain ⟨p, blocks, hrealloc⟩ := u.blocks.realloc_true u.demux.streamTable
    rw [hrealloc]
    dsimp only
    rw [show u.heap.next.allocs = u.heap.allocs.tail from rfl]
    cases u.heap.allocs.tail.head with
    | false => exact ⟨rfl, { hheld with streamCapacity := rfl }, rfl⟩
    | true =>
      obtain ⟨q, blocks', hrealloc'⟩ := blocks.realloc_true u.demux.configTable
      rw [hrealloc']
      exact ⟨rfl, { hheld with streamCapacity := rfl }, rfl⟩

theorem Demuxing.Shows.growPackets (h : u.Shows demux) :
    ShowsRun u.growPackets demux.growPackets := by
  obtain ⟨hheld, hallocs⟩ := h
  unfold Demuxing.growPackets Demux.growPackets
  have hlength : demux.packets.length = u.demux.packets.length := by
    rw [hheld.packets, List.length_map]
  rw [hlength, hheld.packetCapacity, hallocs]
  by_cases hfull : u.demux.packets.length = u.demux.packetCapacity
  swap
  · rw [if_neg hfull, if_neg hfull]
    exact ⟨rfl, hheld, hallocs⟩
  rw [if_pos hfull, if_pos hfull]
  dsimp only
  cases u.heap.allocs.head with
  | false => exact ⟨rfl, { hheld with packetCapacity := rfl }, rfl⟩
  | true =>
    obtain ⟨p, blocks, hrealloc⟩ := u.blocks.realloc_true u.demux.packetTable
    rw [hrealloc]
    exact ⟨rfl, { hheld with packetCapacity := rfl }, rfl⟩

theorem heldAddStream_shows (h : u.Shows demux) (stream : StreamInfo) :
    ShowsRun (heldAddStream u stream) (demuxAddStream demux stream) := by
  refine h.growStreams.andThen fun u demux h => ?_
  obtain ⟨hheld, hallocs⟩ := h
  have hstored : demux.streams ++ [stream] = u.demux.streams ++ [stream] := by rw [hheld.streams]
  split_ifs with hconfig hhead
  · rw [hallocs, Bool.not_eq_true'] at hhead
    rw [hhead]
    exact ⟨rfl, { hheld with error := hheld.error }, congrArg Stream'.tail hallocs⟩
  · rw [hallocs, Bool.not_eq_true', Bool.not_eq_false] at hhead
    obtain ⟨p, blocks, hmalloc⟩ := u.blocks.malloc_true
    rw [hhead, hmalloc]
    exact ⟨rfl, { hheld with streams := hstored }, congrArg Stream'.tail hallocs⟩
  · exact ⟨rfl, { hheld with streams := hstored }, hallocs⟩

theorem heldAddPacket_shows (h : u.Shows demux) (packet : PacketInfo) :
    ShowsRun (heldAddPacket u packet) (demuxAddPacket demux packet) := by
  unfold heldAddPacket demuxAddPacket
  rw [h.held.selectedTrack]
  by_cases hselect : u.demux.selectedTrack ≠ 0 ∧ packet.trackId ≠ u.demux.selectedTrack
  · rw [if_pos hselect, if_pos hselect]
    exact ⟨rfl, h⟩
  rw [if_neg hselect, if_neg hselect]
  refine h.growPackets.andThen fun u demux h => ?_
  obtain ⟨hheld, hallocs⟩ := h
  have hcreate := u.heap.payloadLeaseCreateCopy_data packet.payload
  dsimp only
  rw [hallocs, ← hcreate]
  dsimp only
  generalize u.heap.payloadLeaseCreateCopy (some packet.payload) packet.payload.length = created
  rcases created with ⟨lease, heap⟩
  have hnone : lease.map Lease.data = none ↔ lease = none := Option.map_eq_none_iff
  simp only [hnone]
  split_ifs
  · exact ⟨rfl, { hheld with error := hheld.error }, rfl⟩
  · refine ⟨rfl, { hheld with packets := ?_, whole := ?_ }, rfl⟩
    · rw [hheld.packets, List.map_append]
      rfl
    · intro stored hstored
      rcases List.mem_append.mp hstored with hold | hnew
      · exact hheld.whole stored hold
      · obtain rfl := List.mem_singleton.mp hnew
        intro lease' hlease'
        obtain rfl : lease = some lease' := hlease'
        exact ⟨rfl, rfl⟩

theorem heldCallbacks_shows (h : u.Shows demux) (event : Event) :
    ShowsRun (heldCallbacks.call u event) (demuxCallbacks.call demux event) := by
  cases event with
  | record event => exact ⟨rfl, h⟩
  | stream stream => exact heldAddStream_shows h stream
  | packet packet => exact heldAddPacket_shows h packet

end

/-- **Opening** shows what `demuxOpen` opens, when the demux itself can be allocated. -/
theorem heldOpen_shows (data : Bytes) (options : Option DemuxOptions) (trackAllocs : Stream' Bool)
    (blocks : Blocks) (heap : LeaseHeap) :
    let r := heldOpen data options trackAllocs true blocks heap
    let r' := demuxOpen data options trackAllocs heap.allocs
    r.status = r'.1 ∧ Option.Rel HeldDemux.Shows r.demux r'.2 := by
  obtain ⟨self, blocks', hmalloc⟩ := blocks.malloc_true
  unfold heldOpen demuxOpen
  rw [hmalloc]
  dsimp only
  have hstart : Demuxing.Shows ⟨HeldDemux.start options self, blocks', heap⟩
      (Demux.start options heap.allocs) :=
    ⟨⟨rfl, rfl, rfl, rfl, rfl, rfl, rfl, by simp [HeldDemux.start]⟩, rfl⟩
  obtain ⟨status, p, q, hp, hq, hpq⟩ :=
    (parseTideBytes_alike (fun _ _ event h => heldCallbacks_shows h event) hstart data true
    (some (demuxLimits options)) trackAllocs).cases
  rw [hp, hq]
  dsimp only
  split_ifs
  · exact ⟨rfl, .none⟩
  · exact ⟨rfl, .some { hpq.user.held with error := hpq.error }⟩

/-- What the calls do to a demux that is looked at apart from the memory. -/
def callDemux [DecidableEq ι] (demux : Option Demux) :
    DemuxCall ι → (Status × Option PacketInfo) × Option Demux
  | .next _ =>
    match demux with
    | none => ((.invalidArgument, none), none)
    | some demux => ((demuxPull demux ()).1, some (demuxPull demux ()).2)
  | .move dst src => if dst = src then ((.invalidArgument, none), demux) else ((.ok, none), demux)
  | .close => ((.ok, none), none)
  | _ => ((.ok, none), demux)

/-- Moving a packet out shows what `demuxNext` moves out. -/
theorem HeldDemux.Shows.next {held : HeldDemux} {demux : Demux} (h : held.Shows demux)
    (hlt : held.cursor < held.packets.length) (out : PacketRef) :
    demuxPull demux () = ((.ok, some (held.next out).1.dst.info), (demuxPull demux ()).2) ∧
      (held.next out).2.Shows (demuxPull demux ()).2 := by
  have hlength : demux.packets.length = held.packets.length := by rw [h.packets, List.length_map]
  have hnext : demuxNext demux = (.ok, demux.packets.getD demux.cursor .zero,
      { demux with packets := demux.packets.set demux.cursor .zero,
                   cursor := demux.cursor + 1 }) := by
    rw [demuxNext, if_neg (by rw [hlength, h.cursor]; exact Nat.not_le.mpr hlt)]
  have hslot : held.packets.getD held.cursor packetRefInit = held.packets[held.cursor] := by
    simp [List.getD, List.getElem?_eq_getElem hlt]
  have hmoved : (held.next out).1.dst = held.packets[held.cursor] := by
    rw [HeldDemux.next, hslot]
    exact (h.whole _ (List.getElem_mem hlt)).move out
  have hinfo : demux.packets.getD demux.cursor .zero = (held.next out).1.dst.info := by
    rw [hmoved, h.packets, h.cursor]
    simp [List.getD, List.getElem?_eq_getElem hlt]
  simp only [demuxPull, hnext]
  refine ⟨by rw [hinfo], { h with packets := ?_, cursor := ?_, whole := ?_ }⟩
  · rw [h.packets, h.cursor]
    simp only [HeldDemux.next, List.map_set]
    rfl
  · rw [h.cursor]
    rfl
  · intro packet hpacket
    rcases List.mem_or_eq_of_mem_set hpacket with hold | rfl
    · exact h.whole packet hold
    · intro lease hlease
      cases hlease

/-- A call answers what it does apart from the memory. -/
theorem DemuxSession.call_shows [DecidableEq ι] {s : DemuxSession ι} {demux : Option Demux}
    (h : Option.Rel HeldDemux.Shows s.demux demux) (c : DemuxCall ι) :
    (s.call c).1 = (callDemux demux c).1 ∧
      Option.Rel HeldDemux.Shows (s.call c).2.demux (callDemux demux c).2 := by
  cases c with
  | next out =>
    cases hheld : s.demux with
    | none =>
      rw [hheld] at h
      cases h
      simp only [DemuxSession.call, hheld, callDemux]
      exact ⟨trivial, .none⟩
    | some held =>
      rw [hheld] at h
      cases h with
      | some hshows =>
        simp only [DemuxSession.call, hheld, callDemux]
        split_ifs with hend
        · have hblock : demuxNext _ = (.wouldBlock, .zero, _) :=
            if_pos (show _ ≤ _ by rwa [hshows.packets, List.length_map, hshows.cursor])
          simp only [demuxPull, hblock]
          exact ⟨trivial, .some hshows⟩
        · obtain ⟨hpull, hnext⟩ := hshows.next (Nat.lt_of_not_le hend) (s.refs out)
          rw [hpull]
          exact ⟨rfl, .some hnext⟩
  | move dst src =>
    simp only [DemuxSession.call, callDemux]
    split_ifs <;> exact ⟨rfl, h⟩
  | close =>
    cases hheld : s.demux with
    | none =>
      simp only [DemuxSession.call, hheld, callDemux]
      exact ⟨trivial, .none⟩
    | some held =>
      simp only [DemuxSession.call, hheld, callDemux]
      exact ⟨trivial, .none⟩
  | reset | retain | release => exact ⟨rfl, h⟩

/-- **A session and the plain demux.** Whichever of its packets the caller has filled, and
whatever else it does in between, a session answers what `demuxOpen` and `demuxNext` do, until it
is closed. -/
theorem session_answers [DecidableEq ι] (data : Bytes) (options : Option DemuxOptions)
    (trackAllocs : Stream' Bool) (room : Bool) (allocs : Stream' Bool)
    (calls : List (DemuxCall ι)) :
    let session := DemuxSession.opened ι data options trackAllocs room allocs
    let plain := if room then demuxOpen data options trackAllocs allocs else (.resource, none)
    session.1 = plain.1 ∧ (answers DemuxSession.call session.2 calls).1 =
      (answers callDemux plain.2 calls).1 := by
  intro session plain
  have hopen : session.1 = plain.1 ∧ Option.Rel HeldDemux.Shows session.2.demux plain.2 := by
    cases room with
    | false => exact ⟨rfl, .none⟩
    | true => exact heldOpen_shows data options trackAllocs .empty ⟨.empty, 1, allocs⟩
  refine ⟨hopen.1, (answers_eq (P := fun _ => True) (R := fun s demux => Option.Rel HeldDemux.Shows
    s.demux demux) ?_ hopen.2 ?_).1⟩
  · intro s demux c h _
    exact s.call_shows h c
  · intro c _
    trivial

end Tide
