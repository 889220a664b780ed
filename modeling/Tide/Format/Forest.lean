import Tide.Format.Payload

/-!
# Forests of records

What a file is behind its header, on its own terms: a forest, whose leaves are
records and whose inner nodes are groups. `Forest.bytes` lays it out,
`Forest.events` and `Forest.tracks` say what it tells, in preorder, and
`Forest.Valid` which forests are well formed.

Validity follows the bytes from left to right. A record is judged by the limits,
by the depth and the file before it, and by the track table that the descriptors
before it have built. Whether a group may be opened at a depth is a parameter: the
format says below `max_depth`, the decoder counts in eight bits.
-/

namespace Tide

/-- What a group says of itself besides the length of its children. -/
@[ext]
structure GroupMeta where
  kind : UInt16
  reserved : UInt16
  sequence : UInt64
  deriving DecidableEq, Repr

/-- The metadata of a group with `n` bytes of children. -/
def GroupMeta.bytes (m : GroupMeta) (n : ℕ) : Bytes :=
  writeU16 m.kind ++ (writeU16 m.reserved ++ (writeU64 (UInt64.ofNat n) ++ writeU64 m.sequence))

@[simp] theorem GroupMeta.length_bytes (m : GroupMeta) (n : ℕ) : (m.bytes n).length = 20 := rfl

/-- The records of a range, in order. -/
inductive Forest where
  | nil
  /-- A record that is not a group, and what follows it. -/
  | leaf (head : RecordHead) (payload : Bytes) (next : Forest)
  /-- A group with its children, and what follows it. -/
  | group (head : RecordHead) (info : GroupMeta) (children next : Forest)
  deriving DecidableEq

/-- The payload of a group. -/
def groupPayload (m : GroupMeta) (children : Bytes) : Bytes := m.bytes children.length ++ children

@[simp] theorem length_groupPayload (m : GroupMeta) (children : Bytes) :
    (groupPayload m children).length = 20 + children.length := by
  rw [groupPayload, List.length_append, GroupMeta.length_bytes]

/-! ### What a record tells -/

/-- The track that a record adds to the table. -/
def leafTracks (h : RecordHead) (payload : Bytes) : List TrackSnapshot :=
  match recordTypeOf h.type with
  | some .streamDesc => ((wholePayload readStream payload).map StreamInfo.snapshot).toList
  | _ => []

/-- The stream or the packet of a record. -/
def leafContent (h : RecordHead) (payload : Bytes) : List Event :=
  match recordTypeOf h.type with
  | some .streamDesc => ((wholePayload readStream payload).map Event.stream).toList
  | some .packet => ((wholePayload readPacket payload).map Event.packet).toList
  | _ => []

/-- The event that announces a record. -/
def headEvent (h : RecordHead) (n offset depth : ℕ) : Event :=
  .record (h.frameAt offset n (UInt8.ofNat depth)).event

namespace Forest

/-- The bytes of the records, one after the other. -/
def bytes : Forest → Bytes
  | nil => []
  | leaf h payload next => h.bytes payload ++ next.bytes
  | group h m children next => h.bytes (groupPayload m children.bytes) ++ next.bytes

/-- The tracks the descriptors add to the table, in preorder. -/
def tracks : Forest → List TrackSnapshot
  | nil => []
  | leaf h payload next => leafTracks h payload ++ next.tracks
  | group _ _ children next => children.tracks ++ next.tracks

/-- The offset of a group's children, for a group with `n` bytes of them at `offset`. -/
def childOffset (h : RecordHead) (n offset : ℕ) : ℕ := offset + h.headerSize (20 + n) + 20

/-- The children of a group lie inside it, in front of its checksum. -/
theorem children_inside (h : RecordHead) (n offset : ℕ) :
    offset < childOffset h n offset ∧
      childOffset h n offset + n + 4 ≤ offset + h.size (20 + n) := by
  have hpad := h.le_paddedSize (20 + n)
  rw [childOffset, RecordHead.size]
  omega

/-- The events of the records from `offset` on at `depth`, in preorder. -/
def events : Forest → (offset depth : ℕ) → List Event
  | nil, _, _ => []
  | leaf h payload next, offset, depth =>
    headEvent h payload.length offset depth :: (leafContent h payload ++
      next.events (offset + h.size payload.length) depth)
  | group h _ children next, offset, depth =>
    headEvent h (20 + children.bytes.length) offset depth ::
      (children.events (childOffset h children.bytes.length offset) (depth + 1) ++
        next.events (offset + h.size (20 + children.bytes.length)) depth)

end Forest

/-! ### Which records are well formed -/

/-- The alignment is at most 16, and the sizes are within the limits. -/
structure HeadOk (limits : Limits) (h : RecordHead) (n : ℕ) : Prop where
  alignment : h.alignmentLog2 ≤ 4
  payload : n ≤ limits.maxPayloadSize.toNat
  record : h.size n ≤ limits.maxRecordSize.toNat

/-- A descriptor has a time base, is the first of its track and generation, and has room
in the table. -/
def StreamOk (limits : Limits) (tracks : List TrackSnapshot) (s : StreamInfo) : Prop :=
  rationalIsValid s.timeBase = true ∧ findTrack tracks s.trackId s.generation = none ∧
    tracks.length < limits.maxTracks.toNat

/-- A packet has a duration and a descriptor before it. -/
def PacketOk (tracks : List TrackSnapshot) (p : PacketInfo) : Prop :=
  ¬ p.duration < 0 ∧ (findTrack tracks p.trackId p.generation).isSome

/-- A record that is not a group, behind the bytes `pre` and the descriptors of `tracks`:
it may be skipped, or it is of a known type and its payload is what that type
asks for. -/
def LeafOk (limits : Limits) (depth : ℕ) (pre : Bytes) (tracks : List TrackSnapshot)
    (h : RecordHead) (payload : Bytes) : Prop :=
  skippable h.type = true ∨
    match recordTypeOf h.type with
    | none => False
    | some .group => False
    | some .streamDesc => ∃ s, wholePayload readStream payload = some s ∧ StreamOk limits tracks s
    | some .packet => ∃ p, wholePayload readPacket payload = some p ∧ PacketOk tracks p
    | some _ =>
        emitSimpleRecord limits tracks (h.frameAt pre.length payload.length (UInt8.ofNat depth)) pre
          payload = .ok ()

/-- **Well-formed forests**, behind the bytes `pre` and the descriptors of `tracks`, with
groups at the depths `opens`. -/
def Forest.Valid (limits : Limits) (opens : ℕ → Prop) :
    ℕ → Bytes → List TrackSnapshot → Forest → Prop
  | _, _, _, .nil => True
  | depth, pre, tracks, .leaf h payload next =>
    HeadOk limits h payload.length ∧ LeafOk limits depth pre tracks h payload ∧
      next.Valid limits opens depth (pre ++ h.bytes payload) (tracks ++ leafTracks h payload)
  | depth, pre, tracks, .group h m children next =>
    HeadOk limits h (20 + children.bytes.length) ∧ h.type = RecordType.group.code ∧ opens depth ∧
      children.Valid limits opens (depth + 1)
        (pre ++ (h.prefixBytes (20 + children.bytes.length) ++
          m.bytes children.bytes.length)) tracks ∧
      next.Valid limits opens depth (pre ++ h.bytes (groupPayload m children.bytes))
        (tracks ++ children.tracks)

/-- A skippable type is none of the known ones. -/
theorem recordTypeOf_of_skippable {type : UInt16} (h : skippable type = true) :
    recordTypeOf type = none := by
  cases ht : recordTypeOf type with
  | none => rfl
  | some t =>
    rw [recordTypeOf_eq_some_iff] at ht
    rw [ht, skippable_code] at h
    cases h

/-! ### One forest after another -/

namespace Forest

/-- The records of one forest and then those of another. -/
def append : Forest → Forest → Forest
  | nil, g => g
  | leaf h payload next, g => leaf h payload (next.append g)
  | group h m children next, g => group h m children (next.append g)

@[simp] theorem bytes_append (f g : Forest) : (f.append g).bytes = f.bytes ++ g.bytes := by
  induction f with
  | nil => rfl
  | leaf h payload next ih => rw [append, bytes, bytes, ih, List.append_assoc]
  | group h m children next _ ih => rw [append, bytes, bytes, ih, List.append_assoc]

@[simp] theorem append_nil (f : Forest) : f.append nil = f := by
  induction f with
  | nil => rfl
  | leaf h payload next ih => rw [append, ih]
  | group h m children next _ ih => rw [append, ih]

/-- A forest without bytes is empty. -/
theorem eq_nil_of_bytes {f : Forest} (h : f.bytes = []) : f = nil := by
  have hlen := congrArg List.length h
  cases f with
  | nil => rfl
  | leaf r payload next =>
    have hge := r.size_ge payload.length
    simp only [bytes, List.length_append, r.length_bytes, List.length_nil] at hlen
    omega
  | group r m children next =>
    have hge := r.size_ge (groupPayload m children.bytes).length
    simp only [bytes, List.length_append, r.length_bytes, List.length_nil] at hlen
    omega

@[simp] theorem tracks_append (f g : Forest) : (f.append g).tracks = f.tracks ++ g.tracks := by
  induction f with
  | nil => rfl
  | leaf h payload next ih => rw [append, tracks, tracks, ih, List.append_assoc]
  | group h m children next _ ih => rw [append, tracks, tracks, ih, List.append_assoc]

theorem events_append (f g : Forest) (offset depth : ℕ) :
    (f.append g).events offset depth = f.events offset depth ++
      g.events (offset + f.bytes.length) depth := by
  induction f generalizing offset with
  | nil => rfl
  | leaf h payload next ih =>
    rw [append, events, events, ih, bytes, List.length_append, h.length_bytes, ← Nat.add_assoc]
    simp
  | group h m children next _ ih =>
    rw [append, events, events, ih, bytes, List.length_append, h.length_bytes, length_groupPayload,
      ← Nat.add_assoc]
    simp

/-- Validity follows the bytes. -/
theorem valid_append_iff {limits : Limits} {opens : ℕ → Prop} {depth : ℕ} (f g : Forest)
    (pre : Bytes) (ts : List TrackSnapshot) :
    (f.append g).Valid limits opens depth pre ts ↔
      f.Valid limits opens depth pre ts ∧ g.Valid limits opens depth (pre ++ f.bytes)
        (ts ++ f.tracks) := by
  induction f generalizing pre ts with
  | nil => simp [append, Valid, bytes, tracks]
  | leaf h payload next ih =>
    rw [append, Valid, Valid, ih, bytes, tracks, List.append_assoc, List.append_assoc]
    exact ⟨fun ⟨h1, h2, h3, h4⟩ => ⟨⟨h1, h2, h3⟩, h4⟩, fun ⟨⟨h1, h2, h3⟩, h4⟩ => ⟨h1, h2, h3, h4⟩⟩
  | group h m children next _ ih =>
    rw [append, Valid, Valid, ih, bytes, tracks, List.append_assoc, List.append_assoc]
    exact ⟨fun ⟨h1, h2, h3, h4, h5, h6⟩ => ⟨⟨h1, h2, h3, h4, h5⟩, h6⟩,
      fun ⟨⟨h1, h2, h3, h4, h5⟩, h6⟩ => ⟨h1, h2, h3, h4, h5, h6⟩⟩

/-- A single record, with its children if it is a group. -/
inductive IsRecord : Forest → Prop where
  | leaf (h : RecordHead) (payload : Bytes) : IsRecord (.leaf h payload .nil)
  | group (h : RecordHead) (m : GroupMeta) (children : Forest) : IsRecord (.group h m children .nil)

/-- A forest is empty, or a record and then a forest. -/
theorem recordInduction {motive : Forest → Prop} (nil : motive .nil)
    (cons : ∀ r next, IsRecord r → motive next → motive (r.append next))
    (f : Forest) : motive f := by
  induction f with
  | nil => exact nil
  | leaf h payload next ih => exact cons _ next (.leaf h payload) ih
  | group h m children next _ ih => exact cons _ next (.group h m children) ih

/-- A record that is valid has a head that is well formed, and lies as one. -/
theorem IsRecord.head {r : Forest} (hr : IsRecord r) {limits : Limits} {opens : ℕ → Prop}
    {depth : ℕ} {pre : Bytes} {ts : List TrackSnapshot} (hv : r.Valid limits opens depth pre ts) :
    ∃ (h : RecordHead) (payload : Bytes), r.bytes = h.bytes payload ∧
      HeadOk limits h payload.length := by
  cases hr with
  | leaf h payload => exact ⟨h, payload, List.append_nil _, hv.1⟩
  | group h m children =>
      exact ⟨h, groupPayload m children.bytes, List.append_nil _,
        by rw [length_groupPayload]; exact hv.1⟩

theorem IsRecord.length_pos {r : Forest} (hr : IsRecord r) : 0 < r.bytes.length := by
  cases hr with
  | leaf h payload => have := h.size_ge payload.length; simp [bytes]; omega
  | group h m children => have := h.size_ge (20 + children.bytes.length); simp [bytes]; omega

/-- The records at the top, each with its end and its events. -/
def topRecords : Forest → (offset depth : ℕ) → List (ℕ × List Event)
  | nil, _, _ => []
  | leaf h payload next, offset, depth =>
    (offset + h.size payload.length, headEvent h payload.length offset depth ::
      leafContent h payload) ::
      next.topRecords (offset + h.size payload.length) depth
  | group h _ children next, offset, depth =>
    (offset + h.size (20 + children.bytes.length),
      headEvent h (20 + children.bytes.length) offset depth ::
      children.events (childOffset h children.bytes.length offset) (depth + 1)) ::
      next.topRecords (offset + h.size (20 + children.bytes.length)) depth

theorem IsRecord.topRecords_append {r : Forest} (hr : IsRecord r) (next : Forest)
    (offset depth : ℕ) :
    (r.append next).topRecords offset depth =
      (offset + r.bytes.length, r.events offset depth) ::
        next.topRecords (offset + r.bytes.length) depth := by
  cases hr with
  | leaf h payload => simp [append, topRecords, bytes, events]
  | group h m children => simp [append, topRecords, bytes, events]

end Forest

end Tide
