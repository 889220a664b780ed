import Tide.Common

/-!
# Records, streams, packets and events

The model of the data types of `include/tide/tide.h` and of `tide_track_snapshot`:
the record types with their codes, what a stream descriptor and a packet say, and
the events a decoder delivers. A payload is the bytes a view or a lease gives
access to.
-/

namespace Tide

/-- `tide_record_type`. -/
inductive RecordType where
  | group
  | streamDesc
  | packet
  | packetTable
  | editList
  | discontinuity
  | seekIndex
  | checkpoint
  | indexDirectory
  | footer
  deriving DecidableEq, Repr

/-- The code of a record type. -/
def RecordType.code : RecordType → UInt16
  | .group => 0x0001
  | .streamDesc => 0x0010
  | .packet => 0x0020
  | .packetTable => 0x0021
  | .editList => 0x0030
  | .discontinuity => 0x0031
  | .seekIndex => 0x0040
  | .checkpoint => 0x0050
  | .indexDirectory => 0x0060
  | .footer => 0x007f

/-- The record types, in the order of their codes. -/
def RecordType.all : List RecordType :=
  [.group, .streamDesc, .packet, .packetTable, .editList, .discontinuity, .seekIndex, .checkpoint,
    .indexDirectory, .footer]

/-- The record type of a code, if it is a known one. -/
def recordTypeOf (code : UInt16) : Option RecordType := RecordType.all.find? fun t => t.code == code

theorem recordTypeOf_code (t : RecordType) : recordTypeOf t.code = some t := by cases t <;> rfl

theorem recordTypeOf_eq_some_iff (code : UInt16) (t : RecordType) :
    recordTypeOf code = some t ↔ code = t.code := by
  constructor
  · intro h
    have hcode : t.code = code := by simpa using List.find?_some h
    exact hcode.symm
  · rintro rfl
    exact recordTypeOf_code t

/-- `(type & TIDE_RECORD_SKIPPABLE_BIT) != 0`. -/
def skippable (type : UInt16) : Bool := type &&& 0x8000 != 0

theorem skippable_code (t : RecordType) : skippable t.code = false := by cases t <;> rfl

/-- `tide_record_event`. -/
@[ext]
structure RecordEvent where
  type : UInt16
  flags : UInt16
  offset : ℕ
  payloadOffset : ℕ
  payloadSize : UInt64
  sequence : UInt64
  depth : UInt8
  skippable : Bool
  deriving DecidableEq, Repr

/-- `tide_stream_info`, with the configuration's bytes for `config` and `config_size`. -/
@[ext]
structure StreamInfo where
  trackId : UInt32
  generation : UInt32
  mediaKind : UInt16
  codecTag : UInt32
  timeBase : Rational
  config : Bytes
  deriving DecidableEq, Repr

/-- `tide_packet_info`, with the payload's bytes for the view. -/
@[ext]
structure PacketInfo where
  trackId : UInt32
  generation : UInt32
  packetSeq : UInt64
  dts : Int64
  pts : Int64
  duration : Int64
  flags : UInt32
  payload : Bytes
  deriving DecidableEq

/-- A `tide_packet_ref` of zeros. -/
def PacketInfo.zero : PacketInfo := ⟨0, 0, 0, 0, 0, 0, 0, []⟩

/-- `tide_track_snapshot`. -/
@[ext]
structure TrackSnapshot where
  trackId : UInt32
  generation : UInt32
  mediaKind : UInt16
  codecTag : UInt32
  timeBase : Rational
  deriving DecidableEq, Repr

/-- What a descriptor leaves in the track table. -/
def StreamInfo.snapshot (s : StreamInfo) : TrackSnapshot :=
  ⟨s.trackId, s.generation, s.mediaKind, s.codecTag, s.timeBase⟩

/-- What a decoder delivers through `on_record`, `on_stream` and `on_packet`. -/
inductive Event where
  | record (event : RecordEvent)
  | stream (stream : StreamInfo)
  | packet (packet : PacketInfo)
  deriving DecidableEq

/-- The streams among the events, in order. -/
def streamsOf (events : List Event) : List StreamInfo :=
  events.filterMap fun | .stream s => some s | _ => none

/-- The packets among the events, in order. -/
def packetsOf (events : List Event) : List PacketInfo :=
  events.filterMap fun | .packet p => some p | _ => none

@[simp] theorem streamsOf_append (a b : List Event) :
    streamsOf (a ++ b) = streamsOf a ++ streamsOf b := List.filterMap_append ..

@[simp] theorem packetsOf_append (a b : List Event) :
    packetsOf (a ++ b) = packetsOf a ++ packetsOf b := List.filterMap_append ..

@[simp] theorem streamsOf_record (r : RecordEvent) (events : List Event) :
    streamsOf (.record r :: events) = streamsOf events := rfl

@[simp] theorem packetsOf_record (r : RecordEvent) (events : List Event) :
    packetsOf (.record r :: events) = packetsOf events := rfl

/-- `tide_find_track`. -/
def findTrack (tracks : List TrackSnapshot) (trackId generation : UInt32) : Option TrackSnapshot :=
  tracks.find? fun t => t.trackId == trackId && t.generation == generation

/-- What identifies a stream. -/
def StreamInfo.key (s : StreamInfo) : UInt32 × UInt32 := (s.trackId, s.generation)

/-- The key of the stream a packet belongs to. -/
def PacketInfo.key (p : PacketInfo) : UInt32 × UInt32 := (p.trackId, p.generation)

/-- The key of a track in the table. -/
def TrackSnapshot.key (t : TrackSnapshot) : UInt32 × UInt32 := (t.trackId, t.generation)

theorem findTrack_isSome_iff (ts : List TrackSnapshot) (trackId generation : UInt32) :
    (findTrack ts trackId generation).isSome ↔
      (trackId, generation) ∈ ts.map TrackSnapshot.key := by
  simp [findTrack, TrackSnapshot.key]

theorem findTrack_eq_none_iff (ts : List TrackSnapshot) (trackId generation : UInt32) :
    findTrack ts trackId generation = none ↔ (trackId, generation) ∉ ts.map TrackSnapshot.key := by
  rw [← findTrack_isSome_iff, Option.isSome_iff_ne_none, not_not]

end Tide
