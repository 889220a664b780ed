import Tide.Format.Grammar

/-!
# What a file is, and when it is accepted

`tide_parse_tide_bytes` against the grammar: a file is a valid header and a
well-formed forest (`FileOk`). With callbacks that return `OK` and allocations that
succeed, the parser accepts exactly the files and reports exactly their forests
(`parseTideBytes_ok_iff_file`). On any other bytes it has passed over a header and a
forest before it stopped, or over no header (`parseTideBytes_cases`).

What a client hears is described by a *trace*: some part of its state to which
each callback that is there appends its event.
-/

namespace Tide

open Theory

variable {σ : Type}

/-- `B` is the header `hd` and the forest `f`. -/
structure FileOk (limits : Limits) (opens : ℕ → Prop) (B : Bytes) (hd : Header)
    (f : Forest) : Prop where
  header : hd.Valid limits
  forest : f.Valid limits opens 0 hd.bytes []
  bytes : B = hd.bytes ++ f.bytes

/-! ### Clients -/

/-- The callback for the event is there. -/
def Callbacks.hears (callbacks : Callbacks σ) : Event → Bool
  | .record _ => callbacks.onRecord.isSome
  | .stream _ => callbacks.onStream.isSome
  | .packet _ => callbacks.onPacket.isSome

/-- A client whose callbacks return `OK`, and that keeps in `trace` the events it hears. -/
structure Callbacks.Traces (callbacks : Callbacks σ) (trace : σ → List Event) : Prop where
  call : ∀ user event, (callbacks.call user event).1 = .ok ∧
    trace (callbacks.call user event).2 = trace user ++ [event].filter callbacks.hears
  error : ∀ f, callbacks.onError = some f → ∀ user e, trace (f user e) = trace user

/-- The events heard are the events delivered. -/
theorem Callbacks.Traces.deliver {callbacks : Callbacks σ} {trace : σ → List Event}
    (h : callbacks.Traces trace) (user : σ) (events : List Event) :
    trace (callbacks.deliver user events) = trace user ++ events.filter callbacks.hears := by
  induction events generalizing user with
  | nil => simp [Callbacks.deliver]
  | cons e events ih =>
    change trace (callbacks.deliver (callbacks.call user e).2 events) = _
    rw [ih, (h.call user e).2, List.append_assoc, ← List.filter_append]
    rfl

theorem Callbacks.Traces.calm {callbacks : Callbacks σ} {trace : σ → List Event}
    (h : callbacks.Traces trace) (limits : Option Limits) (user : σ) :
    (Parsing.start limits callbacks user (Stream'.const true)).Calm fun _ => True :=
  ⟨fun u e _ => ⟨(h.call u e).1, trivial⟩, trivial, rfl⟩

/-- The client that keeps the events and nothing else. -/
def recorder : Callbacks (List Event) where
  onRecord := some fun events event => (.ok, events ++ [.record event])
  onStream := some fun events stream => (.ok, events ++ [.stream stream])
  onPacket := some fun events packet => (.ok, events ++ [.packet packet])
  onError := none

theorem recorder_traces : recorder.Traces id := by
  refine ⟨fun user event => ?_, nofun⟩
  cases event <;> exact ⟨rfl, rfl⟩

/-! ### The parser on a file and on what begins like one -/

section

variable {I : σ → Prop} {L : Limits} {callbacks : Callbacks σ} {user : σ} {B : Bytes} {hd : Header}
    {f : Forest}

theorem FileOk.length {opens : ℕ → Prop} (hfile : FileOk L opens B hd f) :
    B.length = 72 + f.bytes.length := by
  rw [hfile.bytes, List.length_append, hd.length_bytes hfile.header.uuid_length]

theorem FileOk.lies {opens : ℕ → Prop} (hfile : FileOk L opens B hd f) : Lies B 72 f.bytes := by
  rw [hfile.bytes]
  exact hd.lies_behind hfile.header.uuid_length f.bytes

theorem parseTideBytes_of_error {allocs : Stream' Bool} {e : Error}
    (h : validateHeader B L = .error e) (finish : Bool) :
    parseTideBytes B finish (some L) callbacks user allocs =
      (atEnd finish e.code, { Parsing.start (some L) callbacks user allocs with error := e }) := by
  have h' : validateHeader B (Parsing.start (some L) callbacks user allocs).limits = .error e := h
  unfold parseTideBytes
  dsimp only
  rw [h']

theorem parseTideBytes_of_ok {allocs : Stream' Bool} (h : validateHeader B L = .ok ())
    (finish : Bool) :
    parseTideBytes B finish (some L) callbacks user allocs =
      (atEnd finish (parseRecords B 72 B.length 0
        { Parsing.start (some L) callbacks user allocs with validPrefix := 72 }).1,
          (parseRecords B 72 B.length 0
            { Parsing.start (some L) callbacks user allocs with validPrefix := 72 }).2) := by
  have h' : validateHeader B (Parsing.start (some L) callbacks user allocs).limits = .ok () := h
  unfold parseTideBytes
  dsimp only
  rw [h']

/-- The parser behind a valid header and a well-formed forest. -/
theorem parseTideBytes_forest
    (hc : (Parsing.start (some L) callbacks user (Stream'.const true)).Calm I)
    (hmax : B.length ≤ sizeMax) (hhd : hd.Valid L) (hf : f.Valid L (admits L) 0 hd.bytes [])
    (hB : hd.bytes ++ f.bytes <+: B) (finish : Bool) :
    ∃ p, (Parsing.start (some L) callbacks user (Stream'.const true)).Follows p
      (f.events 72 0) f.tracks ∧
      p.validPrefix = 72 + f.bytes.length ∧
      parseTideBytes B finish (some L) callbacks user (Stream'.const true) =
        (atEnd finish (parseRecords B (72 + f.bytes.length) B.length 0 p).1,
          (parseRecords B (72 + f.bytes.length) B.length 0 p).2) := by
  obtain ⟨rest, rfl⟩ := hB
  have hlen := hd.length_bytes hhd.uuid_length
  have hok : validateHeader (hd.bytes ++ f.bytes ++ rest) L = .ok () :=
    (validateHeader_eq_ok_iff ..).mpr ⟨hd, hhd, f.bytes ++ rest, by simp⟩
  have htake : (hd.bytes ++ f.bytes ++ rest).take 72 = hd.bytes := by
    rw [List.append_assoc, ← hlen, List.take_left]
  have hl : Lies (hd.bytes ++ f.bytes ++ rest) 72 f.bytes := by
    have hmid := lies_mid hd.bytes f.bytes rest
    rwa [hlen, ← List.append_assoc] at hmid
  have hstart := (Parsing.Follows.refl (Parsing.start (some L) callbacks user
    (Stream'.const true))).withPrefix 72
  obtain ⟨p, hfol, hvp, hparse⟩ := parseRecords_forest f (Nat.le_refl _) hmax (hstart.calm hc)
    (Nat.le_refl _)
    (by rw [htake]; exact hf) hl (by simp [hlen])
  refine ⟨p, hstart.trans hfol, hvp.trans (f.prefixAfter_next 72), ?_⟩
  rw [parseTideBytes_of_ok hok, show (0 : UInt8) = UInt8.ofNat 0 from rfl, hparse]

/-- A file is accepted, and its forest is reported. -/
theorem parseTideBytes_file
    (hc : (Parsing.start (some L) callbacks user (Stream'.const true)).Calm I)
    (hmax : B.length ≤ sizeMax) (hB : FileOk L (admits L) B hd f) (finish : Bool) :
    ∃ p, parseTideBytes B finish (some L) callbacks user (Stream'.const true) = (.ok, p) ∧
      (Parsing.start (some L) callbacks user (Stream'.const true)).Follows p
        (f.events 72 0) f.tracks ∧
      p.validPrefix = 72 + f.bytes.length := by
  obtain ⟨p, hfol, hvp, hparse⟩ := parseTideBytes_forest hc hmax hB.header hB.forest ⟨[],
    by rw [List.append_nil, hB.bytes]⟩ finish
  rw [← hB.length, parseRecords_end B hmax] at hparse
  exact ⟨p, hparse, hfol, hvp⟩

/-- **What the parser does with any bytes**: it refuses the header, or it passes over a
valid header and a well-formed forest and ends there. -/
theorem parseTideBytes_cases
    (hc : (Parsing.start (some L) callbacks user (Stream'.const true)).Calm I)
    (hmax : B.length ≤ sizeMax) (finish : Bool) :
    (∃ e, validateHeader B L = .error e ∧
      parseTideBytes B finish (some L) callbacks user (Stream'.const true) =
        (atEnd finish e.code,
          { Parsing.start (some L) callbacks user (Stream'.const true) with error := e })) ∨
      ∃ (hd : Header) (f : Forest) (p : Parsing σ) (r : Status × Parsing σ), hd.Valid L ∧
        f.Valid L (admits L) 0 hd.bytes [] ∧
        hd.bytes ++ f.bytes <+: B ∧
        (Parsing.start (some L) callbacks user (Stream'.const true)).Follows p
          (f.events 72 0) f.tracks ∧
        p.validPrefix = 72 + f.bytes.length ∧ Ends B B.length (72 + f.bytes.length) 0 p r ∧
        parseTideBytes B finish (some L) callbacks user (Stream'.const true) =
          (atEnd finish r.1, r.2) := by
  cases hval : validateHeader B L with
  | error e => exact .inl ⟨e, rfl, parseTideBytes_of_error hval finish⟩
  | ok u =>
    obtain ⟨hd, hhd, rest, rfl⟩ := (validateHeader_eq_ok_iff ..).mp hval
    have hlen := hd.length_bytes hhd.uuid_length
    have hstart := (Parsing.Follows.refl (Parsing.start (some L) callbacks user
      (Stream'.const true))).withPrefix 72
    obtain ⟨f, p, hpass, hends⟩ := parseRecords_decompose 0 (by simp [hlen]) (Nat.le_refl _) hmax
      (hstart.calm hc) (Nat.le_refl 72)
    have htake : (hd.bytes ++ rest).take 72 = hd.bytes := by rw [← hlen, List.take_left]
    refine .inr ⟨hd, f, p, _, hhd, ?_, ?_, hstart.trans hpass.follows, ?_, hends,
      parseTideBytes_of_ok hval finish⟩
    · rw [← htake]
      exact hpass.valid
    · have h1 := hpass.lies.take
      rw [htake] at h1
      rw [← h1]
      exact List.take_prefix ..
    · rw [hpass.validPrefix]
      exact f.prefixAfter_next 72

end

/-! ### The grammar -/

/-- With a depth limit that eight bits hold, the depth is compared with it. -/
theorem admits_iff_lt {L : Limits} (hL : L.maxDepth ≤ 255) {depth : ℕ}
    (hd : depth ≤ L.maxDepth.toNat) :
    admits L depth ↔ depth < L.maxDepth.toNat := by
  have hL' : L.maxDepth.toNat ≤ 255 := UInt32.le_iff_toNat_le.mp hL
  rw [admits, UInt8.toNat_ofNat_of_lt' (by change depth < 256; omega)]

/-- With a depth limit that eight bits hold, the decoder opens groups where the format does. -/
theorem valid_admits_iff {L : Limits} (hL : L.maxDepth ≤ 255) {depth : ℕ}
    (hd : depth ≤ L.maxDepth.toNat) (f : Forest) (pre : Bytes) (ts : List TrackSnapshot) :
    f.Valid L (admits L) depth pre ts ↔ f.Valid L (· < L.maxDepth.toNat) depth pre ts := by
  induction f generalizing depth pre ts with
  | nil => rfl
  | leaf h payload next ih =>
    rw [Forest.Valid, Forest.Valid]
    exact and_congr_right fun _ => and_congr_right fun _ => ih hd ..
  | group h m children next ihc ih =>
    rw [Forest.Valid, Forest.Valid, admits_iff_lt hL hd]
    refine and_congr_right fun _ => and_congr_right fun _ => and_congr_right fun hlt => ?_
    exact and_congr (ihc (by omega) ..) (ih hd ..)

theorem fileOk_admits_iff {L : Limits} (hL : L.maxDepth ≤ 255) (B : Bytes) (hd : Header)
    (f : Forest) : FileOk L (admits L) B hd f ↔ FileOk L (· < L.maxDepth.toNat) B hd f :=
  ⟨fun ⟨h1, h2, h3⟩ => ⟨h1, (valid_admits_iff hL (Nat.zero_le _) f _ _).mp h2, h3⟩,
    fun ⟨h1, h2, h3⟩ => ⟨h1, (valid_admits_iff hL (Nat.zero_le _) f _ _).mpr h2, h3⟩⟩

/-- A status at the end is `OK` only if it was. -/
theorem atEnd_eq_ok_iff (finish : Bool) (status : Status) :
    atEnd finish status = .ok ↔ status = .ok := by
  unfold atEnd
  split
  · rename_i h
    rw [h.1]
    decide
  · rfl

/-- What is accepted is a file. -/
theorem fileOk_of_ok {I : σ → Prop} {L : Limits} {callbacks : Callbacks σ} {user : σ} {B : Bytes}
    {finish : Bool} (hc : (Parsing.start (some L) callbacks user (Stream'.const true)).Calm I)
    (hmax : B.length ≤ sizeMax)
    (hok : (parseTideBytes B finish (some L) callbacks user (Stream'.const true)).1 = .ok) :
    ∃ hd f, FileOk L (admits L) B hd f := by
  obtain ⟨e, he, hr⟩ | ⟨hd, f, p, r, hhd, hf, ⟨rest, rfl⟩, -, -, hends, hr⟩ :=
    parseTideBytes_cases hc hmax finish
  · rw [hr, atEnd_eq_ok_iff] at hok
    exact absurd hok (validateHeader_error he).1
  · rw [hr, atEnd_eq_ok_iff] at hok
    have hrest : rest = [] := by
      cases hends with
      | done hend =>
        rw [List.length_append, List.length_append, hd.length_bytes hhd.uuid_length] at hend
        exact List.eq_nil_of_length_eq_zero (by omega)
      | more => cases hok
      | refused _ _ hrej => exact absurd hok hrej.1
    exact ⟨hd, f, hhd, hf, by rw [hrest, List.append_nil]⟩

/-- **The parser accepts exactly the files and reports exactly their forests**: it
returns `OK` if and only if the bytes are a valid header and a well-formed forest,
and then a client has heard the events of the forest. -/
theorem parseTideBytes_ok_iff_file (B : Bytes) (hB : B.length ≤ sizeMax) (L : Limits)
    (hL : L.maxDepth ≤ 255) (callbacks : Callbacks σ) (trace : σ → List Event)
    (hcb : callbacks.Traces trace) (user : σ) :
    ((parseTideBytes B true (some L) callbacks user (Stream'.const true)).1 = .ok ↔
        ∃ hd f, FileOk L (· < L.maxDepth.toNat) B hd f) ∧
      ∀ hd f, FileOk L (· < L.maxDepth.toNat) B hd f →
        trace (parseTideBytes B true (some L) callbacks user (Stream'.const true)).2.user =
          trace user ++ (f.events 72 0).filter callbacks.hears := by
  have hc := hcb.calm (some L) user
  have hfile : ∀ hd f, FileOk L (· < L.maxDepth.toNat) B hd f → FileOk L (admits L) B hd f :=
    fun hd f =>
    (fileOk_admits_iff hL B hd f).mpr
  refine ⟨⟨fun hok => ?_, fun ⟨hd, f, h⟩ => ?_⟩, fun hd f h => ?_⟩
  · obtain ⟨hd, f, h⟩ := fileOk_of_ok hc hB hok
    exact ⟨hd, f, (fileOk_admits_iff hL B hd f).mp h⟩
  · obtain ⟨p, hparse, -⟩ := parseTideBytes_file hc hB (hfile hd f h) true
    rw [hparse]
  · obtain ⟨p, hparse, hfol, -⟩ := parseTideBytes_file hc hB (hfile hd f h) true
    rw [hparse, hfol.user]
    exact hcb.deliver user (f.events 72 0)

/-- A small file: a group with a stream and a packet of it. -/
def sampleForest : Forest :=
  .group ⟨RecordType.group.code, 0, 3, 0, 0⟩ ⟨1, 0, 0⟩
    (.leaf ⟨RecordType.streamDesc.code, 0, 3, 0, 1⟩ (streamFixed ⟨1, 0, 2, 7, ⟨1, 1000⟩, []⟩ ++
      [2, 0xca, 0xfe])
      (.leaf ⟨RecordType.packet.code, 0, 3, 0, 2⟩ (packetFixed ⟨1, 0, 0, 0, 0, 40, 1, []⟩ ++
        [1, 0x2a]) .nil))
    .nil

/-- The header of the small file. -/
def sampleHeader : Header := ⟨0, List.replicate 16 1, ⟨1, 1000⟩, 0, 0, 0⟩

/-- The bytes of the small file. -/
def sampleFile : Bytes := sampleHeader.bytes ++ sampleForest.bytes

theorem sampleFile_is_file :
    (parseTideBytes sampleFile true (some limitsDefault) recorder [] (Stream'.const true)).1 = .ok ∧
    ∃ hd f, FileOk limitsDefault (· < limitsDefault.maxDepth.toNat) sampleFile hd f := by
  have hok : (parseTideBytes sampleFile true (some limitsDefault) recorder []
      (Stream'.const true)).1 = .ok := by decide +kernel
  exact ⟨hok, (parseTideBytes_ok_iff_file sampleFile (by decide +kernel) limitsDefault
    (by decide) recorder id recorder_traces []).1.mp hok⟩

end Tide
