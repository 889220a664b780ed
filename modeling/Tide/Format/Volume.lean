import Tide.Format.Once

/-!
# What is delivered is no more than the bytes

An event has a volume: the bytes that its record has at least for it, 14 for an announcement and,
for a stream or a packet, those of its configuration or payload and of the fields before it.
However the records are nested, the events that a client is told of some bytes have in all no more
volume than the bytes behind the header (`delivered_volume`).
-/

namespace Tide

open Theory

variable {σ : Type}

/-- The bytes of a record that an event takes at least: of an announcement the prefix and the
checksum, of a stream or a packet the payload. -/
def Event.volume : Event → ℕ
  | .record _ => 14
  | .stream s => 25 + s.config.length
  | .packet k => 45 + k.payload.length

/-- The volume of some events. -/
def volume (events : List Event) : ℕ := (events.map Event.volume).sum

@[simp] theorem volume_nil : volume [] = 0 := rfl

@[simp] theorem volume_cons (e : Event) (events : List Event) :
    volume (e :: events) = e.volume + volume events := by simp [volume]

@[simp] theorem volume_append (events events' : List Event) :
    volume (events ++ events') = volume events + volume events' := by
  simp [volume]

/-- A stream takes the payload of its record. -/
theorem StreamInfo.Encodes.volume_le {s : StreamInfo} {payload : Bytes} (h : s.Encodes payload) :
    (Event.stream s).volume ≤ payload.length := by
  obtain ⟨-, reserved, hreserved, rfl⟩ := h
  have hlen := (length_writeUleb128 (UInt64.ofNat s.config.length)).1
  simp [Event.volume, hreserved]
  omega

/-- A packet takes the payload of its record. -/
theorem PacketInfo.Encodes.volume_le {k : PacketInfo} {payload : Bytes} (h : k.Encodes payload) :
    (Event.packet k).volume ≤ payload.length := by
  obtain ⟨-, rfl⟩ := h
  have hlen := (length_writeUleb128 (UInt64.ofNat k.payload.length)).1
  simp [Event.volume]
  omega

/-- **The volume of what is delivered from a range** is at most its length; the children of a
group take part of its payload. -/
theorem Heard.volume_le {data : Bytes} {limits : Limits} {level lo hi : ℕ}
    {ts ts' : List TrackSnapshot} {ds : List Delivery}
    (h : Heard data limits level lo hi ts ds ts') : volume (eventsOf ds) ≤ hi - lo := by
  have hann : ∀ {level offset : ℕ} {h : RecordHead} {payload : Bytes},
      (announcement level offset h payload).event.volume = 14 := rfl
  induction h with
  | nil => exact Nat.zero_le _
  | @record _ _ _ _ h payload _ _ _ hf _ ih =>
    have hlo := hf.lo_le
    have hhi := hf.le_hi
    have hge := h.size_ge payload.length
    rw [eventsOf_cons, volume_cons, hann]
    omega
  | @stream _ _ _ _ h payload _ _ _ s hf _ hread _ _ ih =>
    have hlo := hf.lo_le
    have hhi := hf.le_hi
    have hge := h.size_ge payload.length
    have hle := ((wholePayload_eq_some_iff decodes_stream payload s).mp hread).volume_le
    rw [eventsOf_cons, eventsOf_cons, volume_cons, volume_cons, hann]
    dsimp only
    omega
  | @packet _ _ _ _ h payload _ _ _ k hf _ hread _ _ ih =>
    have hlo := hf.lo_le
    have hhi := hf.le_hi
    have hge := h.size_ge payload.length
    have hle := ((wholePayload_eq_some_iff decodes_packet payload k).mp hread).volume_le
    rw [eventsOf_cons, eventsOf_cons, volume_cons, volume_cons, hann]
    dsimp only
    omega
  | @group _ _ _ _ h payload _ _ _ dc ds hf _ _ _ _ ihc ih =>
    have hlo := hf.lo_le
    have hhi := hf.le_hi
    have hge := h.size_ge payload.length
    rw [eventsOf_cons, eventsOf_append, volume_cons, volume_append, hann]
    omega

/-! ### The parser and the decoder -/

/-- What is delivered of any bytes, whatever comes of them. -/
theorem heard_of_parse {B : Bytes} (hB : B.length ≤ sizeMax) (finish : Bool) (L : Limits)
    (callbacks : Callbacks σ) (user : σ) (allocs : Stream' Bool) :
    ∃ ds, Heard B L 0 72 B.length [] ds (parseTideBytes B finish (some L) callbacks user
      allocs).2.tracks ∧
      (parseTideBytes B finish (some L) callbacks user allocs).2.user = callbacks.deliver user
        (eventsOf ds) := by
  cases hval : validateHeader B L with
  | error e =>
    rw [parseTideBytes_of_error hval]
    exact ⟨[], .nil, rfl⟩
  | ok u =>
    obtain ⟨ds, hv⟩ := parseRecords_visits 0
      { Parsing.start (some L) callbacks user allocs with validPrefix := 72 } rfl
      (length_of_validateHeader hval) (Nat.le_refl _) hB
    rw [parseTideBytes_of_ok hval]
    exact ⟨ds, hv.heard, hv.user⟩

/-- A session in which no callback is retried. -/
theorem Session.feeds {L : Limits} {callbacks : Callbacks σ} {heard : σ → List Event}
    {answer : List Event → Event → Status} {d : Decoder σ} {ds : List Delivery}
    (h : Session L callbacks heard d ds) (hcb : callbacks.Answers heard answer)
    (pieces : List Piece)
    (hkeeps :
      EachBehind (fun fed piece => KeepsTruncated heard answer (d.feeds fed) piece) pieces) :
    ∃ ds', Session L callbacks heard (d.feeds pieces) ds' := by
  induction pieces generalizing d ds with
  | nil => exact ⟨ds, h⟩
  | cons piece pieces ih =>
    rw [eachBehind_cons] at hkeeps
    obtain ⟨ds', h'⟩ := (h.feed_of_keeps hcb hkeeps.1).1
    exact ih h' hkeeps.2

/-- The bytes that a decoder keeps are among those that were fed. -/
theorem length_feeds_le (d : Decoder σ) (pieces : List Piece) :
    (d.feeds pieces).buffer.data.length ≤ d.buffer.data.length +
      (pieces.map fun piece => piece.data.length).sum := by
  induction pieces generalizing d with
  | nil => exact Nat.le_refl _
  | cons piece pieces ih =>
    have hstep : (d.feed piece).2.buffer.data.length ≤ d.buffer.data.length +
        piece.data.length := by
      obtain hb | hb := d.feed_buffer piece
      · rw [hb]
        omega
      · obtain ⟨-, ⟨-, happ, -⟩ | ⟨-, happ⟩⟩ := bufferAppend_cases d.buffer piece.data
        · rw [hb, happ, List.length_append]
        · rw [hb, happ]
          omega
    have hrest := ih (d.feed piece).2
    rw [List.map_cons, List.sum_cons]
    change ((d.feed piece).2.feeds pieces).buffer.data.length ≤ _
    omega

/-- The volume of a session in which no callback is retried. -/
theorem Session.volume_le {L : Limits} {callbacks : Callbacks σ} {heard : σ → List Event}
    {answer : List Event → Event → Status} {d : Decoder σ} (h : Session L callbacks heard d [])
    (hempty : d.buffer.data = []) (hcb : callbacks.Answers heard answer) (pieces : List Piece)
    (hkeeps :
      EachBehind (fun fed piece => KeepsTruncated heard answer (d.feeds fed) piece) pieces) :
    volume (heard (d.feeds pieces).user) ≤
      (pieces.map fun piece => piece.data.length).sum - 72 := by
  obtain ⟨ds, hsession⟩ := h.feeds hcb pieces hkeeps
  have hvolume := hsession.ledger.heard.volume_le
  have hlength := length_feeds_le d pieces
  rw [hempty, List.length_nil] at hlength
  rw [hsession.heard]
  omega

/-- **Nothing is amplified.** Whatever the client answers and whichever allocations succeed, the
events that the parser delivers have no more volume than the bytes behind the header; and neither
have those of a session, where no callback is retried. -/
theorem delivered_volume (L : Limits) {callbacks : Callbacks σ} {heard : σ → List Event}
    {answer : List Event → Event → Status} (hcb : callbacks.Answers heard answer) (user : σ)
    (huser : heard user = []) (allocs bufferAllocs : Stream' Bool) :
    (∀ (B : Bytes) (finish : Bool), B.length ≤ sizeMax →
      volume (heard (parseTideBytes B finish (some L) callbacks user allocs).2.user) ≤
        B.length - 72) ∧
    ∀ pieces : List Piece, let d := decoderInit (some L) callbacks user allocs bufferAllocs
      EachBehind (fun fed piece => KeepsTruncated heard answer (d.feeds fed) piece) pieces →
        volume (heard (d.feeds pieces).user) ≤
          (pieces.map fun piece => piece.data.length).sum - 72 := by
  constructor
  · intro B finish hB
    obtain ⟨ds, hheard, huser'⟩ := heard_of_parse hB finish L callbacks user allocs
    rw [huser', hcb.deliver, huser, List.nil_append]
    exact hheard.volume_le
  · intro pieces d hkeeps
    have hstart : Session L callbacks heard d [] := ⟨ledger_decoderInit .., huser⟩
    exact hstart.volume_le rfl hcb pieces hkeeps

/-- Callbacks that refuse packets. -/
def refusesPackets : List Event → Event → Status
  | _, .packet _ => .io
  | _, _ => .ok

/-- The small file in two pieces, to a client that refuses its packet. -/
theorem sampleFile_volume :
    let d := decoderInit (some limitsDefault) (respondent refusesPackets) [] (Stream'.const true)
      (Stream'.const true)
    volume (d.feeds [⟨sampleFile.take 100, false⟩, ⟨sampleFile.drop 100, true⟩]).user ≤ 140 := by
  intro d
  have hnever : ∀ heard e, refusesPackets heard e ≠ .truncated := by
    intro heard e
    cases e <;> simp [refusesPackets]
  have hlength : (([⟨sampleFile.take 100, false⟩, ⟨sampleFile.drop 100, true⟩] : List Piece).map
      fun piece => piece.data.length).sum - 72 = 140 := by
    decide +kernel
  rw [← hlength]
  exact (delivered_volume limitsDefault (respondent_answers refusesPackets) [] rfl
    (Stream'.const true) (Stream'.const true)).2 _
    fun fed piece rest _ _ before e _ _ => hnever before e

end Tide
