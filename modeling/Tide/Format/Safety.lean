import Tide.Format.File
import Tide.Format.Session

/-!
# What a client hears

The trace of a session, from its deliveries. Whatever was fed, in whatever pieces, and
whether it was accepted or not, the events that a client hears are safe to use
(`decoderFeeds_safe`): packets come behind their descriptors, descriptors are distinct
and not too many, and what a stream or a packet refers to lies in its own record.
-/

namespace Tide

open Theory

variable {σ : Type}

/-! ### Packets behind their descriptors -/

/-- Each packet has the key of a stream before it or a known one. -/
def Preceded (known : List (UInt32 × UInt32)) (events : List Event) : Prop :=
  ∀ pre k post, events = pre ++ .packet k :: post →
    k.key ∈ known ++ (streamsOf pre).map StreamInfo.key

section

variable {known : List (UInt32 × UInt32)} {events events' : List Event}

theorem preceded_nil (known : List (UInt32 × UInt32)) : Preceded known [] := by
  intro pre k post h
  simp at h

theorem Preceded.record (h : Preceded known events) (e : RecordEvent) :
    Preceded known (.record e :: events) := by
  intro pre k post heq
  cases pre with
  | nil => cases heq
  | cons a pre =>
    obtain ⟨rfl, rfl⟩ := List.cons.inj heq
    exact h pre k post rfl

theorem Preceded.stream {s : StreamInfo} (h : Preceded (known ++ [s.key]) events) :
    Preceded known (.stream s :: events) := by
  intro pre k post heq
  cases pre with
  | nil => cases heq
  | cons a pre =>
    obtain ⟨rfl, rfl⟩ := List.cons.inj heq
    have hk := h pre k post rfl
    rwa [List.append_assoc] at hk

theorem Preceded.packet {k : PacketInfo} (hk : k.key ∈ known) (h : Preceded known events) :
    Preceded known (.packet k :: events) := by
  intro pre k' post heq
  cases pre with
  | nil =>
    obtain ⟨hkk, -⟩ := List.cons.inj heq
    cases hkk
    exact List.mem_append_left _ hk
  | cons a pre =>
    obtain ⟨rfl, rfl⟩ := List.cons.inj heq
    exact h pre k' post rfl

theorem Preceded.append (h : Preceded known events)
    (h' : Preceded (known ++ (streamsOf events).map StreamInfo.key) events') :
    Preceded known (events ++ events') := by
  intro pre k post heq
  obtain ⟨mid, rfl, hrest⟩ | ⟨mid, rfl, hrest⟩ := List.append_eq_append_iff.mp heq
  · have hk := h' mid k post hrest
    rw [streamsOf_append, List.map_append, ← List.append_assoc]
    exact hk
  · cases mid with
    | nil =>
      rw [List.append_nil] at h'
      have hk := h' [] k post hrest.symm
      rwa [show streamsOf [] = [] from rfl, List.map_nil, List.append_nil] at hk
    | cons a mid =>
      obtain ⟨rfl, -⟩ := List.cons.inj hrest
      exact h pre k mid rfl

end

/-! ### What deliveries have in common -/

/-- The events of some deliveries. -/
def eventsOf (ds : List Delivery) : List Event := ds.map Delivery.event

@[simp] theorem eventsOf_nil : eventsOf [] = [] := rfl

@[simp] theorem eventsOf_cons (d : Delivery) (ds : List Delivery) :
    eventsOf (d :: ds) = d.event :: eventsOf ds := rfl

@[simp] theorem eventsOf_append (ds ds' : List Delivery) :
    eventsOf (ds ++ ds') = eventsOf ds ++ eventsOf ds' := List.map_append ..

/-- What a delivery says of its record. -/
def Delivery.Genuine (d : Delivery) : Prop :=
  match d.event with
  | .record e => e = (d.head.frameAt d.offset d.payload.length (UInt8.ofNat d.level)).event
  | .stream s =>
      d.head.type = RecordType.streamDesc.code ∧ s.Encodes d.payload ∧
        rationalIsValid s.timeBase = true
  | .packet k => d.head.type = RecordType.packet.code ∧ k.Encodes d.payload ∧ ¬ k.duration < 0

namespace Heard

variable {data : Bytes} {limits : Limits} {level lo hi : ℕ} {ts ts' : List TrackSnapshot}
    {ds : List Delivery}

/-- The track table grows by the streams. -/
theorem tracks_eq (h : Heard data limits level lo hi ts ds ts') :
    ts' = ts ++ (streamsOf (eventsOf ds)).map StreamInfo.snapshot := by
  induction h with
  | nil => simp [eventsOf, streamsOf]
  | record _ _ ih => exact ih
  | stream _ _ _ _ _ ih => rw [ih, List.append_assoc]; rfl
  | packet _ _ _ _ _ ih => exact ih
  | group _ _ _ _ _ ihc ih =>
    rw [ih, ihc, List.append_assoc, ← List.map_append, ← streamsOf_append, ← eventsOf_append]
    rfl

/-- The table stays without duplicates and within the limit. -/
theorem tracks_ok (h : Heard data limits level lo hi ts ds ts')
    (hts : (ts.map TrackSnapshot.key).Nodup ∧ ts.length ≤ limits.maxTracks.toNat) :
    (ts'.map TrackSnapshot.key).Nodup ∧ ts'.length ≤ limits.maxTracks.toNat := by
  induction h with
  | nil => exact hts
  | record _ _ ih | packet _ _ _ _ _ ih => exact ih hts
  | stream _ _ _ hok _ ih =>
    obtain ⟨-, hfind, hroom⟩ := hok
    refine ih ⟨?_, by simp; omega⟩
    rw [List.map_append, List.map_singleton, List.nodup_append]
    refine ⟨hts.1, by simp, ?_⟩
    have hnew := (findTrack_eq_none_iff ..).mp hfind
    rintro key hkey _ hs rfl
    rw [List.mem_singleton.mp hs] at hkey
    exact hnew hkey
  | group _ _ _ _ _ ihc ih => exact ih (ihc hts)

/-- Each packet comes behind its descriptor, or its descriptor is in the table. -/
theorem described (h : Heard data limits level lo hi ts ds ts') :
    Preceded (ts.map TrackSnapshot.key) (eventsOf ds) := by
  induction h with
  | nil => exact preceded_nil _
  | record _ _ ih => exact ih.record _
  | stream _ _ _ _ _ ih =>
    rw [List.map_append] at ih
    exact (Preceded.stream ih).record _
  | packet _ _ _ hok _ ih =>
      exact (Preceded.packet ((findTrack_isSome_iff ..).mp hok.2) ih).record _
  | group _ _ _ hc _ ihc ih =>
    rw [hc.tracks_eq, List.map_append, List.map_map] at ih
    rw [eventsOf, List.map_cons, List.map_append]
    exact (ihc.append ih).record _

/-- Every delivery says what its record says. -/
theorem genuine (h : Heard data limits level lo hi ts ds ts') : ∀ d ∈ ds, d.Genuine := by
  induction h with
  | nil => simp
  | record _ _ ih => exact List.forall_mem_cons.mpr ⟨rfl, ih⟩
  | stream _ ht hread hok _ ih =>
    exact List.forall_mem_cons.mpr ⟨rfl, List.forall_mem_cons.mpr
      ⟨⟨ht, (wholePayload_eq_some_iff decodes_stream ..).mp hread, hok.1⟩, ih⟩⟩
  | packet _ ht hread hok _ ih =>
    exact List.forall_mem_cons.mpr ⟨rfl, List.forall_mem_cons.mpr
      ⟨⟨ht, (wholePayload_eq_some_iff decodes_packet ..).mp hread, hok.1⟩, ih⟩⟩
  | group _ _ _ _ _ ihc ih =>
      exact List.forall_mem_cons.mpr ⟨rfl, List.forall_mem_append.mpr ⟨ihc, ih⟩⟩

/-- Every record that a delivery comes from lies in the range. -/
theorem found (h : Heard data limits level lo hi ts ds ts') :
    ∀ d ∈ ds, Found data limits lo hi d.offset d.head d.payload := by
  induction h with
  | nil => simp
  | record hf _ ih =>
    have hrest := fun d hd => (ih d hd).widen (hf.lo_le.trans (Nat.le_add_right ..)) (Nat.le_refl _)
    exact List.forall_mem_cons.mpr ⟨hf, hrest⟩
  | stream hf _ _ _ _ ih | packet hf _ _ _ _ ih =>
    have hrest := fun d hd => (ih d hd).widen (hf.lo_le.trans (Nat.le_add_right ..)) (Nat.le_refl _)
    exact List.forall_mem_cons.mpr ⟨hf, List.forall_mem_cons.mpr ⟨hf, hrest⟩⟩
  | group hf _ _ _ _ ihc ih =>
    have hchildren := fun d hd => (ihc d hd).widen
      (hf.lo_le.trans (by rw [Nat.add_assoc]; exact Nat.le_add_right ..)) hf.children_le
    have hrest := fun d hd => (ih d hd).widen (hf.lo_le.trans (Nat.le_add_right ..)) (Nat.le_refl _)
    exact List.forall_mem_cons.mpr ⟨hf, List.forall_mem_append.mpr ⟨hchildren, hrest⟩⟩

end Heard

/-! ### Safe traces -/

/-- The frame of the record that a delivery comes from. -/
def Delivery.frame (d : Delivery) : RecordFrame :=
  d.head.frameAt d.offset d.payload.length (UInt8.ofNat d.level)

/-- The bytes lie in the payload of the record, behind the length it declares for them. -/
def Delivery.Carries (data : Bytes) (d : Delivery) (bs : Bytes) : Prop :=
  ∃ at_, d.frame.payloadOffset ≤ at_ ∧ bs.length < 2 ^ 64 ∧
    Lies data at_ (writeUleb128 (UInt64.ofNat bs.length) ++ bs) ∧
    at_ + (writeUleb128 (UInt64.ofNat bs.length)).length + bs.length ≤ d.frame.payloadEnd

/-- **What a client may rely on.** -/
structure SafeTrace (L : Limits) (data : Bytes) (ds : List Delivery) : Prop where
  /-- A packet comes behind a descriptor of its track and generation. -/
  described : ∀ pre k post, eventsOf ds = pre ++ .packet k :: post →
    k.key ∈ (streamsOf pre).map StreamInfo.key
  /-- No track and generation is described twice. -/
  distinct : ((streamsOf (eventsOf ds)).map StreamInfo.key).Nodup
  few : (streamsOf (eventsOf ds)).length ≤ L.maxTracks.toNat
  /-- Time bases are positive and reduced. -/
  timeBase : ∀ s ∈ streamsOf (eventsOf ds), 0 < s.timeBase.numerator.toNat ∧
    0 < s.timeBase.denominator.toNat ∧
    Nat.gcd s.timeBase.numerator.toNat s.timeBase.denominator.toNat = 1
  duration : ∀ k ∈ packetsOf (eventsOf ds), 0 ≤ k.duration
  /-- An event comes from a record that lies in the bytes, with its zero padding and its
  checksum. -/
  record : ∀ d ∈ ds, Lies data d.offset (d.head.bytes d.payload)
  announcement : ∀ d ∈ ds, ∀ e, d.event = .record e → e = d.frame.event
  config : ∀ d ∈ ds, ∀ s, d.event = .stream s → d.head.type = RecordType.streamDesc.code ∧
    d.Carries data s.config
  payload : ∀ d ∈ ds, ∀ k, d.event = .packet k → d.head.type = RecordType.packet.code ∧
    d.Carries data k.payload

/-- Bytes at the end of a payload, behind their length. -/
theorem Delivery.carries_of_payload {data : Bytes} {d : Delivery}
    (hl : Lies data d.offset (d.head.bytes d.payload)) (pre : Bytes) {bs : Bytes}
    (hbs : bs.length < 2 ^ 64)
    (hp : d.payload = pre ++ (writeUleb128 (UInt64.ofNat bs.length) ++ bs)) :
    d.Carries data bs := by
  have hpay := d.head.lies_payload hl
  have hlen := congrArg List.length hp
  rw [hp, lies_append_iff] at hpay
  simp only [List.length_append] at hlen
  rw [← hp] at hpay
  refine ⟨_, Nat.le_add_right _ pre.length, hbs, hpay.2, ?_⟩
  simp only [Delivery.frame, RecordHead.frameAt]
  omega

/-- **What is delivered is safe.** -/
theorem Heard.safe {L : Limits} {data : Bytes} {lo hi : ℕ} {ts : List TrackSnapshot}
    {ds : List Delivery} (h : Heard data L 0 lo hi [] ds ts) : SafeTrace L data ds := by
  have htracks := h.tracks_eq
  have hok := h.tracks_ok ⟨List.nodup_nil, Nat.zero_le _⟩
  have hkeys : ts.map TrackSnapshot.key = (streamsOf (eventsOf ds)).map StreamInfo.key := by
    rw [htracks, List.nil_append, List.map_map]
    rfl
  have hstream : ∀ s ∈ streamsOf (eventsOf ds), ∃ d ∈ ds, d.event = .stream s := by
    intro s hs
    obtain ⟨e, he, heq⟩ := List.mem_filterMap.mp hs
    obtain ⟨d, hd, rfl⟩ := List.mem_map.mp he
    refine ⟨d, hd, ?_⟩
    cases hev : d.event <;> rw [hev] at heq <;> cases heq
    rfl
  have hpacket : ∀ k ∈ packetsOf (eventsOf ds), ∃ d ∈ ds, d.event = .packet k := by
    intro k hk
    obtain ⟨e, he, heq⟩ := List.mem_filterMap.mp hk
    obtain ⟨d, hd, rfl⟩ := List.mem_map.mp he
    refine ⟨d, hd, ?_⟩
    cases hev : d.event <;> rw [hev] at heq <;> cases heq
    rfl
  refine ⟨h.described, ?_, ?_, ?_, ?_, fun d hd => (h.found d hd).lies, ?_, ?_, ?_⟩
  · rw [← hkeys]
    exact hok.1
  · have hlen := congrArg List.length hkeys
    rw [List.length_map, List.length_map] at hlen
    rw [← hlen]
    exact hok.2
  · intro s hs
    obtain ⟨d, hd, hev⟩ := hstream s hs
    have hg := h.genuine d hd
    rw [Delivery.Genuine, hev] at hg
    exact (rationalIsValid_iff _).mp hg.2.2
  · intro k hk
    obtain ⟨d, hd, hev⟩ := hpacket k hk
    have hg := h.genuine d hd
    rw [Delivery.Genuine, hev] at hg
    exact Int64.not_lt.mp hg.2.2
  · intro d hd e hev
    have hg := h.genuine d hd
    rw [Delivery.Genuine, hev] at hg
    exact hg
  · intro d hd s hev
    have hg := h.genuine d hd
    rw [Delivery.Genuine, hev] at hg
    obtain ⟨ht, ⟨hlen, r, -, hpay⟩, -⟩ := hg
    refine ⟨ht, Delivery.carries_of_payload (h.found d hd).lies
      (writeU32 s.trackId ++
        (writeU32 s.generation ++ (writeU16 s.mediaKind ++ (r ++ (writeU32 s.codecTag ++
        (writeU32 s.timeBase.numerator ++ writeU32 s.timeBase.denominator)))))) hlen ?_⟩
    rw [hpay]
    simp only [List.append_assoc]
  · intro d hd k hev
    have hg := h.genuine d hd
    rw [Delivery.Genuine, hev] at hg
    obtain ⟨ht, ⟨hlen, hpay⟩, -⟩ := hg
    refine ⟨ht, Delivery.carries_of_payload (h.found d hd).lies
      (writeU32 k.trackId ++
        (writeU32 k.generation ++ (writeU64 k.packetSeq ++ (writeI64 k.dts ++ (writeI64 k.pts ++
        (writeI64 k.duration ++ writeU32 k.flags)))))) hlen ?_⟩
    rw [hpay]
    simp only [List.append_assoc]

/-- With callbacks that return `OK`, a feed keeps the ledger. -/
theorem Ledger.feed_of_traces {L : Limits} {callbacks : Callbacks σ} {trace : σ → List Event}
    (hcb : callbacks.Traces trace) {d : Decoder σ} {ds : List Delivery}
    (h : Ledger L callbacks d ds) (piece : Piece) :
    ∃ new, Ledger L callbacks (d.feed piece).2 (ds ++ new) ∧
      trace (d.feed piece).2.user = trace d.user ++ (eventsOf new).filter callbacks.hears := by
  obtain ⟨new, hafter, -, ⟨hledger, -⟩ | ⟨⟨before, last, -, -, -, htrunc⟩, -⟩⟩ := h.feed piece
  · refine ⟨new, hledger, ?_⟩
    rw [eventsOf, ← hcb.deliver]
    obtain heq | ⟨f, e, hf, heq⟩ := hafter
    · rw [heq]
    · rw [heq, hcb.error f hf]
  · rw [(hcb.call _ _).1] at htrunc
    cases htrunc

/-- **What a client hears is safe**: whatever is fed, in whatever pieces, accepted or not, with
any limits and any outcomes of the allocations. -/
theorem decoderFeeds_safe (L : Limits) {callbacks : Callbacks σ} {trace : σ → List Event}
    (hcb : callbacks.Traces trace) (user : σ) (allocs bufferAllocs : Stream' Bool)
    (pieces : List Piece) :
    let d :=
      (answers Decoder.feed (decoderInit (some L) callbacks user allocs bufferAllocs) pieces).2
    ∃ (taken : List Bytes) (ds : List Delivery), taken.Sublist (pieces.map Piece.data) ∧
      d.buffer.data = taken.flatten ∧
      trace d.user = trace user ++ (eventsOf ds).filter callbacks.hears ∧
        SafeTrace L d.buffer.data ds := by
  intro d
  obtain ⟨taken, hsub, hdata⟩ :=
    Decoder.feeds_buffer (decoderInit (some L) callbacks user allocs bufferAllocs) pieces
  have hinv : ∃ ds, Ledger L callbacks d ds ∧
      trace d.user = trace user ++ (eventsOf ds).filter callbacks.hears := by
    refine answers_invariant (I := fun d => ∃ ds, Ledger L callbacks d ds ∧
      trace d.user = trace user ++ (eventsOf ds).filter callbacks.hears) ?_ ⟨[],
        ledger_decoderInit .., ?_⟩ pieces
    · rintro d piece ⟨ds, hledger, htrace⟩
      obtain ⟨new, hnew, hheard⟩ := hledger.feed_of_traces hcb piece
      refine ⟨ds ++ new, hnew, ?_⟩
      rw [hheard, htrace, eventsOf_append, List.filter_append, List.append_assoc]
    · exact (List.append_nil _).symm
  obtain ⟨ds, hledger, htrace⟩ := hinv
  exact ⟨taken, ds, hsub, hdata, htrace, hledger.heard.safe⟩

/-- The small file in two pieces, and a third one that comes too late. -/
theorem sampleFile_safe :
    ∃ ds, (answers Decoder.feed (decoderInit (some limitsDefault) recorder [] (Stream'.const true)
      (Stream'.const true))
        [⟨sampleFile.take 100, false⟩, ⟨sampleFile.drop 100, true⟩, ⟨[0], false⟩]).2.user =
          eventsOf ds ∧
      SafeTrace limitsDefault sampleFile ds ∧ (streamsOf (eventsOf ds)).length = 1 ∧
        (packetsOf (eventsOf ds)).length = 1 := by
  obtain ⟨taken, ds, -, -, htrace, hsafe⟩ :=
    decoderFeeds_safe limitsDefault recorder_traces [] (Stream'.const true)
    (Stream'.const true) [⟨sampleFile.take 100, false⟩, ⟨sampleFile.drop 100, true⟩, ⟨[0], false⟩]
  rw [List.filter_eq_self.mpr fun e _ => by cases e <;> rfl] at htrace
  have hdata : (answers Decoder.feed (decoderInit (some limitsDefault) recorder []
      (Stream'.const true) (Stream'.const true)) [⟨sampleFile.take 100, false⟩,
        ⟨sampleFile.drop 100, true⟩, ⟨[0], false⟩]).2.buffer.data = sampleFile := by
    decide +kernel
  have hcount : (streamsOf (answers Decoder.feed (decoderInit (some limitsDefault) recorder []
      (Stream'.const true) (Stream'.const true)) [⟨sampleFile.take 100, false⟩,
        ⟨sampleFile.drop 100, true⟩, ⟨[0], false⟩]).2.user).length = 1 ∧
          (packetsOf (answers Decoder.feed (decoderInit (some limitsDefault) recorder []
            (Stream'.const true) (Stream'.const true)) [⟨sampleFile.take 100, false⟩,
              ⟨sampleFile.drop 100, true⟩, ⟨[0], false⟩]).2.user).length = 1 := by
    decide +kernel
  have heq := htrace
  simp only [id_eq, List.nil_append] at heq
  rw [heq] at hcount
  rw [hdata] at hsafe
  exact ⟨ds, heq, hsafe, hcount⟩

end Tide
