import Tide.Format.Loop
import Tide.Format.Forest

/-!
# Processing one record

What `tide_process_record` does with callbacks that return `OK` and allocations that
succeed (`Parsing.Calm`): a record that is well formed is announced, with its
stream or packet, and leaves its track in the table (`Parsing.Follows`); any
other is refused. `processRecord_leaf` says so of the records that are not groups,
and `processRecord_group` reduces a group to its children.
-/

namespace Tide

open Theory

variable {σ : Type}

/-- Callbacks that return `OK` and preserve `I`, which holds of the user's state, and
allocations that succeed. -/
structure Parsing.Calm (I : σ → Prop) (p : Parsing σ) : Prop where
  call : ∀ user event, I user → (p.callbacks.call user event).1 = .ok ∧
    I (p.callbacks.call user event).2
  user : I p.user
  allocs : p.allocs = Stream'.const true

/-- The user's state behind some events. -/
def Callbacks.deliver (callbacks : Callbacks σ) (user : σ) (events : List Event) : σ :=
  events.foldl (fun user event => (callbacks.call user event).2) user

/-- From `p` to `p'` the events were delivered and the tracks added to the table. -/
structure Parsing.Follows (p p' : Parsing σ) (events : List Event)
    (tracks : List TrackSnapshot) : Prop where
  limits : p'.limits = p.limits
  callbacks : p'.callbacks = p.callbacks
  user : p'.user = p.callbacks.deliver p.user events
  tracks : p'.tracks = p.tracks ++ tracks
  allocs : p'.allocs = p.allocs
  error : p'.error = p.error

namespace Parsing

variable {I : σ → Prop} {p p' p'' : Parsing σ} {es es' : List Event} {ts ts' : List TrackSnapshot}

theorem Follows.refl (p : Parsing σ) : p.Follows p [] [] :=
  ⟨rfl, rfl, rfl, (List.append_nil _).symm, rfl, rfl⟩

theorem Follows.trans (h : p.Follows p' es ts) (h' : p'.Follows p'' es' ts') :
    p.Follows p'' (es ++ es') (ts ++ ts') where
  limits := h'.limits.trans h.limits
  callbacks := h'.callbacks.trans h.callbacks
  user := by
    rw [h'.user, h.user, h.callbacks, Callbacks.deliver, Callbacks.deliver, Callbacks.deliver,
      List.foldl_append]
  tracks := by rw [h'.tracks, h.tracks, List.append_assoc]
  allocs := h'.allocs.trans h.allocs
  error := h'.error.trans h.error

/-- The valid prefix is kept apart. -/
theorem Follows.withPrefix (h : p.Follows p' es ts) (v : ℕ) :
    p.Follows { p' with validPrefix := v } es ts :=
  ⟨h.limits, h.callbacks, h.user, h.tracks, h.allocs, h.error⟩

theorem Calm.deliver (hc : p.Calm I) (es : List Event) : I (p.callbacks.deliver p.user es) := by
  have hi := hc.user
  generalize p.user = u at hi
  induction es generalizing u with
  | nil => exact hi
  | cons e es ih => exact ih _ (hc.call u e hi).2

theorem Follows.calm (h : p.Follows p' es ts) (hc : p.Calm I) : p'.Calm I where
  call := by rw [h.callbacks]; exact hc.call
  user := by rw [h.user]; exact hc.deliver es
  allocs := h.allocs.trans hc.allocs

/-- A callback returns `OK`. -/
theorem Calm.notify (hc : p.Calm I) (event : Event) : p.notify event = (.ok, (p.notify event).2) :=
  Prod.ext (hc.call _ _ hc.user).1 rfl

theorem follows_notify (p : Parsing σ) (event : Event) : p.Follows (p.notify event).2 [event] [] :=
  ⟨rfl, rfl, rfl, (List.append_nil _).symm, rfl, rfl⟩

end Parsing

/-- A result that refuses the input, with the valid prefix as it was. -/
structure Refused (p : Parsing σ) (r : Status × Parsing σ) : Prop where
  rejects : r.1.Rejects
  validPrefix : r.2.validPrefix = p.validPrefix

theorem refused_fail (p : Parsing σ) {e : Error} (he : e.code.Rejects) : Refused p (p.fail e) :=
  ⟨he, rfl⟩

theorem Refused.ne_ok {p : Parsing σ} {r : Status × Parsing σ} (h : Refused p r) : r.1 ≠ .ok :=
  h.rejects.1

/-- A refusal behind a callback is a refusal. -/
theorem Refused.of_notify {p : Parsing σ} {event : Event} {r : Status × Parsing σ}
    (h : Refused (p.notify event).2 r) :
    Refused p r := ⟨h.rejects, h.validPrefix⟩

section

variable {I : σ → Prop} {p : Parsing σ}

/-- Adding a track: it is new and there is room, or the table stays as it is. -/
theorem addTrack_cases (hc : p.Calm I) (s : StreamInfo) (offset : ℕ) :
    (findTrack p.tracks s.trackId s.generation = none ∧
      p.tracks.length < p.limits.maxTracks.toNat) ∧
        (∃ p', addTrack p s offset = (.ok, p') ∧ p.Follows p' [] [s.snapshot] ∧
          p'.validPrefix = p.validPrefix) ∨
      ¬ (findTrack p.tracks s.trackId s.generation = none ∧
        p.tracks.length < p.limits.maxTracks.toNat) ∧
        (Refused p (addTrack p s offset) ∧
          (addTrack p s offset).2.error.code = (addTrack p s offset).1) := by
  unfold addTrack
  by_cases hfind : findTrack p.tracks s.trackId s.generation = none
  swap
  · rw [if_pos (Option.isSome_iff_ne_none.mpr hfind)]
    exact .inr ⟨fun h => hfind h.1, refused_fail p (show Status.format.Rejects by decide), rfl⟩
  rw [if_neg (by rw [hfind]; simp)]
  by_cases hroom : p.tracks.length ≥ p.limits.maxTracks.toNat
  · rw [if_pos hroom]
    exact .inr ⟨fun h => by omega, refused_fail p (show Status.resource.Rejects by decide), rfl⟩
  rw [if_neg hroom]
  refine .inl ⟨⟨hfind, by omega⟩, ?_⟩
  have hhead : p.allocs.head = true := by rw [hc.allocs]; rfl
  have htail : p.allocs.tail = p.allocs := by rw [hc.allocs]; rfl
  by_cases hcap : p.tracks.length = p.trackCapacity
  · rw [if_pos hcap, if_pos hhead]
    exact ⟨_, rfl, ⟨rfl, rfl, rfl, rfl, htail, rfl⟩, rfl⟩
  · rw [if_neg hcap]
    exact ⟨_, rfl, ⟨rfl, rfl, rfl, rfl, rfl, rfl⟩, rfl⟩

/-- **What `tide_emit_stream` does**: it adds the track and delivers the stream, or
refuses. -/
theorem emitStream_cases (hc : p.Calm I) (payload : Bytes) (frame : RecordFrame) :
    (∃ s p', wholePayload readStream payload = some s ∧ StreamOk p.limits p.tracks s ∧
      emitStream p payload frame = (.ok, p') ∧
        p.Follows p' [.stream s] [s.snapshot] ∧ p'.validPrefix = p.validPrefix) ∨
      (¬ ∃ s, wholePayload readStream payload = some s ∧ StreamOk p.limits p.tracks s) ∧
        Refused p (emitStream p payload frame) := by
  unfold emitStream
  cases hread : wholePayload readStream payload with
  | none =>
      exact .inr ⟨(fun ⟨_, h, _⟩ => nomatch h),
        refused_fail p (show Status.format.Rejects by decide)⟩
  | some s =>
    dsimp only
    by_cases htb : rationalIsValid s.timeBase = true
    swap
    · rw [if_pos (by simpa using htb)]
      exact .inr ⟨fun ⟨_, h, hok⟩ => htb (Option.some.inj h ▸ hok.1),
        refused_fail p (show Status.timeline.Rejects by decide)⟩
    rw [if_neg (by simpa using htb)]
    obtain ⟨hroom, p₁, hadd, hfol, hv⟩ | ⟨hroom, href, hcode⟩ := addTrack_cases hc s frame.offset
    · rw [hadd]
      refine .inl ⟨s, (p₁.notify (.stream s)).2, rfl, ⟨htb, hroom⟩, (hfol.calm hc).notify _, ?_, hv⟩
      exact hfol.trans (Parsing.follows_notify p₁ (.stream s))
    · refine .inr ⟨fun ⟨_, h, hok⟩ => hroom (Option.some.inj h ▸ hok.2), ?_⟩
      rcases hadd : addTrack p s frame.offset with ⟨st, p₁⟩
      rw [hadd] at href hcode
      cases st with
      | ok => exact absurd rfl href.ne_ok
      | _ => exact ⟨by dsimp only at hcode ⊢; rw [hcode]; exact href.rejects, href.validPrefix⟩

/-- **What `tide_emit_packet` does**: it delivers the packet, or refuses. -/
theorem emitPacket_cases (hc : p.Calm I) (payload : Bytes) (frame : RecordFrame) :
    (∃ k p', wholePayload readPacket payload = some k ∧ PacketOk p.tracks k ∧
      emitPacket p payload frame = (.ok, p') ∧
        p.Follows p' [.packet k] [] ∧ p'.validPrefix = p.validPrefix) ∨
      (¬ ∃ k, wholePayload readPacket payload = some k ∧ PacketOk p.tracks k) ∧
        Refused p (emitPacket p payload frame) := by
  unfold emitPacket
  cases hread : wholePayload readPacket payload with
  | none =>
      exact .inr ⟨(fun ⟨_, h, _⟩ => nomatch h),
        refused_fail p (show Status.format.Rejects by decide)⟩
  | some k =>
    dsimp only
    by_cases hdur : k.duration < 0
    · rw [if_pos hdur]
      exact .inr ⟨fun ⟨_, h, hok⟩ => hok.1 (Option.some.inj h ▸ hdur),
        refused_fail p (show Status.timeline.Rejects by decide)⟩
    rw [if_neg hdur]
    by_cases hfind : (findTrack p.tracks k.trackId k.generation).isSome
    · rw [if_neg
        (by rw [Option.isNone_iff_eq_none, ← ne_eq, ← Option.isSome_iff_ne_none]; exact hfind)]
      exact .inl ⟨k, _, rfl, ⟨hdur, hfind⟩, hc.notify _, Parsing.follows_notify p _, rfl⟩
    · rw [if_pos (by simpa using hfind)]
      exact .inr ⟨fun ⟨_, h, hok⟩ => hfind (Option.some.inj h ▸ hok.2),
        refused_fail p (show Status.format.Rejects by decide)⟩

/-- The payload of the record of a frame. -/
theorem slice_frameAt (data : Bytes) (h : RecordHead) (offset n : ℕ) (depth : UInt8) :
    slice data (h.frameAt offset n depth).payloadOffset
      ((h.frameAt offset n depth).payloadEnd - (h.frameAt offset n depth).payloadOffset) =
      slice data (offset + h.headerSize n) n := by
  simp only [RecordHead.frameAt, Nat.add_sub_cancel_left]

/-- **What `tide_process_record` does with a record that is not a group**: if it is well
formed, it announces the record, delivers its stream or packet and adds its track;
else it refuses it. -/
theorem processRecord_leaf (hc : p.Calm I) (parse : ParseRecords σ) (depth : ℕ)
    {data payload : Bytes} {h : RecordHead} {offset : ℕ} (hoff : offset ≤ data.length)
    (hpay : slice data (offset + h.headerSize payload.length) payload.length = payload)
    (ht : h.type ≠ RecordType.group.code) :
    (LeafOk p.limits depth (data.take offset) p.tracks h payload ∧
        ∃ p', processRecord parse data (h.frameAt offset payload.length (UInt8.ofNat depth)) p =
          (.ok, p') ∧
          p.Follows p' (headEvent h payload.length offset depth :: leafContent h payload)
            (leafTracks h payload) ∧
          p'.validPrefix = p.validPrefix) ∨
      (¬ LeafOk p.limits depth (data.take offset) p.tracks h payload ∧
        Refused p
          (processRecord parse data (h.frameAt offset payload.length (UInt8.ofNat depth)) p)) := by
  set frame := h.frameAt offset payload.length (UInt8.ofNat depth) with hframe
  set p₁ := (p.notify (.record frame.event)).2 with hp₁
  have hnotify : p.notify (.record frame.event) = (.ok, p₁) := hc.notify _
  have hfol : p.Follows p₁ [headEvent h payload.length offset depth] [] :=
    Parsing.follows_notify p _
  have hc₁ := hfol.calm hc
  have hslice : slice data frame.payloadOffset (frame.payloadEnd - frame.payloadOffset) = payload :=
    (slice_frameAt data h offset payload.length _).trans hpay
  have htype : frame.type = h.type := rfl
  unfold processRecord
  rw [hslice, htype]
  unfold LeafOk leafContent leafTracks
  by_cases hskip : skippable h.type = true
  · -- a skippable record is announced and no more
    rw [if_pos hskip, recordTypeOf_of_skippable hskip]
    exact .inl ⟨.inl hskip, p₁, hnotify, hfol, rfl⟩
  rw [if_neg hskip, hnotify, andThen_ok, or_iff_right hskip]
  cases hrt : recordTypeOf h.type with
  | none => exact .inr ⟨id, (refused_fail p₁ (show Status.unsupported.Rejects by decide)).of_notify⟩
  | some t =>
    have hsimple : emitSimpleRecord p₁.limits p₁.tracks frame data payload =
        emitSimpleRecord p.limits p.tracks (h.frameAt (data.take offset).length payload.length
          (UInt8.ofNat depth))
          (data.take offset) payload := by
      rw [List.length_take_of_le hoff, ← hframe]
      exact emitSimpleRecord_congr payload
        (by rw [show frame.offset = offset from rfl, List.take_take, Nat.min_self])
    cases t with
    | group => exact absurd ((recordTypeOf_eq_some_iff ..).mp hrt) ht
    | streamDesc =>
      obtain ⟨s, p', hread, hok, hemit, hfol', hv⟩ | ⟨hno, href⟩ :=
        emitStream_cases hc₁ payload frame
      · dsimp only
        rw [hemit, hread]
        exact .inl ⟨⟨s, rfl, hok⟩, p', rfl, hfol.trans hfol', hv⟩
      · exact .inr ⟨hno, href.of_notify⟩
    | packet =>
      obtain ⟨k, p', hread, hok, hemit, hfol', hv⟩ | ⟨hno, href⟩ :=
        emitPacket_cases hc₁ payload frame
      · dsimp only
        rw [hemit, hread]
        exact .inl ⟨⟨k, rfl, hok⟩, p', rfl, hfol.trans hfol', hv⟩
      · exact .inr ⟨hno, href.of_notify⟩
    | packetTable | editList | discontinuity | seekIndex | checkpoint | indexDirectory | footer =>
      dsimp only
      rw [hsimple]
      cases hemit : emitSimpleRecord p.limits p.tracks
          (h.frameAt (data.take offset).length payload.length (UInt8.ofNat depth))
            (data.take offset) payload with
      | ok u => exact .inl ⟨rfl, p₁, rfl, hfol, rfl⟩
      | error e =>
        obtain ⟨status, message, hrej, rfl⟩ := emitSimpleRecord_error hemit
        exact .inr ⟨nofun, (refused_fail p₁ hrej).of_notify⟩

/-! ### Groups -/

theorem decodes_group :
    Decodes readGroup fun childBytes bs => ∃ (kind reserved : UInt16) (sequence : UInt64),
    bs = writeU16 kind ++ (writeU16 reserved ++ (writeU64 childBytes ++ writeU64 sequence)) := by
  refine (decodes_u16.bind fun _ => (decodes_skip 2).bind fun _ => decodes_u64.bind fun _ =>
    decodes_u64.bind fun _ =>
    decodes_pure _).congr fun n bs => ?_
  constructor
  · rintro ⟨kind, _, _, rfl, ⟨_, r, _, hr, ⟨_, _, _, rfl, ⟨sequence, _, _, rfl, ⟨rfl, rfl⟩, rfl⟩,
      rfl⟩, rfl⟩, rfl⟩
    exact ⟨kind, joinU16 r, sequence, by rw [writeU16_joinU16 hr, List.append_nil]⟩
  · rintro ⟨kind, reserved, sequence, rfl⟩
    exact ⟨kind, _, _, rfl,
      ⟨(), _, _, rfl, ⟨_, _, _, rfl, ⟨sequence, _, _, rfl, ⟨rfl, rfl⟩, (List.append_nil _).symm⟩,
        rfl⟩, rfl⟩, rfl⟩

/-- The metadata of a group says how many bytes follow it. -/
theorem readGroup_iff {payload : Bytes} (h20 : 20 ≤ payload.length)
    (hmax : payload.length ≤ sizeMax) :
    (∃ n r, readGroup.run (readerInit payload) = some (n, r) ∧ n.toNat = payload.length - 20) ↔
      ∃ m children, payload = groupPayload m children := by
  constructor
  · rintro ⟨n, r, hrun, hn⟩
    obtain ⟨bs, children, ⟨kind, reserved, sequence, rfl⟩, hpay, -⟩ :=
      (decodes_group [] payload _ _).mp hrun
    refine ⟨⟨kind, reserved, sequence⟩, children, ?_⟩
    have hlen := congrArg List.length hpay
    simp only [List.length_append, length_writeU16, length_writeU64] at hlen
    have : UInt64.ofNat children.length = n := by
      rw [show children.length = n.toNat by omega, UInt64.ofNat_toNat]
    rw [groupPayload, GroupMeta.bytes, this, hpay]
  · rintro ⟨m, children, rfl⟩
    rw [length_groupPayload] at hmax ⊢
    refine ⟨UInt64.ofNat children.length, _, (decodes_group [] _ _ _).mpr ⟨_, children,
      ⟨m.kind, m.reserved, m.sequence, rfl⟩, rfl, rfl⟩, ?_⟩
    rw [UInt64.toNat_ofNat_of_lt' (by unfold sizeMax at hmax; change _ < 2 ^ 64; omega)]
    omega

/-- What is left of a group's result when its children are incomplete. -/
def closeGroup (frame : RecordFrame) (r : Status × Parsing σ) : Status × Parsing σ :=
  match r with
  | (.truncated, p) => p.fail (parseError .format (frame.payloadOffset + 20) frame.type frame.depth
      "complete group contains incomplete child")
  | r => r

theorem closeGroup_of_ne {frame : RecordFrame} {r : Status × Parsing σ} (h : r.1 ≠ .truncated) :
    closeGroup frame r = r := by
  rcases r with ⟨st, q⟩
  cases st <;> first | exact absurd rfl h | rfl

/-- The errors set while a record is processed: with its type and depth, at its first byte or
at its payload. -/
structure RecordFrame.Sets (frame : RecordFrame) (e : Error) : Prop where
  rejects : e.code.Rejects
  type : e.recordType = frame.type
  depth : e.depth = frame.depth
  offset : e.offset = frame.offset ∨ e.offset = frame.payloadOffset

theorem RecordFrame.sets_frameError (frame : RecordFrame) {status : Status} (h : status.Rejects)
    (message : String) :
    frame.Sets (frameError frame status message) := ⟨h, rfl, rfl, .inr rfl⟩

theorem RecordFrame.sets_parseError (frame : RecordFrame) {status : Status} (h : status.Rejects)
    (message : String) :
    frame.Sets (parseError status frame.offset frame.type frame.depth message) :=
  ⟨h, rfl, rfl, .inl rfl⟩

/-- **What is done with a group**: if its metadata is right and the depth is below the limit,
its children are parsed; else it is refused. -/
theorem processGroup_cases (parse : ParseRecords σ) {payload : Bytes} {frame : RecordFrame}
    (hlen : frame.payloadEnd - frame.payloadOffset = payload.length)
    (hmax : payload.length ≤ sizeMax) (p : Parsing σ) :
    ((∃ m children, payload = groupPayload m children) ∧
      frame.depth.toNat < p.limits.maxDepth.toNat ∧
        processGroup parse payload frame p =
          closeGroup frame (parse (frame.payloadOffset + 20) frame.payloadEnd
            (frame.depth + 1) p)) ∨
      (¬ ((∃ m children, payload = groupPayload m children) ∧
        frame.depth.toNat < p.limits.maxDepth.toNat) ∧
        ∃ e, frame.Sets e ∧ processGroup parse payload frame p = p.fail e) := by
  unfold processGroup
  rw [hlen]
  by_cases h20 : payload.length < 20
  · rw [if_pos h20]
    refine .inr ⟨?_, _, frame.sets_frameError (show Status.format.Rejects by decide) _, rfl⟩
    rintro ⟨⟨m, children, hm⟩, -⟩
    rw [hm, length_groupPayload] at h20
    omega
  rw [if_neg h20]
  have hiff := readGroup_iff (Nat.not_lt.mp h20) hmax
  cases hrun : readGroup.run (readerInit payload) with
  | none =>
    refine .inr ⟨?_, _, frame.sets_frameError (show Status.format.Rejects by decide) _, rfl⟩
    rintro ⟨hm, -⟩
    obtain ⟨n, r, hr, -⟩ := hiff.mpr hm
    rw [hrun] at hr
    cases hr
  | some x =>
    obtain ⟨n, r⟩ := x
    dsimp only
    by_cases hn : n.toNat = payload.length - 20
    swap
    · rw [if_pos hn]
      refine .inr ⟨?_, _, frame.sets_frameError (show Status.format.Rejects by decide) _, rfl⟩
      rintro ⟨hm, -⟩
      obtain ⟨n', r', hr, hn'⟩ := hiff.mpr hm
      rw [hrun] at hr
      cases hr
      exact hn hn'
    rw [if_neg (not_not.mpr hn)]
    by_cases hd : frame.depth.toNat ≥ p.limits.maxDepth.toNat
    · rw [if_pos hd]
      refine .inr ⟨fun hm => ?_, _, frame.sets_parseError (show Status.resource.Rejects by decide)
        _, rfl⟩
      exact absurd hm.2 (Nat.not_lt.mpr hd)
    · rw [if_neg hd]
      exact .inl ⟨hiff.mp ⟨n, r, hrun, hn⟩, Nat.not_le.mp hd, rfl⟩

/-- **The ways of `tide_process_record`** with a record, for any callbacks and allocations: the
announcement is not answered with `OK`, or behind it the record is skipped, handed on by
its type, or refused. -/
inductive Processed (parse : ParseRecords σ) (data payload : Bytes) (frame : RecordFrame)
    (p : Parsing σ) : Status × Parsing σ → Prop where
  | unanswered (hne : (p.notify (.record frame.event)).1 ≠ .ok) : Processed parse data payload frame
      p (p.notify (.record frame.event))
  | skipped (hok : (p.notify (.record frame.event)).1 = .ok) (hskip : skippable frame.type = true) :
    Processed parse data payload frame p (.ok, (p.notify (.record frame.event)).2)
  | stream (hok : (p.notify (.record frame.event)).1 = .ok)
      (ht : frame.type = RecordType.streamDesc.code) :
    Processed parse data payload frame p
      (emitStream (p.notify (.record frame.event)).2 payload frame)
  | packet (hok : (p.notify (.record frame.event)).1 = .ok)
      (ht : frame.type = RecordType.packet.code) :
    Processed parse data payload frame p
      (emitPacket (p.notify (.record frame.event)).2 payload frame)
  | opened (hok : (p.notify (.record frame.event)).1 = .ok)
      (ht : frame.type = RecordType.group.code)
      (hm : ∃ m children, payload = groupPayload m children) (hdepth : frame.depth.toNat <
        p.limits.maxDepth.toNat) :
    Processed parse data payload frame p (closeGroup frame
      (parse (frame.payloadOffset + 20) frame.payloadEnd (frame.depth + 1)
        (p.notify (.record frame.event)).2))
  | checked (hok : (p.notify (.record frame.event)).1 = .ok)
      (ht : frame.type ≠ RecordType.group.code)
      (hcheck : emitSimpleRecord p.limits p.tracks frame data payload = .ok ()) :
    Processed parse data payload frame p (.ok, (p.notify (.record frame.event)).2)
  | refused (hok : (p.notify (.record frame.event)).1 = .ok) (e : Error) (he : e.code.Rejects) :
    Processed parse data payload frame p ((p.notify (.record frame.event)).2.fail e)

theorem processRecord_processed (parse : ParseRecords σ) {data payload : Bytes}
    {frame : RecordFrame} (p : Parsing σ)
    (hslice : slice data frame.payloadOffset (frame.payloadEnd - frame.payloadOffset) = payload)
    (hlen : frame.payloadEnd - frame.payloadOffset = payload.length)
    (hmax : payload.length ≤ sizeMax) :
    Processed parse data payload frame p (processRecord parse data frame p) := by
  unfold processRecord
  rw [hslice]
  dsimp only
  by_cases hok : (p.notify (.record frame.event)).1 = .ok
  swap
  · rw [andThen_of_ne hok, ite_self]
    exact .unanswered hok
  have hnotify : p.notify (.record frame.event) = (.ok, (p.notify (.record frame.event)).2) :=
    Prod.ext hok rfl
  by_cases hskip : skippable frame.type = true
  · rw [if_pos hskip, hnotify]
    exact .skipped hok hskip
  rw [if_neg hskip, hnotify, andThen_ok]
  cases hrt : recordTypeOf frame.type with
  | none => exact .refused hok _ (show Status.unsupported.Rejects by decide)
  | some t =>
    have ht : frame.type = t.code := (recordTypeOf_eq_some_iff ..).mp hrt
    cases t with
    | group =>
      dsimp only
      obtain ⟨hm, hdepth, hgroup⟩ | ⟨-, e, he, hfail⟩ :=
        processGroup_cases parse hlen hmax (p.notify (.record frame.event)).2
      · rw [hgroup]
        exact .opened hok ht hm hdepth
      · rw [hfail]
        exact .refused hok e he.rejects
    | streamDesc => exact .stream hok ht
    | packet => exact .packet hok ht
    | packetTable | editList | discontinuity | seekIndex | checkpoint | indexDirectory | footer =>
      dsimp only
      cases hemit : emitSimpleRecord (p.notify (.record frame.event)).2.limits
        (p.notify (.record frame.event)).2.tracks frame data
          payload with
      | ok u =>
        refine .checked hok ?_ hemit
        rw [ht]
        decide
      | error e =>
        obtain ⟨status, message, hrej, rfl⟩ := emitSimpleRecord_error hemit
        exact .refused hok _ hrej

/-- **What `tide_process_record` does with a group**: it announces it, and parses the children
or refuses the group. -/
theorem processRecord_group (hc : p.Calm I) (parse : ParseRecords σ) {data payload : Bytes}
    {h : RecordHead} {offset : ℕ} {depth : UInt8}
    (hpay : slice data (offset + h.headerSize payload.length) payload.length = payload)
    (hmax : payload.length ≤ sizeMax) (ht : h.type = RecordType.group.code) :
    ((∃ m children, payload = groupPayload m children) ∧ depth.toNat < p.limits.maxDepth.toNat ∧
        processRecord parse data (h.frameAt offset payload.length depth) p =
          closeGroup (h.frameAt offset payload.length depth)
            (parse (offset + h.headerSize payload.length + 20)
              (offset + h.headerSize payload.length + payload.length) (depth + 1)
              (p.notify (.record (h.frameAt offset payload.length depth).event)).2)) ∨
      (¬ ((∃ m children, payload = groupPayload m children) ∧
        depth.toNat < p.limits.maxDepth.toNat) ∧
        Refused p (processRecord parse data (h.frameAt offset payload.length depth) p)) := by
  set frame := h.frameAt offset payload.length depth with hframe
  set p₁ := (p.notify (.record frame.event)).2 with hp₁
  have hnotify : p.notify (.record frame.event) = (.ok, p₁) := hc.notify _
  have hslice : slice data frame.payloadOffset (frame.payloadEnd - frame.payloadOffset) = payload :=
    (slice_frameAt data h offset payload.length _).trans hpay
  have hsize : frame.payloadEnd - frame.payloadOffset = payload.length := by
    simp only [hframe, RecordHead.frameAt, Nat.add_sub_cancel_left]
  have htype : frame.type = RecordType.group.code := ht
  have hskip : ¬ skippable RecordType.group.code = true := by decide
  unfold processRecord
  rw [hslice, htype, if_neg hskip, hnotify, andThen_ok, recordTypeOf_code]
  dsimp only
  obtain hopened | ⟨hno, e, he, hfail⟩ := processGroup_cases parse hsize hmax p₁
  · exact .inl hopened
  · rw [hfail]
    exact .inr ⟨hno, (refused_fail p₁ he.rejects).of_notify⟩

end

end Tide
