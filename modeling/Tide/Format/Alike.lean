import Tide.Format.Loop

/-!
# Two runs side by side

Two parsers that differ in their callbacks and their users only, where the users stay related
and the callbacks answer alike, take the same way through any bytes: they end with the same
status, the same error, the same tracks and the same valid prefix (`parseTideBytes_alike`),
and so do two decoders that are fed alike (`Decoder.Alike.feed`). The callbacks may fail, and so
may the allocations; the bytes are any bytes.
-/

namespace Tide

open Theory

variable {σ τ : Type} {R : σ → τ → Prop}

/-- Two parsers that differ in what the callbacks do for their users only, which keeps the users
related and answers alike. -/
structure Parsing.Alike (R : σ → τ → Prop) (p : Parsing σ) (q : Parsing τ) : Prop where
  call : ∀ u v event, R u v → (p.callbacks.call u event).1 = (q.callbacks.call v event).1 ∧
    R (p.callbacks.call u event).2 (q.callbacks.call v event).2
  user : R p.user q.user
  limits : q.limits = p.limits
  tracks : q.tracks = p.tracks
  trackCapacity : q.trackCapacity = p.trackCapacity
  allocs : q.allocs = p.allocs
  error : q.error = p.error
  validPrefix : q.validPrefix = p.validPrefix

/-- Results with one status, of parsers that are alike. -/
def AlikeRun (R : σ → τ → Prop) (r : Status × Parsing σ) (r' : Status × Parsing τ) : Prop :=
  r'.1 = r.1 ∧ r.2.Alike R r'.2

variable {p : Parsing σ} {q : Parsing τ}

theorem Parsing.Alike.ok (h : p.Alike R q) (status : Status) :
    AlikeRun R (status, p) (status, q) := ⟨rfl, h⟩

theorem Parsing.Alike.withPrefix (h : p.Alike R q) (v : ℕ) :
    Parsing.Alike R { p with validPrefix := v } { q with validPrefix := v } :=
  ⟨h.call, h.user, h.limits, h.tracks, h.trackCapacity, h.allocs, h.error, rfl⟩

theorem Parsing.Alike.fail (h : p.Alike R q) (e : Error) : AlikeRun R (p.fail e) (q.fail e) :=
  ⟨rfl, h.call, h.user, h.limits, h.tracks, h.trackCapacity, h.allocs, rfl, h.validPrefix⟩

theorem Parsing.Alike.notify (h : p.Alike R q) (event : Event) :
    AlikeRun R (p.notify event) (q.notify event) := by
  obtain ⟨hstatus, huser⟩ := h.call _ _ event h.user
  exact ⟨hstatus.symm, h.call, huser, h.limits, h.tracks, h.trackCapacity, h.allocs,
    h.error, h.validPrefix⟩

/-- Results that are alike go on alike. -/
theorem AlikeRun.cases {r : Status × Parsing σ} {r' : Status × Parsing τ} (h : AlikeRun R r r') :
    ∃ status p q, r = (status, p) ∧ r' = (status, q) ∧ p.Alike R q :=
  ⟨r.1, r.2, r'.2, rfl, Prod.ext h.1 rfl, h.2⟩

theorem AlikeRun.andThen {r : Status × Parsing σ} {r' : Status × Parsing τ} (h : AlikeRun R r r')
    {f : Parsing σ → Status × Parsing σ} {g : Parsing τ → Status × Parsing τ}
    (hfg : ∀ p q, p.Alike R q → AlikeRun R (f p) (g q)) :
    AlikeRun R (andThen r f) (andThen r' g) := by
  obtain ⟨status, p, q, rfl, rfl, hpq⟩ := h.cases
  cases status <;> first | exact hfg p q hpq | exact hpq.ok _

theorem Parsing.Alike.addTrack (h : p.Alike R q) (stream : StreamInfo) (offset : ℕ) :
    AlikeRun R (addTrack p stream offset) (addTrack q stream offset) := by
  unfold Tide.addTrack
  rw [h.tracks, h.limits, h.trackCapacity, h.allocs]
  split_ifs
  · exact h.fail _
  · exact h.fail _
  all_goals exact ⟨rfl, h.call, h.user, rfl, rfl, rfl, rfl, h.error, h.validPrefix⟩

theorem Parsing.Alike.emitStream (h : p.Alike R q) (payload : Bytes) (frame : RecordFrame) :
    AlikeRun R (emitStream p payload frame) (emitStream q payload frame) := by
  unfold Tide.emitStream
  cases wholePayload readStream payload with
  | none => exact h.fail _
  | some stream =>
    dsimp only
    split_ifs
    · exact h.fail _
    obtain ⟨status, p', q', hp, hq, hpq⟩ := (h.addTrack stream frame.offset).cases
    rw [hp, hq]
    cases status <;> first | exact hpq.notify _ | exact ⟨congrArg Error.code hpq.error, hpq⟩

theorem Parsing.Alike.emitPacket (h : p.Alike R q) (payload : Bytes) (frame : RecordFrame) :
    AlikeRun R (emitPacket p payload frame) (emitPacket q payload frame) := by
  unfold Tide.emitPacket
  rw [h.tracks]
  cases wholePayload readPacket payload with
  | none => exact h.fail _
  | some packet =>
    dsimp only
    split_ifs
    · exact h.fail _
    · exact h.fail _
    · exact h.notify _

section

variable {parse : ParseRecords σ} {parse' : ParseRecords τ}
  (hparse : ∀ b e depth p q, Parsing.Alike R p q →
    AlikeRun R (parse b e depth p) (parse' b e depth q))

include hparse

theorem Parsing.Alike.processGroup (h : p.Alike R q) (payload : Bytes) (frame : RecordFrame) :
    AlikeRun R (processGroup parse payload frame p) (processGroup parse' payload frame q) := by
  unfold Tide.processGroup
  rw [h.limits]
  split
  · exact h.fail _
  split
  · exact h.fail _
  dsimp only
  split_ifs
  · exact h.fail _
  · exact h.fail _
  obtain ⟨status, p', q', hp, hq, hpq⟩ :=
    (hparse (frame.payloadOffset + 20) frame.payloadEnd (frame.depth + 1) p q h).cases
  rw [hp, hq]
  cases status <;> first | exact hpq.fail _ | exact hpq.ok _

theorem Parsing.Alike.processRecord (h : p.Alike R q) (data : Bytes) (frame : RecordFrame) :
    AlikeRun R (processRecord parse data frame p) (processRecord parse' data frame q) := by
  unfold Tide.processRecord
  dsimp only
  split_ifs
  · exact h.notify _
  refine (h.notify _).andThen fun p q h => ?_
  split
  · exact h.processGroup hparse ..
  · exact h.emitStream ..
  · exact h.emitPacket ..
  · rw [h.limits, h.tracks]
    split
    · exact h.ok _
    · exact h.fail _
  · exact h.fail _

/-- A round takes both to the same place. -/
theorem Parsing.Alike.recordStep (h : p.Alike R q) (data : Bytes) (size cursor : ℕ)
    (depth : UInt8) :
    match recordStep parse data size cursor depth p, recordStep parse' data size cursor depth q with
    | .more, .more => True
    | .stop r, .stop r' => AlikeRun R r r'
    | .go next p, .go next' q => next' = next ∧ p.Alike R q
    | _, _ => False := by
  unfold Tide.recordStep
  rw [h.limits]
  cases decodeRecordPrefix data size cursor depth with
  | truncated => trivial
  | rejected e => exact h.fail e
  | frame frame =>
    dsimp only
    split_ifs
    · exact h.fail _
    cases validateRecordIntegrity data frame with
    | error e => exact h.fail e
    | ok u =>
      obtain ⟨status, p', q', hp, hq, hpq⟩ := (h.processRecord hparse data frame).cases
      dsimp only
      rw [hp, hq]
      cases status <;> first | exact ⟨rfl, hpq.withPrefix _⟩ | exact hpq.ok _

end

/-- **Two parsers that are alike** are alike after the loop over the records. -/
theorem Parsing.Alike.parseRecords (h : p.Alike R q) (data : Bytes) (cursor size : ℕ)
    (depth : UInt8) :
    AlikeRun R (parseRecords data cursor size depth p) (parseRecords data cursor size depth q) := by
  unfold Tide.parseRecords
  generalize size - cursor + 1 = fuel
  induction fuel generalizing cursor size depth p q with
  | zero => exact h.ok _
  | succ fuel ih =>
    rw [parseRecordsFuel, parseRecordsFuel]
    split_ifs
    · have hstep := h.recordStep (fun b e depth p q h => ih h b e depth) data size cursor depth
      cases hp : Tide.recordStep (parseRecordsFuel fuel data) data size cursor depth p <;>
        cases hq : Tide.recordStep (parseRecordsFuel fuel data) data size cursor depth q <;>
          rw [hp, hq] at hstep
      case more.more => exact (h.withPrefix cursor).ok _
      case stop.stop => exact hstep
      case go.go =>
        obtain ⟨rfl, hpq⟩ := hstep
        exact ih hpq _ size depth
      all_goals exact hstep.elim
    · exact h.fail _
    · exact h.ok _

/-- **Two runs over the same bytes** with callbacks that answer alike end alike. -/
theorem parseTideBytes_alike {callbacks : Callbacks σ} {callbacks' : Callbacks τ} {user : σ}
    {user' : τ}
    (hcall : ∀ u v event, R u v → (callbacks.call u event).1 = (callbacks'.call v event).1 ∧
      R (callbacks.call u event).2 (callbacks'.call v event).2)
    (huser : R user user') (data : Bytes) (finish : Bool) (limits : Option Limits)
    (allocs : Stream' Bool) :
    AlikeRun R (parseTideBytes data finish limits callbacks user allocs)
    (parseTideBytes data finish limits callbacks' user' allocs) := by
  have hstart : Parsing.Alike R (Parsing.start limits callbacks user allocs)
      (Parsing.start limits callbacks' user' allocs) :=
    ⟨hcall, huser, rfl, rfl, rfl, rfl, rfl, rfl⟩
  have hheader : validateHeader data (Parsing.start limits callbacks' user' allocs).limits =
      validateHeader data (Parsing.start limits callbacks user allocs).limits := rfl
  unfold parseTideBytes
  dsimp only
  rw [hheader]
  cases validateHeader data (Parsing.start limits callbacks user allocs).limits with
  | error e => exact ⟨rfl, (hstart.fail e).2⟩
  | ok u =>
    obtain ⟨hstatus, hend⟩ := (hstart.withPrefix 72).parseRecords data 72 data.length 0
    exact ⟨congrArg (atEnd finish) hstatus, hend⟩

/-! ### Sessions -/

/-- The user behind `on_error`, if that is there. -/
def Parsing.told (p : Parsing σ) : Parsing σ :=
  match p.callbacks.onError with
  | none => p
  | some f => { p with user := f p.user p.error }

theorem Decoder.notifyError_told (d : Decoder σ) :
    d.notifyError = { d with toParsing := d.toParsing.told } := by
  unfold Decoder.notifyError Parsing.told
  cases d.callbacks.onError <;> rfl

/-- Two decoders that are fed alike. Their parsers are alike, unless the session is over and
their users were told of the error. -/
structure Decoder.Alike (R : σ → τ → Prop) (d : Decoder σ) (d' : Decoder τ) : Prop where
  buffer : d'.buffer = d.buffer
  parseOffset : d'.parseOffset = d.parseOffset
  cancelled : d'.cancelled = d.cancelled
  terminal : d'.terminal = d.terminal
  headerValidated : d'.headerValidated = d.headerValidated
  parsing : d.toParsing.Alike R d'.toParsing ∨
    d.terminal = true ∧ ∃ (p : Parsing σ) (q : Parsing τ), p.Alike R q ∧ d.toParsing = p.told ∧
      d'.toParsing = q.told

/-- A feed of the one and of the other. -/
def AlikeFeed (R : σ → τ → Prop) (r : Status × Decoder σ) (r' : Status × Decoder τ) : Prop :=
  r'.1 = r.1 ∧ r.2.Alike R r'.2

variable {d : Decoder σ} {d' : Decoder τ}

/-- A parser that comes from one that is alike, in the place of the decoder's own. -/
theorem Decoder.Alike.withParsing (h : d.Alike R d') (hpq : p.Alike R q) :
    Decoder.Alike R { d with toParsing := p } { d' with toParsing := q } :=
  ⟨h.buffer, h.parseOffset, h.cancelled, h.terminal, h.headerValidated, .inl hpq⟩

/-- A session that is over at an error. -/
theorem Decoder.Alike.failed (h : d.Alike R d') (hpq : p.Alike R q) (status : Status) :
    AlikeFeed R (status, { Decoder.notifyError { d with toParsing := p } with terminal := true })
      (status, { Decoder.notifyError { d' with toParsing := q } with terminal := true }) := by
  rw [Decoder.notifyError_told, Decoder.notifyError_told]
  exact ⟨rfl, h.buffer, h.parseOffset, h.cancelled, rfl, h.headerValidated,
    .inr ⟨rfl, p, q, hpq, rfl, rfl⟩⟩

/-- The records behind `parse_offset` are parsed alike. -/
theorem Decoder.Alike.records (h : d.Alike R d') (hpq : d.toParsing.Alike R d'.toParsing) :
    ∃ status p q, parseRecords d.buffer.data d.parseOffset d.buffer.data.length 0 d.toParsing =
      (status, p) ∧
      parseRecords d'.buffer.data d'.parseOffset d'.buffer.data.length 0 d'.toParsing =
        (status, q) ∧ p.Alike R q := by
  rw [h.buffer, h.parseOffset]
  exact (hpq.parseRecords ..).cases

theorem Decoder.Alike.parseMore (h : d.Alike R d') (hpq : d.toParsing.Alike R d'.toParsing) :
    AlikeFeed R d.parseMore d'.parseMore := by
  obtain ⟨status, p, q, hp, hq, hpq'⟩ := h.records hpq
  have hnext := h.withParsing hpq'
  unfold Decoder.parseMore
  rw [hp, hq]
  cases status
  case ok => exact ⟨rfl, hnext.buffer, congrArg (fun b : Buffer => b.data.length) h.buffer,
    hnext.cancelled, hnext.terminal, hnext.headerValidated, hnext.parsing⟩
  case truncated => exact ⟨rfl, hnext.buffer, hpq'.validPrefix, hnext.cancelled, hnext.terminal,
    hnext.headerValidated, hnext.parsing⟩
  all_goals exact h.failed hpq' _

theorem Decoder.Alike.parseEnd (h : d.Alike R d') (hpq : d.toParsing.Alike R d'.toParsing) :
    AlikeFeed R d.parseEnd d'.parseEnd := by
  obtain ⟨status, p, q, hp, hq, hpq'⟩ := h.records hpq
  have hnext := h.withParsing hpq'
  unfold Decoder.parseEnd
  rw [hp, hq]
  cases status
  case ok => exact ⟨rfl, hnext.buffer, congrArg (fun b : Buffer => b.data.length) h.buffer,
    hnext.cancelled, rfl, hnext.headerValidated, .inl hpq'⟩
  case truncated | partialTail => exact ⟨rfl, hnext.buffer, hnext.parseOffset, hnext.cancelled, rfl,
    hnext.headerValidated, .inl hpq'⟩
  all_goals exact h.failed hpq' _

/-- The header is accepted by both or refused by both. -/
theorem Decoder.Alike.acceptHeader (h : d.Alike R d') (hpq : d.toParsing.Alike R d'.toParsing) :
    (∃ e, d.acceptHeader = .error e ∧ d'.acceptHeader = .error e) ∨
      ∃ c c', d.acceptHeader = .ok c ∧ d'.acceptHeader = .ok c' ∧ c.Alike R c' ∧
        c.toParsing.Alike R c'.toParsing := by
  have hvalid : validateHeader d'.buffer.data d'.limits = validateHeader d.buffer.data d.limits :=
    by rw [h.buffer, hpq.limits]
  unfold Decoder.acceptHeader
  by_cases hbehind : d.headerValidated = true
  · rw [if_pos hbehind, if_pos (h.headerValidated.trans hbehind)]
    exact .inr ⟨d, d', rfl, rfl, h, hpq⟩
  rw [if_neg hbehind, if_neg (by rwa [h.headerValidated]), hvalid]
  cases validateHeader d.buffer.data d.limits with
  | error e => exact .inl ⟨e, rfl, rfl⟩
  | ok u =>
    have hnext := hpq.withPrefix 72
    exact .inr ⟨_, _, rfl, rfl, ⟨h.buffer, rfl, h.cancelled, h.terminal, rfl, .inl hnext⟩, hnext⟩

theorem Decoder.Alike.feedMore (h : d.Alike R d') (hpq : d.toParsing.Alike R d'.toParsing) :
    AlikeFeed R (feedMore d) (feedMore d') := by
  have hshort : (!d'.headerValidated && d'.buffer.data.length < 72) =
      (!d.headerValidated && d.buffer.data.length < 72) := by
    rw [h.buffer, h.headerValidated]
  unfold Tide.feedMore
  rw [hshort]
  split_ifs
  · exact ⟨rfl, h⟩
  obtain ⟨e, he, he'⟩ | ⟨c, c', hc, hc', hcc, hpq'⟩ := h.acceptHeader hpq
  · rw [he, he']
    exact h.failed (hpq.fail e).2 e.code
  · rw [hc, hc']
    exact hcc.parseMore hpq'

theorem Decoder.Alike.feedEnd (h : d.Alike R d') (hpq : d.toParsing.Alike R d'.toParsing) :
    AlikeFeed R (feedEnd d) (feedEnd d') := by
  unfold Tide.feedEnd
  obtain ⟨e, he, he'⟩ | ⟨c, c', hc, hc', hcc, hpq'⟩ := h.acceptHeader hpq
  · rw [he, he']
    exact ⟨rfl, h.buffer, h.parseOffset, h.cancelled, rfl, h.headerValidated, .inl (hpq.fail e).2⟩
  · rw [hc, hc']
    exact hcc.parseEnd hpq'

/-- **A feed** of two decoders that are fed alike. -/
theorem Decoder.Alike.decoderFeed (h : d.Alike R d') (data : Bytes) (finish : Bool) :
    (decoderFeed d' data finish).status = (decoderFeed d data finish).status ∧
      (decoderFeed d data finish).decoder.Alike R (decoderFeed d' data finish).decoder := by
  unfold Tide.decoderFeed
  by_cases hcancelled : d.cancelled = true
  · rw [if_pos hcancelled, if_pos (h.cancelled.trans hcancelled)]
    exact ⟨rfl, h⟩
  rw [if_neg hcancelled, if_neg (by rwa [h.cancelled])]
  by_cases hterminal : d.terminal = true
  · rw [if_pos hterminal, if_pos (h.terminal.trans hterminal)]
    exact ⟨rfl, h⟩
  rw [if_neg hterminal, if_neg (by rwa [h.terminal])]
  -- the session goes on, so that nobody was told of an error
  have hpq := h.parsing.resolve_right fun hover => hterminal hover.1
  rw [show bufferAppend d'.buffer data = bufferAppend d.buffer data
    from congrArg (bufferAppend · data) h.buffer]
  generalize bufferAppend d.buffer data = r
  rcases r with ⟨status, b⟩
  have hb : Decoder.Alike R { d with buffer := b } { d' with buffer := b } :=
    ⟨rfl, h.parseOffset, h.cancelled, h.terminal, h.headerValidated, .inl hpq⟩
  cases status
  case ok =>
    cases finish
    · exact hb.feedMore hpq
    · exact hb.feedEnd hpq
  all_goals exact ⟨rfl, hb⟩

/-- Two decoders with callbacks that answer alike. -/
theorem decoderInit_alike {callbacks : Callbacks σ} {callbacks' : Callbacks τ} {user : σ}
    {user' : τ}
    (hcall : ∀ u v event, R u v → (callbacks.call u event).1 = (callbacks'.call v event).1 ∧
      R (callbacks.call u event).2 (callbacks'.call v event).2)
    (huser : R user user') (limits : Option Limits) (allocs bufferAllocs : Stream' Bool) :
    (decoderInit limits callbacks user allocs bufferAllocs).Alike R
      (decoderInit limits callbacks' user' allocs bufferAllocs) :=
  ⟨rfl, rfl, rfl, rfl, rfl, .inl ⟨hcall, huser, rfl, rfl, rfl, rfl, rfl, rfl⟩⟩

end Tide
