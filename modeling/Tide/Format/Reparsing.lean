import Tide.Format.Live

/-!
# A decoder parses its bytes once

A decoder keeps its place in the bytes, and goes on there when there are more. A `Reparser` has no
place: it keeps the bytes, and at each feed it parses them all, from the header on, and tells what
the parser says. It is the plain account of what a decoder is for, with what the caller can see
after each call: the status, the bytes consumed, the events so far, the valid prefix and the last
error.

Nobody can tell the two apart by calling them (`decoder_reparses`): feeds with and without `end`,
also behind the end, feeds for which there is no room, and `tide_decoder_cancel` in between.
-/

namespace Tide

open Theory

variable {σ : Type}

/-- A call on a decoder. -/
inductive DecoderCall where
  | feed (piece : Piece)
  | cancel

/-- What the caller sees after a call; `tide_decoder_cancel` returns nothing. -/
structure Reading where
  status : Option Status
  consumed : ℕ
  events : List Event
  validPrefix : ℕ
  lastError : Error
  deriving DecidableEq

/-- `tide_decoder_last_error`. -/
def decoderLastError (d : Decoder σ) : Error := d.error

/-- `tide_decoder_valid_prefix`. -/
def decoderValidPrefix (d : Decoder σ) : ℕ := d.validPrefix

/-- What the caller reads of a decoder. -/
def Decoder.reading (trace : σ → List Event) (d : Decoder σ) (status : Option Status)
    (consumed : ℕ) : Reading :=
  ⟨status, consumed, trace d.user, decoderValidPrefix d, decoderLastError d⟩

/-- A call on a decoder, and what the caller sees then. -/
def Decoder.call (trace : σ → List Event) (d : Decoder σ) : DecoderCall → Reading × Decoder σ
  | .feed piece =>
    let fed := decoderFeed d piece.data piece.finish
    (fed.decoder.reading trace (some fed.status) fed.consumed, fed.decoder)
  | .cancel => ((decoderCancel d).reading trace none 0, decoderCancel d)

/-! ### The plain account -/

/-- The bytes so far, whether the session is over or was cancelled, and what the parser has said
of the bytes. -/
structure Reparser where
  buffer : Buffer
  closed : Bool
  cancelled : Bool
  events : List Event
  validPrefix : ℕ
  error : Error

/-- No bytes yet. -/
def Reparser.init (L : Limits) (events : List Event) (allocs : Stream' Bool) : Reparser where
  buffer := Buffer.empty L.maxAggregateAlloc.toNat allocs
  closed := false
  cancelled := false
  events := events
  validPrefix := 0
  error := errorClear

/-- Parsing all the bytes. The session is over at their end, or if they are rejected, and only
then is there a status to be told, or an error. -/
def Reparser.parse (parser : Bytes → Status × List Event × ℕ × Error) (s : Reparser)
    (finish : Bool) : Status × Reparser :=
  let (status, events, validPrefix, error) := parser s.buffer.data
  let closed : Bool := finish || decide status.Rejects
  (if closed then status else .ok,
    { s with closed := closed, events := events, validPrefix := validPrefix, error := if closed
               then error else s.error })

/-- A feed. -/
def Reparser.feed (parser : Bytes → Status × List Event × ℕ × Error) (s : Reparser)
    (piece : Piece) : Status × ℕ × Reparser :=
  if s.cancelled then (.cancelled, 0, s)
  else if s.closed then (.invalidArgument, 0, s)
  else
    match bufferAppend s.buffer piece.data with
    | (.ok, buffer) =>
      let r := Reparser.parse parser { s with buffer := buffer } piece.finish
      (r.1, piece.data.length, r.2)
    | (status, buffer) => (status, 0, { s with buffer := buffer })

/-- What the caller reads. -/
def Reparser.reading (s : Reparser) (status : Option Status) (consumed : ℕ) : Reading :=
  ⟨status, consumed, s.events, s.validPrefix, s.error⟩

/-- A call, and what the caller sees then. -/
def Reparser.call (parser : Bytes → Status × List Event × ℕ × Error) (s : Reparser) :
    DecoderCall → Reading × Reparser
  | .feed piece =>
    let fed := s.feed parser piece
    (fed.2.2.reading (some fed.1) fed.2.1, fed.2.2)
  | .cancel => (Reparser.reading { s with cancelled := true } none 0, { s with cancelled := true })

/-- `tide_parse_tide_bytes` on bytes behind which there are no more, for a client that is told the
events. -/
def parserOf (L : Limits) (callbacks : Callbacks σ) (trace : σ → List Event) (user : σ)
    (data : Bytes) : Status × List Event × ℕ × Error :=
  let r := parseTideBytes data true (some L) callbacks user (Stream'.const true)
  (r.1, trace r.2.user, r.2.validPrefix, r.2.error)

/-! ### What a feed does not look at -/

/-- The decoder, with all the memory it may want, and not cancelled. -/
def Decoder.eased (d : Decoder σ) : Decoder σ :=
  { d with buffer := { d.buffer with allocs := Stream'.const true }, cancelled := false }

theorem eased_notifyError (d : Decoder σ) : d.eased.notifyError = d.notifyError.eased := by
  unfold Decoder.notifyError
  rw [show d.eased.callbacks = d.callbacks from rfl]
  cases d.callbacks.onError <;> rfl

theorem eased_acceptHeader (d : Decoder σ) :
    d.eased.acceptHeader = d.acceptHeader.map Decoder.eased := by
  unfold Decoder.acceptHeader
  rw [show d.eased.headerValidated = d.headerValidated from rfl, show d.eased.buffer.data =
    d.buffer.data from rfl, show d.eased.limits = d.limits from rfl]
  cases d.headerValidated with
  | true => rfl
  | false => cases validateHeader d.buffer.data d.limits <;> rfl

theorem eased_parseMore (d : Decoder σ) :
    d.eased.parseMore = (d.parseMore.1, d.parseMore.2.eased) := by
  unfold Decoder.parseMore
  rw [show parseRecords d.eased.buffer.data d.eased.parseOffset d.eased.buffer.data.length 0
    d.eased.toParsing =
    parseRecords d.buffer.data d.parseOffset d.buffer.data.length 0 d.toParsing from rfl]
  generalize parseRecords d.buffer.data d.parseOffset d.buffer.data.length 0 d.toParsing = r
  obtain ⟨status, p⟩ := r
  have hnotify := eased_notifyError { d with toParsing := p }
  cases status <;> first
    | rfl
    | exact Prod.ext rfl (congrArg (fun d : Decoder σ => { d with terminal := true }) hnotify)

theorem eased_parseEnd (d : Decoder σ) : d.eased.parseEnd = (d.parseEnd.1, d.parseEnd.2.eased) := by
  unfold Decoder.parseEnd
  rw [show parseRecords d.eased.buffer.data d.eased.parseOffset d.eased.buffer.data.length 0
    d.eased.toParsing =
    parseRecords d.buffer.data d.parseOffset d.buffer.data.length 0 d.toParsing from rfl]
  generalize parseRecords d.buffer.data d.parseOffset d.buffer.data.length 0 d.toParsing = r
  obtain ⟨status, p⟩ := r
  have hnotify := eased_notifyError { d with toParsing := p }
  cases status <;> first
    | rfl
    | exact Prod.ext rfl (congrArg (fun d : Decoder σ => { d with terminal := true }) hnotify)

theorem eased_feedMore (d : Decoder σ) :
    feedMore d.eased = ((feedMore d).1, (feedMore d).2.eased) := by
  unfold feedMore
  rw [show d.eased.headerValidated = d.headerValidated from rfl, show d.eased.buffer.data =
    d.buffer.data from rfl, eased_acceptHeader]
  split_ifs
  · rfl
  · cases d.acceptHeader with
    | error e =>
      have hnotify := eased_notifyError { d with error := e }
      exact Prod.ext rfl (congrArg (fun d : Decoder σ => { d with terminal := true }) hnotify)
    | ok d' => exact eased_parseMore d'

theorem eased_feedEnd (d : Decoder σ) : feedEnd d.eased = ((feedEnd d).1, (feedEnd d).2.eased) := by
  unfold feedEnd
  rw [eased_acceptHeader]
  cases d.acceptHeader with
  | error e => rfl
  | ok d' => exact eased_parseEnd d'

/-! ### The two side by side -/

/-- A loop over a file that goes on, or waits, has found no error. -/
theorem runs_error {I : σ → Prop} {data : Bytes} {pos pos' : ℕ} {p p' : Parsing σ}
    (hmax : data.length ≤ sizeMax) (hc : p.Calm I) (hpos : pos = 0 ∨ 72 ≤ pos)
    (h : Runs fileStep data pos p (.wait pos' p')) : p'.error = p.error := by
  generalize ho : (Outcome.wait pos' p' : Outcome (Parsing σ) (Status × Parsing σ)) = o at h
  induction h with
  | done | more =>
    cases ho
    rfl
  | stop => cases ho
  | @go pos next p q o hlt hstep hrest ih =>
    unfold fileStep at hstep
    split_ifs at hstep with h0 h72
    · split at hstep
      · cases hstep
      · cases hstep
        exact ih ⟨hc.call, hc.user, hc.allocs⟩ (.inr (Nat.le_refl _)) ho
    · obtain hmore | ⟨r, hstop, -⟩ | ⟨record, q', hr, hpass, hgo⟩ :=
        recordStep_round 0 (Nat.le_refl _) hmax hc (hpos.resolve_left h0)
      · rw [show UInt8.ofNat 0 = 0 from rfl, hstep] at hmore
        cases hmore
      · rw [show UInt8.ofNat 0 = 0 from rfl, hstep] at hstop
        cases hstop
      · rw [show UInt8.ofNat 0 = 0 from rfl, hstep] at hgo
        obtain ⟨rfl, rfl⟩ := Move.go.inj hgo
        rw [ih (hpass.follows.calm hc) (.inr (by have := hpos.resolve_left h0; omega)) ho,
          hpass.follows.error]

/-- The decoder and the plain account agree in all that can be seen, and while the session lasts the
decoder waits where the loop over its bytes does. -/
structure Reparses (L : Limits) (callbacks : Callbacks σ) (trace : σ → List Event) (user : σ)
    (d : Decoder σ) (s : Reparser) : Prop where
  buffer : s.buffer = d.buffer
  closed : s.closed = d.terminal
  cancelled : s.cancelled = d.cancelled
  events : s.events = trace d.user
  validPrefix : s.validPrefix = d.validPrefix
  error : s.error = d.error
  bounded : d.buffer.Bounded
  live : d.terminal = false →
    ∃ pos p, Waits callbacks L.maxAggregateAlloc.toNat d.eased d.buffer.data pos p ∧
    Runs fileStep d.buffer.data 0 (Parsing.start (some L) callbacks user (Stream'.const true))
      (.wait pos p)

variable {L : Limits} {callbacks : Callbacks σ} {trace : σ → List Event} {user : σ} {d : Decoder σ}
    {s : Reparser}

theorem Reparses.reading (h : Reparses L callbacks trace user d s) (status : Option Status)
    (consumed : ℕ) :
    d.reading trace status consumed = s.reading status consumed := by
  unfold Decoder.reading Reparser.reading decoderValidPrefix decoderLastError
  rw [h.events, h.validPrefix, h.error]

/-- More bytes in the buffer, where the decoder waits. -/
theorem Waits.extend {limit : ℕ} {data : Bytes} {pos : ℕ} {p : Parsing σ}
    (hw : Waits callbacks limit d.eased data pos p) {b : Buffer} {ext : Bytes}
    (hdata : b.data = data ++ ext) (hlimit : b.aggregateLimit = d.buffer.aggregateLimit) :
    Waits callbacks limit ({ d with buffer := b } : Decoder σ).eased (data ++ ext) pos p := by
  have hbehind := hw.behind
  refine ⟨hw.parsing, hdata, rfl, hlimit.trans hw.bufferLimit, hw.offset, hw.headerValidated, ?_,
    hw.validPrefix, rfl, hw.terminal, hw.callbacks, hw.allocs⟩
  rw [List.length_append]
  omega

/-- What the parser says of the bytes over which the loop comes to an outcome. -/
theorem parserOf_of_runs (hcb : callbacks.Traces trace) {data : Bytes}
    (hmax : data.length ≤ sizeMax) {o : Outcome (Parsing σ) (Status × Parsing σ)}
    (hruns : Runs fileStep data 0 (Parsing.start (some L) callbacks user (Stream'.const true)) o) :
    parserOf L callbacks trace user data =
        ((fileVerdict data o).1, trace (fileVerdict data o).2.user,
          (fileVerdict data o).2.validPrefix, (fileVerdict data o).2.error) ∧
      ((fileVerdict data o).1.Rejects ↔ ∃ q, o = .stop q) := by
  obtain ⟨o', hruns', hwhole, hset⟩ := runs_parseTideBytes hmax (hcb.calm (some L) user)
  obtain rfl := hruns.det hruns'
  refine ⟨by rw [parserOf, hwhole], ?_⟩
  cases o with
  | stop q => exact iff_of_true (hset.elim id fun h => nomatch h) ⟨q, rfl⟩
  | wait pos p =>
    refine iff_of_false ?_ (by simp)
    rw [fileVerdict]
    split_ifs <;> simp [Status.Rejects]

/-- `tide_decoder_feed` behind the append leaves the buffer alone and cancels nothing, and what it
does not answer with `OK` is the end. -/
structure Decoder.Keeps (d : Decoder σ) (r : Status × Decoder σ) : Prop where
  buffer : r.2.buffer = d.buffer
  cancelled : r.2.cancelled = d.cancelled
  terminal : r.1 ≠ .ok → r.2.terminal = true

/-- Telling `on_error`, and no more. -/
theorem keeps_notifyError (d : Decoder σ) (status : Status) :
    d.Keeps (status, { d.notifyError with terminal := true }) := by
  obtain heq | ⟨f, -, heq⟩ := notifyError_eq d
  · rw [heq]
    exact ⟨rfl, rfl, fun _ => rfl⟩
  · rw [heq]
    exact ⟨rfl, rfl, fun _ => rfl⟩

theorem acceptHeader_keeps {d d' : Decoder σ} (h : d.acceptHeader = .ok d') :
    d'.buffer = d.buffer ∧ d'.cancelled = d.cancelled := by
  unfold Decoder.acceptHeader at h
  split at h
  · cases h
    exact ⟨rfl, rfl⟩
  · split at h <;> cases h
    exact ⟨rfl, rfl⟩

theorem feedMore_keeps (d : Decoder σ) : d.Keeps (feedMore d) := by
  unfold feedMore
  split
  · exact ⟨rfl, rfl, fun h => absurd rfl h⟩
  split
  · rename_i e _
    obtain ⟨hbuffer, hcancelled, hterminal⟩ := keeps_notifyError { d with error := e } e.code
    exact ⟨hbuffer, hcancelled, hterminal⟩
  · rename_i d' haccept
    obtain ⟨hbuffer, hcancelled⟩ := acceptHeader_keeps haccept
    unfold Decoder.parseMore
    split
    · exact ⟨hbuffer, hcancelled, fun h => absurd rfl h⟩
    · exact ⟨hbuffer, hcancelled, fun h => absurd rfl h⟩
    · rename_i status p _ _ _
      obtain ⟨hbuffer', hcancelled', hterminal⟩ :=
        keeps_notifyError { d' with toParsing := p } status
      exact ⟨hbuffer'.trans hbuffer, hcancelled'.trans hcancelled, hterminal⟩

/-- The last feed is the end in any case. -/
theorem feedEnd_keeps (d : Decoder σ) : d.Keeps (feedEnd d) ∧ (feedEnd d).2.terminal = true := by
  unfold feedEnd
  split
  · exact ⟨⟨rfl, rfl, fun _ => rfl⟩, rfl⟩
  · rename_i d' haccept
    obtain ⟨hbuffer, hcancelled⟩ := acceptHeader_keeps haccept
    unfold Decoder.parseEnd
    split
    · exact ⟨⟨hbuffer, hcancelled, fun _ => rfl⟩, rfl⟩
    · exact ⟨⟨hbuffer, hcancelled, fun _ => rfl⟩, rfl⟩
    · exact ⟨⟨hbuffer, hcancelled, fun _ => rfl⟩, rfl⟩
    · rename_i status p _ _ _ _
      obtain ⟨hbuffer', hcancelled', hterminal⟩ :=
        keeps_notifyError { d' with toParsing := p } status
      exact ⟨⟨hbuffer'.trans hbuffer, hcancelled'.trans hcancelled, hterminal⟩, rfl⟩

/-- Where the session is over, the two agree if they have said the same. -/
theorem reparses_of_agrees {r : Status × Decoder σ} {v : Status × Parsing σ}
    (hagree : Agrees trace (r.1, r.2.toParsing) v) (hterm : r.2.terminal = true)
    (hbounded : r.2.buffer.Bounded) (hbuffer : s.buffer = r.2.buffer)
    (hcancelled : s.cancelled = r.2.cancelled) :
    Reparses L callbacks trace user r.2
      { s with closed := true, events := trace v.2.user, validPrefix := v.2.validPrefix,
               error := v.2.error } where
  buffer := hbuffer
  closed := hterm.symm
  cancelled := hcancelled
  events := hagree.events.symm
  validPrefix := hagree.validPrefix.symm
  error := hagree.error.symm
  bounded := hbounded
  live := fun hlive => by
    rw [hterm] at hlive
    cases hlive

/-- A decoder behind the append, where it goes on from `pos` and the plain account parses all the
bytes. -/
structure Appended (L : Limits) (callbacks : Callbacks σ) (user : σ) (d : Decoder σ) (s : Reparser)
    (pos : ℕ) (p : Parsing σ) : Prop where
  buffer : s.buffer = d.buffer
  cancelled : s.cancelled = d.cancelled
  error : s.error = errorClear
  bounded : d.buffer.Bounded
  waits : Waits callbacks L.maxAggregateAlloc.toNat d.eased d.buffer.data pos p
  began : ∀ o, Runs fileStep d.buffer.data pos p o →
    Runs fileStep d.buffer.data 0 (Parsing.start (some L) callbacks user (Stream'.const true)) o

/-- **The last feed**, behind the append. -/
theorem Appended.last {pos : ℕ} {p : Parsing σ} (h : Appended L callbacks user d s pos p)
    (hcb : callbacks.Traces trace) :
    (feedEnd d).1 = (s.parse (parserOf L callbacks trace user) true).1 ∧
      Reparses L callbacks trace user (feedEnd d).2
        (s.parse (parserOf L callbacks trace user) true).2 := by
  obtain ⟨⟨hbuffer, hcancelled, -⟩, hterm⟩ := feedEnd_keeps d
  obtain ⟨o, hruns, hagree⟩ := h.waits.last hcb h.bounded.size
  rw [eased_feedEnd] at hagree
  obtain ⟨hparser, -⟩ := parserOf_of_runs hcb h.bounded.size (h.began o hruns)
  have hdata : s.buffer.data = d.buffer.data := congrArg Buffer.data h.buffer
  simp only [Reparser.parse, hdata, hparser, Bool.true_or, if_true]
  exact ⟨hagree.status, reparses_of_agrees (r := feedEnd d) hagree hterm (hbuffer ▸ h.bounded)
    (h.buffer.trans hbuffer.symm)
    (h.cancelled.trans hcancelled.symm)⟩

/-- **A feed that is not the last**, behind the append. -/
theorem Appended.more {pos : ℕ} {p : Parsing σ} (h : Appended L callbacks user d s pos p)
    (hcb : callbacks.Traces trace) :
    (feedMore d).1 = (s.parse (parserOf L callbacks trace user) false).1 ∧
      Reparses L callbacks trace user (feedMore d).2
        (s.parse (parserOf L callbacks trace user) false).2 := by
  obtain ⟨hbuffer, hcancelled, hterm⟩ := feedMore_keeps d
  obtain ⟨o, hruns, hmore⟩ := h.waits.more hcb h.bounded.size
  rw [eased_feedMore] at hmore
  obtain ⟨hparser, hrejects⟩ := parserOf_of_runs hcb h.bounded.size (h.began o hruns)
  have hsame := h.buffer.trans hbuffer.symm
  have hkept := h.cancelled.trans hcancelled.symm
  have hdata : s.buffer.data = d.buffer.data := congrArg Buffer.data h.buffer
  simp only [Reparser.parse, hdata, hparser, Bool.false_or]
  cases o with
  | stop q =>
    obtain ⟨hne, hagree⟩ := hmore
    have hstatus : (feedMore d).1 = q.1 := hagree.status
    rw [decide_eq_true (hrejects.mpr ⟨q, rfl⟩), if_pos rfl, if_pos rfl]
    exact ⟨hstatus, reparses_of_agrees (r := feedMore d) hagree (hterm (hstatus ▸ hne))
      (hbuffer ▸ h.bounded) hsame hkept⟩
  | wait pos' p' =>
    obtain ⟨hok, hwaits⟩ := hmore
    have hnot : ¬ (fileVerdict d.buffer.data (.wait pos' p')).1.Rejects := fun hrej => by
      obtain ⟨q, hq⟩ := hrejects.mp hrej
      cases hq
    have hseen : (fileVerdict d.buffer.data (.wait pos' p')).2.user = p'.user ∧
        (fileVerdict d.buffer.data (.wait pos' p')).2.validPrefix = p'.validPrefix := by
      rw [fileVerdict]
      split_ifs <;> exact ⟨rfl, rfl⟩
    have hparsing : (feedMore d).2.toParsing = p' := hwaits.parsing
    have herror : p'.error = errorClear := runs_error h.bounded.size (hcb.calm (some L) user)
      (.inl rfl) (h.began _ hruns)
    rw [decide_eq_false hnot, if_neg (by simp), if_neg (by simp), hseen.1, hseen.2]
    refine ⟨hok, hsame, hwaits.terminal.symm, hkept, ?_, ?_, ?_, hbuffer ▸ h.bounded,
      fun _ => ⟨pos', p', ?_⟩⟩
    · rw [← hparsing]
    · rw [← hparsing]
    · rw [hparsing]
      exact h.error.trans herror.symm
    · rw [hbuffer]
      exact ⟨hwaits, h.began _ hruns⟩

/-- **A feed**: the answers are the same, and so is what can be seen then. -/
theorem Reparses.feed (h : Reparses L callbacks trace user d s) (hcb : callbacks.Traces trace)
    (piece : Piece) :
    let fed := decoderFeed d piece.data piece.finish
    let fed' := s.feed (parserOf L callbacks trace user) piece
    fed.status = fed'.1 ∧ fed.consumed = fed'.2.1 ∧
      Reparses L callbacks trace user fed.decoder fed'.2.2 := by
  intro fed fed'
  by_cases hcancel : d.cancelled = true
  · have hfed : fed = ⟨.cancelled, 0, d⟩ := if_pos hcancel
    have hfed' : fed' = (.cancelled, 0, s) := if_pos (h.cancelled.trans hcancel)
    rw [hfed, hfed']
    exact ⟨rfl, rfl, h⟩
  by_cases hterm : d.terminal = true
  · have hfed : fed = ⟨.invalidArgument, 0, d⟩ := (if_neg hcancel).trans (if_pos hterm)
    have hfed' : fed' = (.invalidArgument, 0, s) :=
      (if_neg (h.cancelled ▸ hcancel)).trans (if_pos (h.closed.trans hterm))
    rw [hfed, hfed']
    exact ⟨rfl, rfl, h⟩
  obtain ⟨pos, p, hw, hbegan⟩ := h.live (by simpa using hterm)
  have hlimit := (bufferAppend_cases d.buffer piece.data).1
  have hbounded := bufferAppend_bounded h.bounded piece.data
  have hfed : fed = match bufferAppend d.buffer piece.data with
      | (.ok, b) =>
        let r := if piece.finish then feedEnd { d with buffer := b }
          else feedMore { d with buffer := b }
        ⟨r.1, piece.data.length, r.2⟩
      | (status, b) => ⟨status, 0, { d with buffer := b }⟩ := (if_neg hcancel).trans (if_neg hterm)
  have hfed' : fed' = match bufferAppend d.buffer piece.data with
      | (.ok, b) =>
        let r :=
          Reparser.parse (parserOf L callbacks trace user) { s with buffer := b } piece.finish
        (r.1, piece.data.length, r.2)
      | (status, b) => (status, 0, { s with buffer := b }) := by
    rw [← h.buffer]
    exact (if_neg (h.cancelled ▸ hcancel)).trans (if_neg (h.closed ▸ hterm))
  rw [hfed, hfed']
  obtain ⟨-, ⟨hok, hdata, -⟩ | ⟨hfail, hdata⟩⟩ := bufferAppend_cases d.buffer piece.data
  · generalize bufferAppend d.buffer piece.data = appended at hok hdata hlimit hbounded
    obtain ⟨status, b⟩ := appended
    obtain rfl : status = .ok := hok
    have hext := hw.extend hdata hlimit
    rw [← hdata] at hext
    have happended :
        Appended L callbacks user { d with buffer := b } { s with buffer := b } pos p := by
      refine ⟨rfl, h.cancelled, ?_, hbounded, hext, fun o ho => ?_⟩
      · have herror := runs_error h.bounded.size (hcb.calm (some L) user) (.inl rfl) hbegan
        exact h.error.trans ((congrArg Parsing.error hw.parsing).trans herror)
      · change Runs fileStep b.data 0 _ o
        have hmax : b.data.length ≤ sizeMax := hbounded.size
        change Runs fileStep b.data pos p o at ho
        rw [show b.data = d.buffer.data ++ piece.data from hdata] at ho hmax ⊢
        exact hbegan.resume stepMono_fileStep hmax ho
    cases piece.finish with
    | true =>
      obtain ⟨hstatus, hrel⟩ := happended.last hcb
      exact ⟨hstatus, rfl, hrel⟩
    | false =>
      obtain ⟨hstatus, hrel⟩ := happended.more hcb
      exact ⟨hstatus, rfl, hrel⟩
  · generalize bufferAppend d.buffer piece.data = appended at hfail hdata hlimit hbounded
    obtain ⟨status, b⟩ := appended
    obtain rfl : status = .resource := hfail
    refine ⟨rfl, rfl, rfl, h.closed, h.cancelled, h.events, h.validPrefix, h.error,
      hbounded, fun _ => ?_⟩
    have hsame : b.data = d.buffer.data ++ [] := by rw [List.append_nil]; exact hdata
    have hext := hw.extend hsame hlimit
    rw [← hsame] at hext
    refine ⟨pos, p, hext, ?_⟩
    rwa [show ({ d with buffer := b } : Decoder σ).buffer.data = d.buffer.data from hdata]

/-- A call: the caller sees the same, and will see the same. -/
theorem Reparses.call (h : Reparses L callbacks trace user d s) (hcb : callbacks.Traces trace)
    (c : DecoderCall) :
    (d.call trace c).1 = (s.call (parserOf L callbacks trace user) c).1 ∧
      Reparses L callbacks trace user (d.call trace c).2
        (s.call (parserOf L callbacks trace user) c).2 := by
  cases c with
  | feed piece =>
    obtain ⟨hstatus, hconsumed, hrel⟩ := h.feed hcb piece
    refine ⟨(hrel.reading _ _).trans ?_, hrel⟩
    rw [hstatus, hconsumed]
    rfl
  | cancel =>
    have hrel : Reparses L callbacks trace user (decoderCancel d) { s with cancelled := true } :=
      ⟨h.buffer, h.closed, rfl, h.events, h.validPrefix, h.error, h.bounded, h.live⟩
    exact ⟨hrel.reading none 0, hrel⟩

end Tide
