import Tide.Format.Feed
import Tide.Format.Growth

/-!
# What `on_error` is told

A session ends when the header or a record is refused, and `on_error` is to be told, once.
`tide_decoder_feed` has four places where that happens, one for the header and one for the
records, in the last feed and in any other, and only three of them call back: the last feed
refuses a header in silence. So `on_error` is told of each refusal, and of nothing else, if
and only if no header is refused in the last feed (`told_iff`).
-/

namespace Tide

open Theory

variable {σ : Type}

/-- A client whose callbacks return `OK`. It has an `on_error`, and `errors` are those it was
called with. -/
structure Callbacks.Logs (callbacks : Callbacks σ) (errors : σ → List Error) : Prop where
  call : ∀ user event, (callbacks.call user event).1 = .ok ∧
    errors (callbacks.call user event).2 = errors user
  error : ∃ f, callbacks.onError = some f ∧ ∀ user e, errors (f user e) = errors user ++ [e]

/-- **The feed ends the session** with a status other than `OK` and `PARTIAL`. -/
structure Decoder.Fails (d : Decoder σ) (piece : Piece) : Prop where
  live : d.terminal = false
  ends : (d.feed piece).2.terminal = true
  status : (d.feed piece).1 ≠ .ok ∧ (d.feed piece).1 ≠ .partialTail

/-- A feed of the session ends it so. -/
def Decoder.Failed (d : Decoder σ) (pieces : List Piece) : Prop :=
  ∃ fed piece rest, pieces = fed ++ piece :: rest ∧ (d.feeds fed).Fails piece

/-- **Errors are told**: `on_error` was called once, with the last error, if the header or a
record was refused, and otherwise not at all. -/
structure Told (errors : σ → List Error) (d : Decoder σ) (pieces : List Piece) : Prop where
  refused : d.Failed pieces → errors (d.feeds pieces).user = errors d.user ++
    [(d.feeds pieces).error]
  otherwise : ¬ d.Failed pieces → errors (d.feeds pieces).user = errors d.user

/-- The piece is the last, and with it the header is complete and is refused. -/
structure HeaderLost (d : Decoder σ) (piece : Piece) : Prop where
  live : d.cancelled = false ∧ d.terminal = false
  last : piece.finish = true
  fits : (bufferAppend d.buffer piece.data).1 = .ok
  pending : d.headerValidated = false
  complete : 72 ≤ (d.buffer.data ++ piece.data).length
  invalid : validateHeader (d.buffer.data ++ piece.data) d.limits ≠ .ok ()

/-! ### What the parser answers -/

section

variable {p : Parsing σ}

/-- A client whose callbacks return `OK` has `tide_emit_stream` return `OK` or refuse. -/
theorem emitStream_ne_partial (hcb : ∀ user event, (p.callbacks.call user event).1 = .ok)
    (herr : p.error.code = .ok) (payload : Bytes) (frame : RecordFrame) :
    (emitStream p payload frame).1 ≠ .partialTail := by
  unfold emitStream
  split
  · simp [Parsing.fail, frameError, parseError, errorSet]
  split
  · simp [Parsing.fail, frameError, parseError, errorSet]
  rename_i s _ _
  change (closeTrack s (addTrack p s frame.offset)).1 ≠ .partialTail
  obtain ⟨e, he, hadd⟩ | ⟨q, hadd, -, hcallbacks, -, herror⟩ := addTrack_table p s frame.offset
  · rw [hadd, closeTrack_of_ne he.1]
    exact he.2.1
  rw [hadd]
  split
  · change (q.callbacks.call q.user (.stream s)).1 ≠ .partialTail
    simp [hcallbacks, hcb]
  · rw [closeTrack_of_ne (by simp)]
    change q.error.code ≠ .partialTail
    simp [herror, herr]

theorem emitPacket_ne_partial (hcb : ∀ user event, (p.callbacks.call user event).1 = .ok)
    (payload : Bytes) (frame : RecordFrame) :
    (emitPacket p payload frame).1 ≠ .partialTail := by
  unfold emitPacket
  split
  · simp [Parsing.fail, frameError, parseError, errorSet]
  split
  · simp [Parsing.fail, frameError, parseError, errorSet]
  split
  · simp [Parsing.fail, frameError, parseError, errorSet]
  · simp [Parsing.notify, hcb]

theorem closeGroup_ne_partial {frame : RecordFrame} {r : Status × Parsing σ}
    (h : r.1 ≠ .partialTail) :
    (closeGroup frame r).1 ≠ .partialTail := by
  by_cases htrunc : r.1 = .truncated
  · rcases r with ⟨st, q⟩
    subst htrunc
    simp [closeGroup, Parsing.fail, parseError, errorSet]
  · rwa [closeGroup_of_ne htrunc]

/-- **The records are never answered with `PARTIAL`.** -/
theorem parseRecords_ne_partial {data : Bytes} {size offset depth : ℕ}
    (hcb : ∀ user event, (p.callbacks.call user event).1 = .ok) (herr : p.error.code = .ok)
    (hsize : size ≤ data.length) (hmax : size ≤ sizeMax) (hoff : 72 ≤ offset) :
    (parseRecords data offset size (UInt8.ofNat depth) p).1 ≠ .partialTail := by
  induction hn : size - offset using Nat.strongRecOn generalizing size offset depth p with
  | ind n ih =>
    subst hn
    by_cases hlt : offset < size
    swap
    · rw [parseRecords_eq data hmax, if_neg hlt]
      split <;> simp [Parsing.fail, parseError, errorSet]
    obtain hmore | ⟨e, he, hstop⟩ | ⟨h, payload, hhead, hl, hend, -, -⟩ :=
      recordStep_cases (parseRecords data) (UInt8.ofNat depth) p hsize hmax
    · rw [parseRecords_eq data hmax, if_pos hlt, hmore]
      simp
    · rw [parseRecords_eq data hmax, if_pos hlt, hstop]
      exact he.2.1
    have hge := h.size_ge payload.length
    have hf : Found data p.limits offset (offset + h.size payload.length) offset h payload :=
      ⟨Nat.le_refl _, Nat.le_refl _, hhead, hl⟩
    obtain ⟨tail, hrec⟩ := visits_record depth herr (hend.trans hsize) (hend.trans hmax) hf
    have hprocessed := hf.processed (parseRecords data) depth p
    obtain ⟨-, -, hstop⟩ | ⟨hrok, -, hloop⟩ :=
      parseRecords_framed depth hsize hmax hoff hhead hl hend rfl
    · rw [hstop]
      generalize processRecord (parseRecords data) data (h.frameAt offset payload.length
        (UInt8.ofNat depth)) p = r at hprocessed
      cases hprocessed with
      | unanswered hne => exact absurd (hcb _ _) hne
      | skipped | checked => simp
      | stream => exact emitStream_ne_partial (p := (p.notify _).2) hcb herr _ _
      | packet => exact emitPacket_ne_partial (p := (p.notify _).2) hcb _ _
      | refused _ e he => exact he.2.1
      | opened _ _ hm =>
        obtain ⟨m, children, hm⟩ := hm
        have hlen := congrArg List.length hm
        have hinner := hf.children_le
        rw [length_groupPayload] at hlen
        refine closeGroup_ne_partial ?_
        rw [show (h.frameAt offset payload.length (UInt8.ofNat depth)).depth + 1 =
          UInt8.ofNat (depth + 1) from depth_succ depth]
        exact ih (payload.length - 20) (by omega) (p := (p.notify _).2) hcb herr
          (show offset + h.headerSize payload.length + payload.length ≤ data.length by omega)
          (show offset + h.headerSize payload.length + payload.length ≤ sizeMax by omega)
          (show 72 ≤ offset + h.headerSize payload.length + 20 by omega)
          (show offset + h.headerSize payload.length + payload.length -
            (offset + h.headerSize payload.length + 20) = payload.length - 20
            by omega)
    · rw [hloop]
      exact ih (size - (offset + h.size payload.length)) (by omega)
        (p := { (processRecord (parseRecords data) data (h.frameAt offset payload.length
          (UInt8.ofNat depth)) p).2 with
          validPrefix := offset + h.size payload.length })
        (by dsimp only; rw [hrec.callbacks]; exact hcb)
          ((congrArg Error.code (hrec.allOk hrok).2).trans herr) hsize hmax (by omega) rfl

end

/-! ### A feed -/

section

variable {L : Limits} {callbacks : Callbacks σ} {errors : σ → List Error} {d : Decoder σ}
    {ds : List Delivery} {piece : Piece}

/-- Deliveries tell no errors. -/
theorem Callbacks.Logs.deliver (hcb : callbacks.Logs errors) (user : σ) (events : List Event) :
    errors (callbacks.deliver user events) = errors user := by
  induction events generalizing user with
  | nil => rfl
  | cons e events ih => exact (ih _).trans (hcb.call user e).2

/-- A client whose callbacks return `OK` has no record fetched again. -/
theorem Ledger.feed_of_ok (h : Ledger L callbacks d ds) (hcb : callbacks.Logs errors)
    (piece : Piece) :
    ∃ ds', Ledger L callbacks (d.feed piece).2 ds' := by
  obtain ⟨new, -, -, ⟨hledger, -⟩ | ⟨⟨before, last, -, -, -, htrunc⟩, -⟩⟩ := h.feed piece
  · exact ⟨_, hledger⟩
  · rw [(hcb.call _ _).1] at htrunc
    cases htrunc

/-- `on_error` is called with the error that the decoder keeps. -/
theorem errors_notifyError (hcb : d.callbacks.Logs errors) :
    errors d.notifyError.user = errors d.user ++ [d.notifyError.error] := by
  obtain ⟨f, hf, hlog⟩ := hcb.error
  unfold Decoder.notifyError
  rw [hf]
  exact hlog ..

/-- A header that is lost is refused. -/
theorem HeaderLost.refused (h : HeaderLost d piece) :
    ∃ e, Decoder.acceptHeader { d with buffer := (bufferAppend d.buffer piece.data).2 } =
      .error e := by
  unfold Decoder.acceptHeader
  rw [if_neg (by simp [h.pending])]
  dsimp only
  rw [bufferAppend_ok h.fits]
  cases hval : validateHeader (d.buffer.data ++ piece.data) d.limits with
  | error e => exact ⟨e, rfl⟩
  | ok u => exact absurd hval h.invalid

/-- The error of a header that is refused: it says whether the header is complete. -/
theorem Decoder.acceptHeader_refused {e : Error} (h : d.acceptHeader = .error e) :
    d.headerValidated = false ∧ validateHeader d.buffer.data d.limits = .error e := by
  unfold Decoder.acceptHeader at h
  split at h
  · cases h
  · rename_i hval
    split at h
    · rename_i e' herr
      cases h
      exact ⟨by simpa using hval, herr⟩
    · cases h

/-- The records behind the header tell nothing, and are not answered with `PARTIAL`. -/
theorem Ledger.records (h : Ledger L callbacks d ds) (hcb : callbacks.Logs errors) {d' : Decoder σ}
    (hlive : d.terminal = false) (hd : d.acceptHeader = .ok d') {r : Status × Parsing σ}
    (hr : parseRecords d'.buffer.data d'.parseOffset d'.buffer.data.length 0 d'.toParsing = r) :
    r.2.callbacks = callbacks ∧ errors r.2.user = errors d.user ∧ r.1 ≠ .partialTail := by
  obtain ⟨e, hno, -⟩ | ⟨d'', hyes, h', hlive', hval, huser⟩ := h.acceptHeader hlive
  · rw [hd] at hno
    cases hno
  obtain rfl : d' = d'' := Except.ok.inj (hd.symm.trans hyes)
  obtain ⟨new, -, hcallbacks, hdeliver, -⟩ := h'.parse hlive' hval
  obtain ⟨herr, ⟨hno, -⟩ | ⟨-, h72, -⟩⟩ := h'.live hlive'
  · exact absurd (hno.symm.trans hval) (by simp)
  rw [hr] at hcallbacks hdeliver
  refine ⟨hcallbacks, ?_, ?_⟩
  · rw [hdeliver, hcb.deliver, huser]
  · have hne : (parseRecords d'.buffer.data d'.parseOffset d'.buffer.data.length (UInt8.ofNat 0)
        d'.toParsing).1 ≠ .partialTail :=
      parseRecords_ne_partial
        (fun user event => by rw [h'.callbacks]; exact (hcb.call user event).1) herr (Nat.le_refl _)
        h'.bounded.size h72
    exact hr ▸ hne

/-- **What a feed tells**: of a refusal, unless it is that of a header in the last feed, and
otherwise nothing. -/
theorem Ledger.told (h : Ledger L callbacks d ds) (hcb : callbacks.Logs errors) (piece : Piece) :
    (d.Fails piece ∧ (HeaderLost d piece ∧ errors (d.feed piece).2.user = errors d.user ∨
        ¬ HeaderLost d piece ∧ errors (d.feed piece).2.user = errors d.user ++
          [(d.feed piece).2.error])) ∨
      ¬ d.Fails piece ∧ ¬ HeaderLost d piece ∧ errors (d.feed piece).2.user = errors d.user := by
  have happend := h.append piece.data
  -- what a feed comes to decides whether it fails
  have hfails : ∀ {r : Status × Decoder σ}, d.feed piece = r → d.terminal = false →
      r.2.terminal = true → r.1 ≠ .ok → r.1 ≠ .partialTail → d.Fails piece :=
    fun hr hlive hends hok hpart =>
        ⟨hlive, by rw [hr]; exact hends, by rw [hr]; exact ⟨hok, hpart⟩⟩
  have hgoes : ∀ {r : Status × Decoder σ}, d.feed piece = r → r.1 = .ok ∨ r.1 = .partialTail →
      ¬ d.Fails piece := by
    intro r hr hst hfail
    have hstatus := hfail.status
    rw [hr] at hstatus
    exact not_or.mpr hstatus hst
  have hkept : ∀ {d'}, Decoder.acceptHeader
      { d with buffer := (bufferAppend d.buffer piece.data).2 } = .ok d' →
        ¬ HeaderLost d piece := by
    intro d' hd hlost
    obtain ⟨e, he⟩ := hlost.refused
    rw [hd] at he
    cases he
  have hcase := feed_case d piece
  generalize hr : d.feed piece = r at hcase
  cases hcase with
  | closed hclosed hne =>
    refine .inr ⟨fun hfail => ?_, fun hlost => ?_, rfl⟩
    · have hends := hfail.ends
      rw [hr] at hends
      exact absurd (hfail.live.symm.trans hends) (by simp)
    · obtain hcancel | hterm := hclosed
      · exact absurd (hlost.live.1.symm.trans hcancel) (by simp)
      · exact absurd (hlost.live.2.symm.trans hterm) (by simp)
  | full hfull =>
    refine .inr ⟨fun hfail => ?_, fun hlost => hfull hlost.fits, rfl⟩
    have hends := hfail.ends
    rw [hr] at hends
    exact absurd (hfail.live.symm.trans hends) (by simp)
  | short _ hlive hmore =>
    exact .inr ⟨hgoes hr (.inl rfl), fun hlost => absurd (hmore.symm.trans hlost.last)
      (by simp), rfl⟩
  | @headerRefused e hlive hmore hd =>
    have herr := validateHeader_error (Decoder.acceptHeader_refused hd).2
    refine .inl ⟨hfails hr hlive rfl herr.1 herr.2.1,
      .inr ⟨fun hlost => absurd (hmore.symm.trans hlost.last) (by simp), ?_⟩⟩
    exact errors_notifyError (d := { d with buffer := (bufferAppend d.buffer piece.data).2,
                                            error := e })
      (show d.callbacks.Logs errors by rw [h.callbacks]; exact hcb)
  | @headerRefusedLast e hopen hlast hok hd =>
    obtain ⟨hpending, hval⟩ := Decoder.acceptHeader_refused hd
    obtain ⟨hne, hpart, htrunc⟩ := validateHeader_error hval
    dsimp only at hval htrunc
    rw [bufferAppend_ok hok] at hval htrunc
    by_cases h72 : (d.buffer.data ++ piece.data).length < 72
    · rw [if_pos (htrunc.mpr h72)] at hr ⊢
      exact .inr ⟨hgoes hr (.inr rfl), fun hlost => absurd hlost.complete (by omega), rfl⟩
    · rw [if_neg fun h => h72 (htrunc.mp h)] at hr ⊢
      exact .inl ⟨hfails hr hopen.2 rfl hne hpart,
        .inl ⟨⟨hopen, hlast, hok, hpending, by omega, by simp [hval]⟩, rfl⟩⟩
  | @refused d' r hlive hd hrecords hok =>
    obtain ⟨hcallbacks, hquiet, hpart⟩ := happend.records hcb hlive hd hrecords
    refine .inl ⟨hfails hr hlive rfl hok hpart, .inr ⟨hkept hd, ?_⟩⟩
    rw [← hquiet]
    exact errors_notifyError (d := { d' with toParsing := r.2 })
      (show r.2.callbacks.Logs errors by rw [hcallbacks]; exact hcb)
  | cut hlive hlast hd hrecords =>
    obtain ⟨-, hquiet, -⟩ := happend.records hcb hlive hd hrecords
    exact .inr ⟨hgoes hr (.inr rfl), hkept hd, hquiet⟩
  | parsed hlive hdata hd hrecords =>
    obtain ⟨-, hquiet, -⟩ := happend.records hcb hlive hd hrecords
    exact .inr ⟨hgoes hr (.inl rfl), hkept hd, hquiet⟩

/-! ### A session -/

theorem Decoder.failed_cons {pieces : List Piece} :
    d.Failed (piece :: pieces) ↔ d.Fails piece ∨ (d.feed piece).2.Failed pieces := by
  constructor
  · rintro ⟨fed, last, rest, heq, hfails⟩
    cases fed with
    | nil =>
      obtain ⟨rfl, -⟩ := List.cons.inj heq
      exact .inl hfails
    | cons first fed =>
      obtain ⟨rfl, rfl⟩ := List.cons.inj heq
      exact .inr ⟨fed, last, rest, rfl, hfails⟩
  · rintro (hfails | ⟨fed, last, rest, rfl, hfails⟩)
    · exact ⟨[], piece, pieces, rfl, hfails⟩
    · exact ⟨piece :: fed, last, rest, rfl, hfails⟩

/-- A run of feeds, from any state that a session comes to. -/
theorem Ledger.told_feeds_iff (h : Ledger L callbacks d ds) (hcb : callbacks.Logs errors)
    (pieces : List Piece) :
    Told errors d pieces ↔
      EachBehind (fun fed piece => ¬ HeaderLost (d.feeds fed) piece) pieces := by
  induction pieces generalizing d ds with
  | nil =>
    refine iff_of_true ⟨fun hfailed => ?_, fun _ => rfl⟩ eachBehind_nil
    obtain ⟨fed, piece, rest, heq, -⟩ := hfailed
    simp at heq
  | cons piece pieces ih =>
    obtain ⟨ds', h'⟩ := h.feed_of_ok hcb piece
    have hfeeds : d.feeds (piece :: pieces) = (d.feed piece).2.feeds pieces := rfl
    rw [eachBehind_cons]
    obtain ⟨hfails, htells⟩ | ⟨hgoes, hkept, hquiet⟩ := h.told hcb piece
    · -- the session is over, and nothing more is told
      have hstays := Decoder.feeds_of_terminal hfails.ends pieces
      have hrest : EachBehind (fun fed next => ¬ HeaderLost (d.feeds (piece :: fed)) next)
          pieces := by
        intro fed next rest _ hlost
        have hlive := hlost.live.2
        rw [show d.feeds (piece :: fed) = (d.feed piece).2.feeds fed from rfl,
          Decoder.feeds_of_terminal hfails.ends] at hlive
        exact absurd (hlive.symm.trans hfails.ends) (by simp)
      have hfailed : d.Failed (piece :: pieces) := Decoder.failed_cons.mpr (.inl hfails)
      obtain ⟨hlost, hsilent⟩ | ⟨hkept, htold⟩ := htells
      · refine iff_of_false (fun htold => ?_) fun hkeeps => hkeeps.1 hlost
        have htells := htold.refused hfailed
        rw [hfeeds, hstays, hsilent] at htells
        simp at htells
      · refine iff_of_true ⟨fun _ => ?_, fun hno => absurd hfailed hno⟩ ⟨hkept, hrest⟩
        rw [hfeeds, hstays]
        exact htold
    · have hsame : d.Failed (piece :: pieces) ↔ (d.feed piece).2.Failed pieces :=
        Decoder.failed_cons.trans (or_iff_right hgoes)
      have hiff : Told errors d (piece :: pieces) ↔ Told errors (d.feed piece).2 pieces := by
        constructor
        · intro htold
          exact ⟨fun hfailed => hquiet ▸ htold.refused (hsame.mpr hfailed),
            fun hno => hquiet ▸ htold.otherwise (mt hsame.mp hno)⟩
        · intro htold
          exact ⟨fun hfailed => hquiet ▸ htold.refused (hsame.mp hfailed),
            fun hno => hquiet ▸ htold.otherwise (mt hsame.mpr hno)⟩
      rw [hiff, ih h']
      exact (and_iff_right hkept).symm

/-! ### Any pieces -/

/-- Errors are told of a session that is given with its last status. -/
def ToldOf (errors : σ → List Error) (user : σ) (r : Status × Decoder σ) : Prop :=
  errors r.2.user = errors user ++ if r.1 = .ok ∨ r.1 = .partialTail then [] else [r.2.error]

/-- The header of the bytes is accepted, or it is not complete. -/
def HeaderFits (L : Limits) (B : Bytes) : Prop := 72 ≤ B.length → validateHeader B L = .ok ()

/-- A feed of bytes that fit is told, if the header is not lost. -/
theorem Ledger.toldOf {limit pos : ℕ} {data : Bytes} {p : Parsing σ} (h : Ledger L callbacks d ds)
    (hw : Waits callbacks limit d data pos p) (hcb : callbacks.Logs errors)
    (hfits : (bufferAppend d.buffer piece.data).1 = .ok) (hkept : ¬ HeaderLost d piece) :
    ToldOf errors d.user (d.feed piece) := by
  have hends : (d.feed piece).1 = .ok ∨ (d.feed piece).1 = .partialTail ∨
      (d.feed piece).2.terminal = true := by
    have hcase := feed_case d piece
    generalize d.feed piece = r at hcase
    cases hcase with
    | closed hclosed =>
      have hopen := hw.cancelled
      have hlive := hw.terminal
      simp [hopen, hlive] at hclosed
    | full hfull => exact absurd hfits hfull
    | short | parsed => exact .inl rfl
    | headerRefused | headerRefusedLast | refused | cut => exact .inr (.inr rfl)
  rw [ToldOf]
  obtain ⟨hfails, ⟨hlost, -⟩ | ⟨-, htold⟩⟩ | ⟨hgoes, -, hquiet⟩ := h.told hcb piece
  · exact absurd hlost hkept
  · rw [if_neg (not_or.mpr hfails.status)]
    exact htold
  · rw [hquiet]
    split
    · simp
    · rename_i hno
      rw [not_or] at hno
      exact absurd ⟨hw.terminal, (hends.resolve_left hno.1).resolve_left hno.2, hno⟩ hgoes

/-- A session of bytes that fit is told, if its header is accepted. -/
theorem Ledger.session_told {limit pos : ℕ} {data : Bytes} {p : Parsing σ} {trace : σ → List Event}
    (h : Ledger L callbacks d ds) (hw : Waits callbacks limit d data pos p)
    (hcb : callbacks.Logs errors) (htr : callbacks.Traces trace) (pieces : List Bytes)
    (hmax : (data ++ pieces.flatten).length ≤ sizeMax)
    (hlimit : limit = 0 ∨ (data ++ pieces.flatten).length ≤ limit)
    (hheader : HeaderFits L (data ++ pieces.flatten)) :
    ToldOf errors d.user (decoderSession d pieces) := by
  induction pieces generalizing d ds data pos p with
  | nil => simp [ToldOf, decoderSession]
  | cons piece pieces ih =>
    rw [List.flatten_cons, ← List.append_assoc] at hmax hlimit hheader
    have hle : (data ++ piece).length ≤ (data ++ piece ++ pieces.flatten).length := by
      simp only [List.length_append]
      omega
    obtain ⟨d', hw', hfeed⟩ := hw.fed (hle.trans hmax) (hlimit.imp_right hle.trans)
    have hfits := (hw.fits (hle.trans hmax) (hlimit.imp_right hle.trans)).1
    cases pieces with
    | nil =>
      have hfits' : (bufferAppend d.buffer (Piece.mk piece true).data).1 = .ok := hfits
      refine h.toldOf hw hcb hfits' fun hlost => hlost.invalid ?_
      have hcomplete := hlost.complete
      rw [hw.bytes] at hcomplete ⊢
      rw [h.limits]
      simp only [List.flatten_nil, List.append_nil] at hheader
      exact hheader hcomplete
    | cons next pieces =>
      have hfits' : (bufferAppend d.buffer (Piece.mk piece false).data).1 = .ok := hfits
      have htold := h.toldOf hw hcb hfits' fun hlost => absurd hlost.last (by simp)
      obtain ⟨ds', h'⟩ := h.feed_of_ok hcb ⟨piece, false⟩
      change ToldOf errors d.user (andThen (d.feed ⟨piece, false⟩)
        (decoderSession · (next :: pieces)))
      by_cases hok : (d.feed ⟨piece, false⟩).1 = .ok
      swap
      · rwa [andThen_of_ne hok]
      -- the decoder waits for the rest
      obtain ⟨o, -, hmore⟩ := hw'.more htr (hle.trans hmax)
      have hfed : Tide.feedMore d' = d.feed ⟨piece, false⟩ :=
        (congrArg (fun fed : Fed σ => (fed.status, fed.decoder)) (hfeed false)).symm
      rw [hfed] at hmore
      cases o with
      | stop q => exact absurd (hmore.2.status.symm.trans hok) hmore.1
      | wait pos' p' =>
        have hrest := ih h' hmore.2 hmax hlimit hheader
        rw [ToldOf, hok, if_pos (.inl rfl), List.append_nil] at htold
        rw [show d.feed ⟨piece, false⟩ = (.ok, (d.feed ⟨piece, false⟩).2) from Prod.ext hok rfl,
          andThen_ok, ToldOf, ← htold]
        exact hrest

end

/-- **When errors are told**: in any session, of a client whose callbacks return `OK`, with any
pieces and any outcomes of the allocations, `on_error` is called once, with the last error,
if the header or a record is refused, and otherwise not at all, if and only if no header is
refused in the last feed. So of bytes that fit, in pieces and in one feed, it is called so,
and as often, if and only if their header is not refused. -/
theorem told_iff (L : Limits) {callbacks : Callbacks σ} {errors : σ → List Error}
    (hcb : callbacks.Logs errors) (user : σ) :
    (∀ (allocs bufferAllocs : Stream' Bool) (pieces : List Piece),
      let d := decoderInit (some L) callbacks user allocs bufferAllocs
      Told errors d pieces ↔
        EachBehind (fun fed piece => ¬ HeaderLost (d.feeds fed) piece) pieces) ∧
    ∀ (trace : σ → List Event) (pieces : List Bytes), callbacks.Traces trace → pieces ≠ [] →
      pieces.flatten.length ≤ sizeMax →
      (L.maxAggregateAlloc = 0 ∨ pieces.flatten.length ≤ L.maxAggregateAlloc.toNat) →
      let d := decoderInit (some L) callbacks user (Stream'.const true) (Stream'.const true)
      let session := decoderSession d pieces
      let single := d.feed ⟨pieces.flatten, true⟩
      (ToldOf errors user session ∧ ToldOf errors user single ∧
        (errors session.2.user).length = (errors single.2.user).length ↔
        HeaderFits L pieces.flatten) := by
  refine ⟨fun allocs bufferAllocs pieces =>
    (ledger_decoderInit L callbacks user allocs bufferAllocs).told_feeds_iff hcb pieces, ?_⟩
  intro trace pieces htr hne hmax hlimit d session single
  have hledger := ledger_decoderInit L callbacks user (Stream'.const true) (Stream'.const true)
  have hw := waits_decoderInit L callbacks user
  have hlimit' := Limits.aggregate_covers hlimit
  constructor
  · rintro ⟨-, hsingle, -⟩ hcomplete
    by_contra hinvalid
    have hlost : HeaderLost d ⟨pieces.flatten, true⟩ :=
      ⟨⟨rfl, rfl⟩, rfl, (hw.fits (by simpa using hmax) (by simpa using hlimit')).1, rfl, hcomplete,
        hinvalid⟩
    obtain ⟨hfails, ⟨-, hsilent⟩ | ⟨hkept, -⟩⟩ | ⟨-, hkept, -⟩ :=
      hledger.told hcb ⟨pieces.flatten, true⟩
    · have hsilent' : errors single.2.user = errors user := hsilent
      rw [ToldOf, if_neg (not_or.mpr hfails.status), hsilent'] at hsingle
      simp at hsingle
    · exact hkept hlost
    · exact hkept hlost
  · intro hheader
    have hsession := hledger.session_told hw hcb htr pieces hmax hlimit' hheader
    have hsingle := hledger.session_told hw hcb htr [pieces.flatten] (by simpa using hmax)
      (by simpa using hlimit') (by simpa using hheader)
    have hstatus := (decoderSession_agrees pieces hne L hmax hlimit callbacks trace
      htr user).1.status
    refine ⟨hsession, hsingle, ?_⟩
    have hlen : ∀ r : Status × Decoder σ, ToldOf errors user r →
        (errors r.2.user).length = (errors user).length + if r.1 = .ok ∨
          r.1 = .partialTail then 0 else 1 := by
      intro r htold
      rw [htold, List.length_append]
      split <;> rfl
    rw [hlen session hsession, hlen single hsingle, show session.1 = single.1 from hstatus]

/-- The client that keeps the errors and nothing else. -/
def errorLog : Callbacks (List Error) :=
  { Callbacks.null with onError := some fun log e => log ++ [e] }

theorem errorLog_logs : errorLog.Logs id :=
  ⟨fun _ event => by cases event <;> exact ⟨rfl, rfl⟩, _, rfl, fun _ _ => rfl⟩

theorem errorLog_traces : errorLog.Traces fun _ => [] :=
  ⟨fun _ event => by cases event <;> exact ⟨rfl, rfl⟩, fun _ _ _ _ => rfl⟩

/-- A complete header that is none. -/
def zeroHeader : Bytes := List.replicate 72 0

/-- `on_error` is told of that header if more is to come, and of the header of the sample file there
is nothing to tell. -/
theorem zeroHeader_told :
    let d := decoderInit (some limitsDefault) errorLog [] (Stream'.const true) (Stream'.const true)
    Told id d [⟨zeroHeader, false⟩, ⟨[], true⟩] ∧
      (d.feeds [⟨zeroHeader, false⟩, ⟨[], true⟩]).user.length = 1 ∧
      ToldOf id [] (decoderSession d [sampleFile.take 100, sampleFile.drop 100]) := by
  intro d
  obtain ⟨hsession, hpieces⟩ := told_iff limitsDefault errorLog_logs []
  refine ⟨(hsession _ _ _).mpr ?_, by decide +kernel,
    ((hpieces _ [sampleFile.take 100, sampleFile.drop 100] errorLog_traces (by simp)
      (by decide +kernel) (.inr (by decide +kernel))).mpr fun _ => by decide +kernel).1⟩
  rw [eachBehind_cons, eachBehind_cons]
  refine ⟨fun hlost => absurd hlost.last (by simp), fun hlost => ?_, eachBehind_nil⟩
  have hover : (d.feeds [⟨zeroHeader, false⟩]).terminal = true := by decide +kernel
  exact absurd (hlost.live.2.symm.trans hover) (by simp)

/-- In the last feed `on_error` is not told of the header. -/
theorem zeroHeader_silent :
    let d := decoderInit (some limitsDefault) errorLog [] (Stream'.const true) (Stream'.const true)
    (d.feed ⟨zeroHeader, true⟩).1 = .format ∧ (d.feed ⟨zeroHeader, true⟩).2.user = [] ∧
      ¬ ∀ pieces, Told id d pieces := by
  intro d
  have hsilent : (d.feeds [⟨zeroHeader, true⟩]).user = [] := by decide +kernel
  refine ⟨by decide +kernel, hsilent, fun h => ?_⟩
  have hfails : d.Fails ⟨zeroHeader, true⟩ := ⟨rfl, by decide +kernel, by decide +kernel⟩
  have htold := (h [⟨zeroHeader, true⟩]).refused ⟨[], _, [], rfl, hfails⟩
  rw [hsilent] at htold
  simp at htold

end Tide
