import Tide.Format.Feed
import Tide.Format.Session

/-!
# What is known so far

What a parser has said of the first bytes of a file it never takes back. With more bytes a rejection
is the same rejection, and otherwise events and tracks are only added (`parseTideBytes_append`); so
what is accepted with more bytes was not rejected with fewer.

A decoder that is fed piece by piece knows at any moment what the parser would say of the bytes so
far (`feeding_live`): it has delivered the same events, it has the same valid prefix, and it answers
`OK`, until it rejects a record as the parser does, and then takes no more.
-/

namespace Tide

open Theory

variable {σ : Type}

/-! ### More bytes -/

/-- From `p` to `q` events and tracks were added. -/
structure Parsing.Extends (trace : σ → List Event) (p q : Parsing σ) : Prop where
  callbacks : q.callbacks = p.callbacks
  events : trace p.user <+: trace q.user
  tracks : p.tracks <+: q.tracks

theorem Parsing.Extends.refl (trace : σ → List Event) (p : Parsing σ) : Parsing.Extends trace p p :=
  ⟨rfl, List.prefix_rfl, List.prefix_rfl⟩

/-- The parser only adds. -/
theorem kept_extends {trace : σ → List Event} {p : Parsing σ} (hcb : p.callbacks.Traces trace)
    (n : ℕ) : Parsing.Kept n (Parsing.Extends trace p) where
  notify q event h := by
    refine ⟨h.callbacks, h.events.trans ?_, h.tracks⟩
    unfold Parsing.notify
    rw [h.callbacks, (hcb.call q.user event).2]
    exact List.prefix_append ..
  fail _ _ h := ⟨h.callbacks, h.events, h.tracks⟩
  addTrack q stream offset h := by
    unfold addTrack
    dsimp only
    split_ifs <;> exact ⟨h.callbacks, h.events,
      by first | exact h.tracks | exact h.tracks.trans (List.prefix_append ..)⟩
  validPrefix _ _ _ h := ⟨h.callbacks, h.events, h.tracks⟩

theorem parseTideBytes_callbacks (data : Bytes) (finish : Bool) (limits : Option Limits)
    (callbacks : Callbacks σ) (user : σ) (allocs : Stream' Bool) :
    (parseTideBytes data finish limits callbacks user allocs).2.callbacks = callbacks := by
  unfold parseTideBytes
  dsimp only
  split
  · rfl
  · exact congrArg Prod.snd (parseRecords_settings ..)

/-- Parsing adds to what there was at the start. -/
theorem parseTideBytes_extends {callbacks : Callbacks σ} {trace : σ → List Event}
    (hcb : callbacks.Traces trace) (data : Bytes) (finish : Bool) (limits : Option Limits)
    (user : σ) (allocs : Stream' Bool) :
    Parsing.Extends trace (Parsing.start limits callbacks user allocs)
    (parseTideBytes data finish limits callbacks user allocs).2 := by
  unfold parseTideBytes
  dsimp only
  split
  · exact ⟨rfl, List.prefix_rfl, List.prefix_rfl⟩
  · refine (kept_extends (p := Parsing.start limits callbacks user allocs) hcb
      data.length).parseRecords (Nat.le_refl _) ?_ data 72 0
    exact ⟨rfl, List.prefix_rfl, List.prefix_rfl⟩

/-- A loop over a file goes forward. -/
theorem fileStep_forward {data : Bytes} (hmax : data.length ≤ sizeMax) {pos pos' : ℕ}
    {p p' : Parsing σ} (h : fileStep data pos p = .go pos' p') : pos ≤ pos' := by
  unfold fileStep at h
  split_ifs at h with h0
  · omega
  · have := recordStep_go hmax h
    omega

/-- **More bytes add.** A rejection is final; otherwise what was delivered is the beginning of
what is delivered with more bytes, and so are the tracks, and the valid prefix does not shrink
unless a record is rejected behind it. -/
theorem parseTideBytes_append (data ext : Bytes) (hmax : (data ++ ext).length ≤ sizeMax)
    (L : Limits) (callbacks : Callbacks σ) (trace : σ → List Event) (hcb : callbacks.Traces trace)
    (user : σ) :
    let r := parseTideBytes data true (some L) callbacks user (Stream'.const true)
    let r' := parseTideBytes (data ++ ext) true (some L) callbacks user (Stream'.const true)
    (r.1.Rejects → r' = r) ∧
      (¬ r.1.Rejects → trace r.2.user <+: trace r'.2.user ∧ r.2.tracks <+: r'.2.tracks ∧
        (¬ r'.1.Rejects → r.2.validPrefix ≤ r'.2.validPrefix)) := by
  intro r r'
  have hle : data.length ≤ (data ++ ext).length := by simp
  obtain ⟨o, hruns, hparse, hset⟩ := runs_parseTideBytes (hle.trans hmax) (hcb.calm (some L) user)
  obtain ⟨o', hruns', hparse', -⟩ := runs_parseTideBytes hmax (hcb.calm (some L) user)
  have hr : r = fileVerdict data o := hparse
  have hr' : r' = fileVerdict (data ++ ext) o' := hparse'
  cases o with
  | stop q =>
    obtain rfl := hruns'.det (hruns.extend_stop stepMono_fileStep hmax)
    have hrejects : q.1.Rejects := hset.elim id fun h => nomatch h
    have hsame : r' = r := by rw [hr, hr']; rfl
    refine ⟨fun _ => hsame, fun hnot => absurd ?_ hnot⟩
    rw [hr]
    exact hrejects
  | wait pos p =>
    have hnot : ¬ r.1.Rejects := by
      rw [hr, fileVerdict]
      split_ifs <;> simp [Status.Rejects]
    refine ⟨fun h => absurd h hnot, fun _ => ?_⟩
    obtain ⟨h72, hpos, hvp, hcalm⟩ | hstart := hset
    swap
    · -- the header was not complete
      obtain ⟨rfl, rfl⟩ : pos = 0 ∧
          p = Parsing.start (some L) callbacks user (Stream'.const true) := by simpa using hstart
      have hextends : Parsing.Extends trace _ r'.2 :=
        parseTideBytes_extends hcb (data ++ ext) true (some L) user (Stream'.const true)
      rw [hr]
      exact ⟨hextends.events, hextends.tracks, fun _ => Nat.zero_le _⟩
    have hcbp : p.callbacks = callbacks := by
      have hcallbacks : r.2.callbacks = callbacks := parseTideBytes_callbacks ..
      rwa [hr, fileVerdict, if_neg (by omega)] at hcallbacks
    have hrp : r.2 = p := by rw [hr, fileVerdict, if_neg (by omega)]
    obtain ⟨o'', hruns'', hrecords, hset''⟩ := runs_parseRecords hmax hcalm h72 (hpos.trans hle) hvp
    obtain rfl := hruns'.det (hruns.resume stepMono_fileStep hmax hruns'')
    have hrp' : r'.2 = (parseRecords (data ++ ext) pos (data ++ ext).length 0 p).2 := by
      rw [hr', hrecords]
      cases o' with
      | stop q => rfl
      | wait pos' p' =>
        have h72' := hset''.1
        rw [fileVerdict, if_neg (by omega)]
        rfl
    have hextends : Parsing.Extends trace p r'.2 := by
      rw [hrp']
      exact (kept_extends (hcbp ▸ hcb) _).parseRecords (Nat.le_refl _) (.refl trace p)
        (data ++ ext) pos 0
    rw [hrp]
    refine ⟨hextends.events, hextends.tracks, fun hnot' => ?_⟩
    cases o' with
    | stop q => exact absurd (show r'.1.Rejects by rw [hr']; exact hset'') hnot'
    | wait pos' p' =>
      obtain ⟨h72', -, hvp', -⟩ := hset''
      rw [hvp, hr', fileVerdict, if_neg (by omega)]
      dsimp only
      rw [hvp']
      exact hruns''.forward fun h => fileStep_forward hmax h

/-- The small file, and what is delivered of it after a cut in its group. -/
theorem sampleFile_grows :
    (parseTideBytes (sampleFile.take 150) true (some limitsDefault) recorder []
      (Stream'.const true)).2.user <+:
      (parseTideBytes sampleFile true (some limitsDefault) recorder []
        (Stream'.const true)).2.user := by
  have h := (parseTideBytes_append (sampleFile.take 150) (sampleFile.drop 150) (by decide +kernel)
    limitsDefault recorder id recorder_traces
    []).2 (by decide +kernel)
  rw [List.take_append_drop] at h
  exact h.1

/-! ### A decoder that is being fed -/

/-- Pieces behind which more is to come. -/
def morePieces (pieces : List Bytes) : List Piece := pieces.map fun piece => ⟨piece, false⟩

/-- A decoder whose session is over answers `INVALID_ARGUMENT` for ever. -/
theorem answers_of_terminal {d : Decoder σ} (hterm : d.terminal = true)
    (hcancel : d.cancelled = false) (pieces : List Piece) :
    answers Decoder.feed d pieces = (List.replicate pieces.length .invalidArgument, d) := by
  induction pieces with
  | nil => rfl
  | cons piece pieces ih =>
    have hfeed : d.feed piece = (.invalidArgument, d) := by
      unfold Decoder.feed decoderFeed
      rw [if_neg (by simp [hcancel]), if_pos hterm]
    rw [answers, hfeed, ih]
    rfl

/-- A feed neither cancels a session nor takes up one that was cancelled. -/
theorem feed_cancelled (d : Decoder σ) (piece : Piece) :
    (d.feed piece).2.cancelled = d.cancelled := by
  have haccept : ∀ {d d' : Decoder σ}, d.acceptHeader = .ok d' → d'.cancelled = d.cancelled := by
    intro d d' h
    unfold Decoder.acceptHeader at h
    split at h
    · cases h
      rfl
    · split at h <;> cases h
      rfl
  have hnotify : ∀ d : Decoder σ, d.notifyError.cancelled = d.cancelled := by
    intro d
    unfold Decoder.notifyError
    split <;> rfl
  have hcase := feed_case d piece
  generalize d.feed piece = r at hcase ⊢
  cases hcase with
  | closed | full | short | headerRefusedLast => rfl
  | headerRefused => exact hnotify _
  | refused _ hd =>
    have hsame := haccept hd
    exact (hnotify _).trans hsame
  | cut _ _ hd | parsed _ _ hd =>
    have hsame := haccept hd
    exact hsame

/-- A feed that a live decoder does not answer with `OK` ends the session, if the bytes fit. -/
theorem feed_terminal {d : Decoder σ} (hlive : d.terminal = false) (hcancel : d.cancelled = false)
    {piece : Piece} (hfits : (bufferAppend d.buffer piece.data).1 = .ok)
    (hne : (d.feed piece).1 ≠ .ok) : (d.feed piece).2.terminal = true := by
  have hcase := feed_case d piece
  generalize d.feed piece = r at hcase hne ⊢
  cases hcase with
  | closed hclosed => simp [hlive, hcancel] at hclosed
  | full hfail => exact absurd hfits hfail
  | short | parsed => exact absurd rfl hne
  | headerRefused | headerRefusedLast | refused | cut => rfl

/-- What a session without an end makes of an outcome of the loop over its bytes: the decoder waits
there, or the session was over at one of the pieces. -/
def LiveOutcome (callbacks : Callbacks σ) (limit : ℕ) (trace : σ → List Event) (data : Bytes)
    (n : ℕ) (r : List Status × Decoder σ) :
    Outcome (Parsing σ) (Status × Parsing σ) → Prop
  | .wait pos p => r.1 = List.replicate n .ok ∧ Waits callbacks limit r.2 data pos p
  | .stop q =>
    (∃ k m, k + 1 + m = n ∧
      r.1 = List.replicate k .ok ++ q.1 :: List.replicate m .invalidArgument) ∧
      Agrees trace (q.1, r.2.toParsing) q ∧ r.2.terminal = true

/-- **A session without an end** is the loop over its bytes; the induction is on the pieces. -/
theorem Waits.live {callbacks : Callbacks σ} {limit : ℕ} {trace : σ → List Event} {d : Decoder σ}
    {data : Bytes} {pos : ℕ} {p : Parsing σ} (hw : Waits callbacks limit d data pos p)
    (hwait : Runs fileStep data pos p (.wait pos p)) (hcb : callbacks.Traces trace)
    (pieces : List Bytes) (hmax : (data ++ pieces.flatten).length ≤ sizeMax)
    (hlimit : limit = 0 ∨ (data ++ pieces.flatten).length ≤ limit) :
    ∃ o, Runs fileStep (data ++ pieces.flatten) pos p o ∧
      LiveOutcome callbacks limit trace (data ++ pieces.flatten) pieces.length
        (answers Decoder.feed d (morePieces pieces)) o := by
  induction pieces generalizing d data pos p with
  | nil =>
    rw [List.flatten_nil, List.append_nil]
    exact ⟨_, hwait, rfl, hw⟩
  | cons piece pieces ih =>
    rw [List.flatten_cons, ← List.append_assoc] at hmax hlimit ⊢
    have hle : (data ++ piece).length ≤ (data ++ piece ++ pieces.flatten).length := by simp
    have hfits := hw.fits (hle.trans hmax) (hlimit.imp_right hle.trans)
    obtain ⟨d', hw', hfed⟩ := hw.fed (hle.trans hmax) (hlimit.imp_right hle.trans)
    obtain ⟨o, hruns, hmore⟩ := hw'.more hcb (hle.trans hmax)
    have hfeed : d.feed ⟨piece, false⟩ = feedMore d' := by
      unfold Decoder.feed
      rw [hfed false]
      rfl
    have hcancelled := (feed_cancelled d ⟨piece, false⟩).trans hw.cancelled
    have hover : (d.feed ⟨piece, false⟩).1 ≠ .ok → (d.feed ⟨piece, false⟩).2.terminal = true :=
      feed_terminal hw.terminal hw.cancelled hfits.1
    rw [show morePieces (piece :: pieces) = ⟨piece, false⟩ :: morePieces pieces from rfl, answers]
    rw [hfeed] at hcancelled hover ⊢
    generalize feedMore d' = r at hmore hcancelled hover ⊢
    rcases r with ⟨status, d''⟩
    cases o with
    | stop q =>
      obtain ⟨hne, hagree⟩ := hmore
      refine ⟨.stop q, hruns.extend_stop stepMono_fileStep hmax, ?_⟩
      have hstatus : status = q.1 := hagree.status
      have hrest := answers_of_terminal (hover (hstatus ▸ hne)) hcancelled (morePieces pieces)
      rw [hrest]
      refine ⟨⟨0, pieces.length, ?_, ?_⟩, hstatus ▸ hagree, hover (hstatus ▸ hne)⟩
      · rw [List.length_cons]
        omega
      · rw [hstatus, morePieces, List.length_map]
        rfl
    | wait pos' p' =>
      obtain ⟨rfl, hw''⟩ := hmore
      obtain ⟨o', hruns', hlive⟩ := ih hw'' hruns.again hmax hlimit
      refine ⟨o', hruns.resume stepMono_fileStep hmax hruns', ?_⟩
      cases o' with
      | wait pos'' p'' => exact ⟨by rw [hlive.1]; rfl, hlive.2⟩
      | stop q =>
        obtain ⟨⟨k, m, hlength, hanswers⟩, hagree, hterm⟩ := hlive
        refine ⟨⟨k + 1, m, ?_, ?_⟩, hagree, hterm⟩
        · rw [List.length_cons]
          omega
        · rw [hanswers]
          rfl

/-- **At any moment of a session** without an end, the decoder has delivered what the parser
delivers of the bytes so far. If the parser does not reject these, all the feeds were answered
with `OK`, the decoder has the same valid prefix and goes on; if it does, one feed was answered
with its status, those before with `OK` and those behind with `INVALID_ARGUMENT`, and the error is
the same. -/
theorem feeding_live (pieces : List Bytes) (L : Limits) (hmax : pieces.flatten.length ≤ sizeMax)
    (hlimit : L.maxAggregateAlloc = 0 ∨ pieces.flatten.length ≤ L.maxAggregateAlloc.toNat)
    (callbacks : Callbacks σ) (trace : σ → List Event) (hcb : callbacks.Traces trace) (user : σ) :
    let session := answers Decoder.feed (decoderInit (some L) callbacks user (Stream'.const true)
      (Stream'.const true)) (morePieces pieces)
    let whole := parseTideBytes pieces.flatten true (some L) callbacks user (Stream'.const true)
    trace session.2.user = trace whole.2.user ∧ session.2.validPrefix = whole.2.validPrefix ∧
      (¬ whole.1.Rejects → session.1 = List.replicate pieces.length .ok ∧
        session.2.terminal = false) ∧
      (whole.1.Rejects → (∃ k m, k + 1 + m = pieces.length ∧
          session.1 = List.replicate k .ok ++ whole.1 :: List.replicate m .invalidArgument) ∧
        session.2.error = whole.2.error ∧ session.2.terminal = true) := by
  intro session whole
  have hlimit' := Limits.aggregate_covers hlimit
  obtain ⟨o, hruns, hwhole, hset⟩ := runs_parseTideBytes hmax (hcb.calm (some L) user)
  obtain ⟨o', hruns', hlive⟩ :=
    (waits_decoderInit L callbacks user).live .done hcb pieces hmax hlimit'
  rw [List.nil_append] at hruns' hlive
  obtain rfl := hruns.det hruns'
  have hsession : LiveOutcome callbacks L.maxAggregateAlloc.toNat trace pieces.flatten pieces.length
      session o := hlive
  have hverdict : whole = fileVerdict pieces.flatten o := hwhole
  cases o with
  | stop q =>
    obtain ⟨hanswers, hagree, hterm⟩ := hsession
    have hrejects : q.1.Rejects := hset.elim id fun h => nomatch h
    rw [hverdict]
    exact ⟨hagree.events, hagree.validPrefix, fun hnot => absurd hrejects hnot,
      fun _ => ⟨hanswers, hagree.error, hterm⟩⟩
  | wait pos p =>
    obtain ⟨hanswers, hwaits⟩ := hsession
    have hnot : ¬ whole.1.Rejects := by
      rw [hverdict, fileVerdict]
      split_ifs <;> simp [Status.Rejects]
    have hsame : whole.2.user = p.user ∧ whole.2.validPrefix = p.validPrefix := by
      rw [hverdict, fileVerdict]
      split_ifs <;> exact ⟨rfl, rfl⟩
    rw [hsame.1, hsame.2, ← hwaits.parsing]
    exact ⟨rfl, rfl, fun _ => ⟨hanswers, hwaits.terminal⟩, fun h => absurd h hnot⟩

/-- The small file up to its last byte, in three pieces. -/
theorem sampleFile_live :
    (answers Decoder.feed (decoderInit (some limitsDefault) recorder [] (Stream'.const true)
      (Stream'.const true))
        (morePieces [sampleFile.take 10, (sampleFile.drop 10).take 100,
          (sampleFile.drop 110).dropLast])).1 = [.ok, .ok, .ok] := by
  have h := feeding_live [sampleFile.take 10, (sampleFile.drop 10).take 100,
    (sampleFile.drop 110).dropLast] limitsDefault (by decide +kernel)
    (.inr (by decide +kernel)) recorder id recorder_traces []
  exact (h.2.2.1 (by decide +kernel)).1

end Tide
