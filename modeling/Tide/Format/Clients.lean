import Tide.Format.Alike
import Tide.Format.Depth
import Tide.Format.Feed
import Tide.Format.Oversize
import Tide.Format.Volume

/-!
# Clients of any kind

A client may leave callbacks out, as the demux does, and nothing in its state need tell what
was delivered. What it answers depends on the deliveries all the same, so that a respondent can
stand in for it (`Callbacks.standIn`). The stand-in keeps every event that is delivered, also
those the client has no callback for, and answers as the client does: the parser and the
decoder do the same for both (`parseTideBytes_standIn`, `feeds_standIn`).

What holds of respondents then holds of every client: when each event comes once
(`decoderFeeds_once_standIn`), how much is delivered (`delivered_volume_standIn`), and, of clients
that answer `OK`, how deep the decoder goes (`parseTideBytes_depth_traces`,
`decoderSession_depth_traces`).
-/

namespace Tide

open Theory

variable {σ : Type}

/-- What the client answers that was at `user` before anything was delivered. -/
def Callbacks.answering (callbacks : Callbacks σ) (user : σ) (heard : List Event)
    (event : Event) : Status :=
  (callbacks.call (callbacks.deliver user heard) event).1

/-- The respondent that stands in for the client. -/
def Callbacks.standIn (callbacks : Callbacks σ) (user : σ) : Callbacks (List Event) :=
  respondent (callbacks.answering user)

section

variable (callbacks : Callbacks σ) (user : σ)

theorem standIn_answers :
    (callbacks.standIn user).Answers id (callbacks.answering user) := respondent_answers _

/-- The client and its stand-in answer alike. -/
theorem standIn_call (u : σ) (heard : List Event) (event : Event)
    (h : u = callbacks.deliver user heard) :
    (callbacks.call u event).1 = ((callbacks.standIn user).call heard event).1 ∧
      (callbacks.call u event).2 = callbacks.deliver user
        ((callbacks.standIn user).call heard event).2 := by
  obtain ⟨hstatus, hheard⟩ := (standIn_answers callbacks user).call heard event
  simp only [id_eq] at hstatus hheard
  rw [hstatus, hheard, callbacks.deliver_append, h]
  exact ⟨rfl, rfl⟩

/-- The client answers `OK` throughout where its stand-in does. -/
theorem standIn_allOk_iff (heard events : List Event) :
    (callbacks.standIn user).AllOk heard events ↔
      callbacks.AllOk (callbacks.deliver user heard) events := by
  induction events generalizing heard with
  | nil => exact Iff.rfl
  | cons event events ih =>
    obtain ⟨hstatus, hnext⟩ := standIn_call callbacks user _ heard event rfl
    rw [Callbacks.AllOk, Callbacks.AllOk, ih, hstatus, hnext]

/-- **The parser** does for a client what it does for its stand-in. -/
theorem parseTideBytes_standIn (data : Bytes) (finish : Bool) (limits : Option Limits)
    (allocs : Stream' Bool) :
    AlikeRun (fun u heard => u = callbacks.deliver user heard)
      (parseTideBytes data finish limits callbacks user allocs)
      (parseTideBytes data finish limits (callbacks.standIn user) [] allocs) :=
  parseTideBytes_alike (standIn_call callbacks user) rfl data finish limits allocs

theorem Parsing.told_callbacks (p : Parsing σ) : p.told.callbacks = p.callbacks := by
  unfold told
  cases p.callbacks.onError <;> rfl

theorem Parsing.told_of_none {p : Parsing σ} (h : p.callbacks.onError = none) : p.told = p := by
  unfold told
  rw [h]

theorem Parsing.told_afterError (p : Parsing σ) : p.callbacks.AfterError p.user p.told.user := by
  unfold told
  cases hf : p.callbacks.onError with
  | none => exact .inl rfl
  | some f => exact .inr ⟨f, p.error, hf, rfl⟩

theorem Decoder.feeds_settings (d : Decoder σ) (pieces : List Piece) :
    (d.feeds pieces).settings = d.settings :=
  answers_invariant (I := fun c : Decoder σ => c.settings = d.settings)
    (fun c piece h => (c.feed_settings piece).trans h) rfl pieces

/-- **The decoder** answers a client what it answers its stand-in. The client is where the events
that were delivered to the stand-in take it, or `on_error` has been called behind them. -/
theorem feeds_standIn (limits : Option Limits) (allocs bufferAllocs : Stream' Bool)
    (pieces : List Piece) :
    let d := decoderInit limits callbacks user allocs bufferAllocs
    let told := decoderInit limits (callbacks.standIn user) [] allocs bufferAllocs
    (answers Decoder.feed d pieces).1 = (answers Decoder.feed told pieces).1 ∧
      callbacks.AfterError (callbacks.deliver user (told.feeds pieces).user)
        (d.feeds pieces).user := by
  intro d told
  have hstart : d.Alike (fun u heard => u = callbacks.deliver user heard) told :=
    decoderInit_alike (standIn_call callbacks user) (show user = callbacks.deliver user []
      from rfl) limits allocs bufferAllocs
  have hstep : ∀ (c : Decoder σ) (c' : Decoder (List Event)) (piece : Piece),
      c.Alike (fun u heard => u = callbacks.deliver user heard) c' →
      True → (c.feed piece).1 = (c'.feed piece).1 ∧
        (c.feed piece).2.Alike (fun u heard => u = callbacks.deliver user heard)
          (c'.feed piece).2 := by
    intro c c' piece h _
    obtain ⟨hstatus, hnext⟩ := h.decoderFeed piece.data piece.finish
    exact ⟨hstatus.symm, hnext⟩
  have hany : ∀ piece ∈ pieces, True := fun _ _ => trivial
  obtain ⟨hsame, halike⟩ := answers_eq hstep hstart hany
  refine ⟨hsame, ?_⟩
  obtain halike | ⟨-, p, q, hpq, hd, htold⟩ := halike.parsing
  · exact .inl halike.user
  have hp : p.callbacks = callbacks := by
    rw [← p.told_callbacks, ← hd]
    exact congrArg Prod.snd (d.feeds_settings pieces)
  have hq : q.callbacks = callbacks.standIn user := by
    rw [← q.told_callbacks, ← htold]
    exact congrArg Prod.snd (told.feeds_settings pieces)
  -- nobody tells the stand-in of an error
  have hsilent : q.told = q := Parsing.told_of_none (by rw [hq]; rfl)
  have huser : (told.feeds pieces).user = q.user := congrArg Parsing.user (htold.trans hsilent)
  have hafter := p.told_afterError
  rw [hp, hpq.user, ← huser] at hafter
  rw [show (d.feeds pieces).user = p.told.user from congrArg Parsing.user hd]
  exact hafter

/-! ### Sessions of any client -/

/-- **Every delivery once, to any client**: in a session of a client that has the callbacks it
likes and answers as it likes, nothing is delivered twice, and the first callback that does not
return `OK` ends the session, if and only if no callback for a top-level record returns
`TRUNCATED` before the last feed. -/
theorem decoderFeeds_once_standIn (L : Limits) (allocs bufferAllocs : Stream' Bool)
    (pieces : List Piece) :
    let d := decoderInit (some L) callbacks user allocs bufferAllocs
    let told := decoderInit (some L) (callbacks.standIn user) [] allocs bufferAllocs
    (∀ fed, (answers Decoder.feed d fed).1 = (answers Decoder.feed told fed).1 ∧
        callbacks.AfterError (callbacks.deliver user (told.feeds fed).user) (d.feeds fed).user) ∧
      (DeliversOnce id (callbacks.answering user) told pieces ↔
        EachBehind (fun fed piece => KeepsTruncated id (callbacks.answering user) (told.feeds fed)
          piece) pieces) := by
  intro d told
  have hstart : Session L (callbacks.standIn user) id told [] := ⟨ledger_decoderInit .., rfl⟩
  exact ⟨feeds_standIn callbacks user (some L) allocs bufferAllocs,
    hstart.once_iff (standIn_answers callbacks user) pieces⟩

/-- **Nothing is amplified, to any client**: the events that are delivered have no more volume
than the bytes behind the header, and neither have those of a session, where no callback is
retried. -/
theorem delivered_volume_standIn (L : Limits) (allocs bufferAllocs : Stream' Bool) :
    (∀ (B : Bytes) (finish : Bool), B.length ≤ sizeMax →
      ∃ events,
        (parseTideBytes B finish (some L) (callbacks.standIn user) [] allocs).2.user = events ∧
        (parseTideBytes B finish (some L) callbacks user allocs).2.user =
          callbacks.deliver user events ∧
        volume events ≤ B.length - 72) ∧
    ∀ pieces : List Piece,
      let told := decoderInit (some L) (callbacks.standIn user) [] allocs bufferAllocs
      EachBehind (fun fed piece => KeepsTruncated id (callbacks.answering user) (told.feeds fed)
          piece) pieces →
        volume (told.feeds pieces).user ≤ (pieces.map fun piece => piece.data.length).sum - 72 := by
  constructor
  · intro B finish hB
    obtain ⟨ds, hheard, huser⟩ := heard_of_parse hB finish L (callbacks.standIn user) [] allocs
    have hdelivered : (callbacks.standIn user).deliver [] (eventsOf ds) = eventsOf ds :=
      (standIn_answers callbacks user).deliver [] (eventsOf ds)
    refine ⟨eventsOf ds, huser.trans hdelivered, ?_, hheard.volume_le⟩
    rw [(parseTideBytes_standIn callbacks user B finish (some L) allocs).2.user, huser, hdelivered]
  · intro pieces told hkeeps
    have hstart : Session L (callbacks.standIn user) id told [] := ⟨ledger_decoderInit .., rfl⟩
    exact hstart.volume_le rfl (standIn_answers callbacks user) pieces hkeeps

end

/-! ### How deep the decoder goes, for any client that answers `OK` -/

section

variable {callbacks : Callbacks σ} {trace : σ → List Event}

/-- What a client has heard of the events that a recorder is told. -/
theorem trace_parseTideBytes (hcb : callbacks.Traces trace) (user : σ) (B : Bytes) (finish : Bool)
    (limits : Option Limits) (allocs : Stream' Bool) :
    trace (parseTideBytes B finish limits callbacks user allocs).2.user =
      trace user ++ (parseTideBytes B finish limits recorder [] allocs).2.user.filter
        callbacks.hears := by
  refine (parseTideBytes_alike (R := fun u (events : List Event) => trace u = trace user ++
    events.filter callbacks.hears) ?_ ?_ B finish limits allocs).2.user
  · intro u events event h
    obtain ⟨hok, hheard⟩ := hcb.call u event
    obtain ⟨hrecorded, hevents⟩ := recorder_traces.call events event
    have hevents' : (recorder.call events event).2 = events ++ [event] := by cases event <;> rfl
    rw [hok, hrecorded, hheard, hevents', h, List.filter_append, List.append_assoc]
    exact ⟨rfl, rfl⟩
  · exact (List.append_nil _).symm

/-- The depths that a recorder is told. -/
theorem recorder_depthsTold_iff (B : Bytes) (hB : B.length ≤ sizeMax) (L : Limits) :
    DepthsTold L (parseTideBytes B true (some L) recorder [] (Stream'.const true)).2.user ↔
      L.maxDepth ≤ 255 ∨ ¬ FileReaches B L 256 := by
  have hrecorder : recorder.Answers id fun _ _ => .ok := respondent_answers fun _ _ => .ok
  constructor
  · intro htold
    exact .inr fun hreach => hreach.not_depthsTold hB hrecorder rfl htold
  · intro hcond
    obtain ⟨ds, huser, htold⟩ :=
      parseTideBytes_depthsTold hB (recorder_traces.calm (some L) []) hcond
    rw [huser.trans (hrecorder.deliver [] (eventsOf ds))]
    exact htold

/-- **Nesting is told truly and bounded** in a parse of any client that answers `OK`, whichever
callbacks it has. -/
theorem parseTideBytes_depth_traces (hcb : callbacks.Traces trace) (user : σ) (B : Bytes)
    (hB : B.length ≤ sizeMax) (L : Limits) :
    let r := parseTideBytes B true (some L) callbacks user (Stream'.const true)
    let events := (parseTideBytes B true (some L) recorder [] (Stream'.const true)).2.user
    trace r.2.user = trace user ++ events.filter callbacks.hears ∧
      ((DepthsTold L events ∧
          ∀ other, parseTideBytesTo other L.maxDepth.toNat B true (some L) callbacks user
            (Stream'.const true) = r) ↔
        L.maxDepth ≤ 255 ∨ ¬ FileReaches B L 256) := by
  intro r events
  have htold := recorder_depthsTold_iff B hB L
  refine ⟨trace_parseTideBytes hcb user B true (some L) _, fun h => htold.mp h.1,
    fun hcond => ⟨htold.mpr hcond, ?_⟩⟩
  exact parseTideBytesTo_eq hB (hcb.calm (some L) user) hcond

/-- **Nesting is told truly and bounded** in a session of such a client, however its bytes are
fed. -/
theorem decoderSession_depth_traces (hcb : callbacks.Traces trace) (user : σ) (pieces : List Bytes)
    (hne : pieces ≠ []) (L : Limits) (hmax : pieces.flatten.length ≤ sizeMax)
    (hlimit : L.maxAggregateAlloc = 0 ∨ pieces.flatten.length ≤ L.maxAggregateAlloc.toNat) :
    let session := decoderSession (decoderInit (some L) callbacks user (Stream'.const true)
      (Stream'.const true)) pieces
    let events :=
      (parseTideBytes pieces.flatten true (some L) recorder [] (Stream'.const true)).2.user
    trace session.2.user = trace user ++ events.filter callbacks.hears ∧
      (DepthsTold L events ↔ L.maxDepth ≤ 255 ∨ ¬ FileReaches pieces.flatten L 256) := by
  intro session events
  have hsession := decoderSession_parses pieces hne L hmax hlimit hcb user
  exact ⟨hsession.events.trans (trace_parseTideBytes hcb user pieces.flatten true (some L) _),
    recorder_depthsTold_iff pieces.flatten hmax L⟩

end

end Tide
