import Tide.Format.File

/-!
# Feeding piece by piece

`tide_decoder_feed` gets a file in pieces and parses what it can after each, and
`tide_parse_tide_bytes` has it all. Both are one loop over input that is still
arriving (`fileStep`): at position 0 it wants the header, and behind that it is
the loop over records. More bytes never change what a round has answered
(`stepMono_fileStep`), so the session and the parser end in the same way.
-/

namespace Tide

open Theory

variable {σ : Type}

/-- A round of the loop over a file, from a position that is 0 or behind the header. -/
def fileStep (data : Bytes) (pos : ℕ) (p : Parsing σ) : Move (Parsing σ) (Status × Parsing σ) :=
  if pos = 0 then
    if data.length < 72 then .more
    else
      match validateHeader data p.limits with
      | .error e => .stop (p.fail e)
      | .ok () => .go 72 { p with validPrefix := 72 }
  else recordStep (parseRecords data) data data.length pos 0 p

/-- A round over records that did not ask for more answers the same when there is more. -/
theorem recordStep_extend {data ext : Bytes} {pos : ℕ} {depth : UInt8} {p : Parsing σ}
    (hmax : (data ++ ext).length ≤ sizeMax)
    (hne : recordStep (parseRecords data) data data.length pos depth p ≠ .more) :
    recordStep (parseRecords (data ++ ext)) (data ++ ext) (data ++ ext).length pos depth p =
      recordStep (parseRecords data) data data.length pos depth p := by
  have hle : data.length ≤ (data ++ ext).length := by rw [List.length_append]; omega
  have htake : (data ++ ext).take data.length = data.take data.length := by
    rw [List.take_left, List.take_length]
  have hdec : decodeRecordPrefix (data ++ ext) data.length pos depth =
      decodeRecordPrefix data data.length pos depth :=
    decodeRecordPrefix_congr htake depth
  have hnt : decodeRecordPrefix (data ++ ext) data.length pos depth ≠ .truncated := by
    intro h
    rw [hdec] at h
    exact hne (by unfold recordStep; rw [h])
  have hsize :
      recordStep (parseRecords (data ++ ext)) (data ++ ext) (data ++ ext).length pos depth p =
        recordStep (parseRecords (data ++ ext)) (data ++ ext) data.length pos depth p := by
    unfold recordStep
    rw [decodeRecordPrefix_extend hle hnt]
  rw [hsize]
  refine recordStep_congr (hle.trans hmax) htake depth p fun b e depth p _ he => ?_
  refine parseRecords_congr (he.trans (hle.trans hmax)) ?_ depth p
  rw [List.take_append_of_le_length he]

/-- **The loop over a file is monotone.** -/
theorem stepMono_fileStep : StepMono sizeMax (@fileStep σ) := by
  intro data ext pos p hmax hpos hne
  unfold fileStep at hne ⊢
  by_cases h0 : pos = 0
  · rw [if_pos h0] at hne
    rw [if_pos h0, if_pos h0]
    by_cases h72 : data.length < 72
    · rw [if_pos h72] at hne
      exact absurd rfl hne
    · rw [if_neg h72, if_neg (by rw [List.length_append]; omega), validateHeader_append (by omega)]
  · rw [if_neg h0] at hne
    rw [if_neg h0, if_neg h0]
    exact recordStep_extend hmax hne

/-! ### The parser as a loop -/

/-- What `tide_parse_records` answers at an outcome of the loop. -/
def recordsVerdict (data : Bytes) : Outcome (Parsing σ) (Status × Parsing σ) → Status × Parsing σ
  | .stop r => r
  | .wait pos p => (if pos = data.length then .ok else .truncated, p)

/-- What `tide_parse_tide_bytes` answers at an outcome of the loop. -/
def fileVerdict (data : Bytes) : Outcome (Parsing σ) (Status × Parsing σ) → Status × Parsing σ
  | .stop r => r
  | .wait pos p =>
    if pos = 0 then
      (.partialTail, { p with error := parseError .truncated data.length 0 0 "incomplete header" })
    else (if pos = data.length then .ok else .partialTail, p)

/-- The outcomes of the loop from behind the header: it waits at the valid prefix, or it
has refused a record. -/
def Settled (I : σ → Prop) (data : Bytes) : Outcome (Parsing σ) (Status × Parsing σ) → Prop
  | .stop r => r.1.Rejects
  | .wait pos p => 72 ≤ pos ∧ pos ≤ data.length ∧ p.validPrefix = pos ∧ p.Calm I

section

variable {I : σ → Prop} {data : Bytes}

/-- The loop over records is the loop over a file from behind its header. -/
theorem runs_parseRecords {pos : ℕ} {p : Parsing σ} (hmax : data.length ≤ sizeMax) (hc : p.Calm I)
    (h72 : 72 ≤ pos) (hpos : pos ≤ data.length) (hvp : p.validPrefix = pos) :
    ∃ o, Runs fileStep data pos p o ∧
      parseRecords data pos data.length 0 p = recordsVerdict data o ∧ Settled I data o := by
  induction hn : data.length - pos using Nat.strongRecOn generalizing pos p with
  | ind n ih =>
    subst hn
    rw [parseRecords_eq data hmax]
    by_cases hlt : pos < data.length
    swap
    · obtain rfl : pos = data.length := by omega
      refine ⟨.wait data.length p, .done, ?_, ⟨h72, hpos, hvp, hc⟩⟩
      rw [if_neg (Nat.lt_irrefl _), if_neg (not_not.mpr rfl), recordsVerdict, if_pos rfl]
    rw [if_pos hlt]
    have hstep : fileStep data pos p = recordStep (parseRecords data) data data.length pos 0 p := by
      rw [fileStep, if_neg (by omega)]
    obtain hmore | ⟨r, hstop, hrej, -⟩ | ⟨record, p', hr, hpass, hgo⟩ :=
      recordStep_round 0 (Nat.le_refl _) hmax hc h72
    · rw [show UInt8.ofNat 0 = 0 from rfl] at hmore
      refine ⟨.wait pos p, .more hlt (hstep.trans hmore), ?_, ⟨h72, hpos, hvp, hc⟩⟩
      rw [hmore, recordsVerdict, if_neg (by omega), ← hvp]
    · rw [show UInt8.ofNat 0 = 0 from rfl] at hstop
      exact ⟨.stop r, .stop hlt (hstep.trans hstop), by rw [hstop]; rfl, hrej⟩
    · rw [show UInt8.ofNat 0 = 0 from rfl] at hgo
      have hrl := hr.length_pos
      have hvp' := hpass.validPrefix
      rw [Forest.prefixAfter, if_neg (by cases hr <;> simp)] at hvp'
      obtain ⟨o, hruns, hparse, hset⟩ := ih (data.length - (pos + record.bytes.length)) (by omega)
        (hpass.follows.calm hc) (by omega)
        hpass.le hvp' rfl
      exact ⟨o, .go hlt (hstep.trans hgo) hruns, by rw [hgo]; exact hparse, hset⟩

/-- **The parser is the loop over the file**, from its beginning. -/
theorem runs_parseTideBytes {L : Limits} {callbacks : Callbacks σ} {user : σ}
    (hmax : data.length ≤ sizeMax)
    (hc : (Parsing.start (some L) callbacks user (Stream'.const true)).Calm I) :
    ∃ o, Runs fileStep data 0 (Parsing.start (some L) callbacks user (Stream'.const true)) o ∧
      parseTideBytes data true (some L) callbacks user (Stream'.const true) = fileVerdict data o ∧
      (Settled I data o ∨ o =
        .wait 0 (Parsing.start (some L) callbacks user (Stream'.const true))) := by
  set p := Parsing.start (some L) callbacks user (Stream'.const true) with hp
  by_cases h72 : data.length < 72
  · have herr : validateHeader data L =
        .error (parseError .truncated data.length 0 0 "incomplete header") := by
      rw [validateHeader, if_pos h72]
    refine ⟨.wait 0 p, ?_, ?_, .inr rfl⟩
    · by_cases h0 : data.length = 0
      · have hdone : Runs fileStep data data.length p (.wait data.length p) := .done
        rwa [h0] at hdone
      · exact .more (by omega) (by rw [fileStep, if_pos rfl, if_pos h72])
    · rw [parseTideBytes_of_error herr]
      rfl
  have hstep : fileStep data 0 p = match validateHeader data p.limits with
      | .error e => .stop (p.fail e)
      | .ok () => .go 72 { p with validPrefix := 72 } := by
    rw [fileStep, if_pos rfl, if_neg h72]
  cases hval : validateHeader data L with
  | error e =>
    obtain ⟨hok, hpart, htrunc⟩ := validateHeader_error hval
    have hne : e.code ≠ .truncated := fun h => h72 (htrunc.mp h)
    refine ⟨.stop (p.fail e),
      .stop (by omega) (hstep.trans (by rw [show p.limits = L from rfl, hval])), ?_,
        .inl ⟨hok, hpart, hne⟩⟩
    rw [parseTideBytes_of_error hval]
    exact Prod.ext (if_neg fun h => hne h.1) rfl
  | ok u =>
    have hstart := (Parsing.Follows.refl p).withPrefix 72
    obtain ⟨o, hruns, hparse, hset⟩ := runs_parseRecords hmax (hstart.calm hc) (Nat.le_refl 72)
      (by omega) rfl
    refine ⟨o, .go (by omega) (hstep.trans (by rw [show p.limits = L from rfl, hval])) hruns, ?_,
      .inl hset⟩
    rw [parseTideBytes_of_ok hval]
    rw [hp] at hparse
    rw [hparse]
    cases o with
    | stop r => exact Prod.ext (if_neg fun h => hset.2.2 h.1) rfl
    | wait q p' =>
      have hq := hset.1
      rw [recordsVerdict, fileVerdict, if_neg (show ¬ q = 0 by omega)]
      split <;> rfl

end

/-! ### The decoder as a loop -/

/-- Two results are the same to the client and to the caller: the status, the events
heard, the valid prefix and the last error. -/
structure Agrees (trace : σ → List Event) (r q : Status × Parsing σ) : Prop where
  status : r.1 = q.1
  events : trace r.2.user = trace q.2.user
  validPrefix : r.2.validPrefix = q.2.validPrefix
  error : r.2.error = q.2.error

theorem Agrees.symm {trace : σ → List Event} {r q : Status × Parsing σ}
    (h : Agrees trace r q) : Agrees trace q r :=
  ⟨h.status.symm, h.events.symm, h.validPrefix.symm, h.error.symm⟩

theorem Agrees.trans {trace : σ → List Event} {r q t : Status × Parsing σ} (h : Agrees trace r q)
    (h' : Agrees trace q t) : Agrees trace r t :=
  ⟨h.status.trans h'.status, h.events.trans h'.events, h.validPrefix.trans h'.validPrefix,
    h.error.trans h'.error⟩

/-- The decoder has the bytes `data` and waits at `pos` in the state `p`, having called
nobody but the client. -/
structure Waits (callbacks : Callbacks σ) (limit : ℕ) (d : Decoder σ) (data : Bytes) (pos : ℕ)
    (p : Parsing σ) : Prop where
  parsing : d.toParsing = p
  bytes : d.buffer.data = data
  bufferAllocs : d.buffer.allocs = Stream'.const true
  bufferLimit : d.buffer.aggregateLimit = limit
  offset : d.parseOffset = pos
  headerValidated : d.headerValidated = decide (pos ≠ 0)
  behind : pos = 0 ∨ 72 ≤ pos ∧ pos ≤ data.length
  validPrefix : p.validPrefix = pos
  cancelled : d.cancelled = false
  terminal : d.terminal = false
  callbacks : p.callbacks = callbacks
  allocs : p.allocs = Stream'.const true

/-- What a feed that is not the last makes of an outcome of the loop: the decoder waits
there, or the session is over. -/
def MoreOutcome (callbacks : Callbacks σ) (limit : ℕ) (trace : σ → List Event) (data : Bytes)
    (r : Status × Decoder σ) :
    Outcome (Parsing σ) (Status × Parsing σ) → Prop
  | .wait pos p => r.1 = .ok ∧ Waits callbacks limit r.2 data pos p
  | .stop q => q.1 ≠ .ok ∧ Agrees trace (r.1, r.2.toParsing) q

section

variable {callbacks : Callbacks σ} {limit : ℕ} {trace : σ → List Event} {d : Decoder σ}
    {data : Bytes} {pos : ℕ} {p : Parsing σ}

/-- `on_error` leaves the trace alone, and touches nothing but the user's state. -/
theorem agrees_notifyError (hcb : d.callbacks.Traces trace) (status : Status) :
    Agrees trace (status, ({ d.notifyError with terminal := true } : Decoder σ).toParsing)
    (status, d.toParsing) := by
  unfold Decoder.notifyError
  cases hf : d.callbacks.onError with
  | none => exact ⟨rfl, rfl, rfl, rfl⟩
  | some f => exact ⟨rfl, hcb.error f hf .., rfl, rfl⟩

theorem Waits.calm (hw : Waits callbacks limit d data pos p)
    (hcb : callbacks.Traces trace) : p.Calm fun _ => True :=
  ⟨fun u e _ => ⟨by rw [hw.callbacks]; exact (hcb.call u e).1, trivial⟩, trivial, hw.allocs⟩

/-- The loop over records, as the decoder that waits behind the header calls it. -/
theorem Waits.runs (hw : Waits callbacks limit d data pos p) (hcb : callbacks.Traces trace)
    (h72 : 72 ≤ pos) (hmax : data.length ≤ sizeMax) :
    ∃ o, Runs fileStep data pos p o ∧
      parseRecords d.buffer.data d.parseOffset d.buffer.data.length 0 d.toParsing =
        recordsVerdict data o ∧
      Settled (fun _ => True) data o ∧ (recordsVerdict data o).2.callbacks = callbacks := by
  have hle : pos ≤ data.length := by have := hw.behind; omega
  obtain ⟨o, hruns, hparse, hset⟩ := runs_parseRecords hmax (hw.calm hcb) h72 hle hw.validPrefix
  refine ⟨o, hruns, ?_, hset, ?_⟩
  · rw [hw.parsing, hw.bytes, hw.offset, hparse]
  · rw [← hparse]
    exact (congrArg Prod.snd (parseRecords_settings ..)).trans hw.callbacks

/-- The records, when more is to come. -/
theorem Waits.parseMore (hw : Waits callbacks limit d data pos p) (hcb : callbacks.Traces trace)
    (h72 : 72 ≤ pos) (hmax : data.length ≤ sizeMax) :
    ∃ o, Runs fileStep data pos p o ∧ MoreOutcome callbacks limit trace data d.parseMore o := by
  obtain ⟨o, hruns, hparse, hset, hcall⟩ := hw.runs hcb h72 hmax
  refine ⟨o, hruns, ?_⟩
  unfold Decoder.parseMore
  rw [hparse]
  cases o with
  | stop r =>
    obtain ⟨status, q⟩ := r
    have hcb' : ({ d with toParsing := q } : Decoder σ).callbacks.Traces trace := by
      rw [show q.callbacks = callbacks from hcall]; exact hcb
    obtain ⟨hok, -, htrunc⟩ := hset
    refine ⟨hok, ?_⟩
    cases status <;> first
      | exact absurd rfl hok
      | exact absurd rfl htrunc
      | exact agrees_notifyError hcb' _
  | wait pos' q =>
    obtain ⟨h72', hle, hvp, hcalm⟩ := hset
    have hheader : d.headerValidated = decide (pos' ≠ 0) := by
      rw [hw.headerValidated, decide_eq_decide]
      omega
    have hwaits : ∀ offset, offset = pos' →
        Waits callbacks limit { d with toParsing := q, parseOffset := offset } data pos' q :=
          fun offset ho =>
      ⟨rfl, hw.bytes, hw.bufferAllocs, hw.bufferLimit, ho, hheader, .inr ⟨h72', hle⟩, hvp,
        hw.cancelled, hw.terminal, hcall, hcalm.allocs⟩
    rw [recordsVerdict]
    by_cases hend : pos' = data.length
    · rw [if_pos hend]
      exact ⟨rfl, hwaits _ (by rw [hw.bytes, hend])⟩
    · rw [if_neg hend]
      exact ⟨rfl, hwaits _ hvp⟩

/-- The records, at the end. -/
theorem Waits.parseEnd (hw : Waits callbacks limit d data pos p) (hcb : callbacks.Traces trace)
    (h72 : 72 ≤ pos) (hmax : data.length ≤ sizeMax) :
    ∃ o, Runs fileStep data pos p o ∧ Agrees trace (d.parseEnd.1, d.parseEnd.2.toParsing)
    (fileVerdict data o) := by
  obtain ⟨o, hruns, hparse, hset, hcall⟩ := hw.runs hcb h72 hmax
  refine ⟨o, hruns, ?_⟩
  unfold Decoder.parseEnd
  rw [hparse]
  cases o with
  | stop r =>
    obtain ⟨status, q⟩ := r
    have hcb' : ({ d with toParsing := q } : Decoder σ).callbacks.Traces trace := by
      rw [show q.callbacks = callbacks from hcall]; exact hcb
    obtain ⟨hok, hpart, htrunc⟩ := hset
    cases status <;>
      first
        | exact absurd rfl hok
        | exact absurd rfl htrunc
        | exact absurd rfl hpart
        | exact agrees_notifyError hcb' _
  | wait pos' q =>
    have hne : ¬ pos' = 0 := by have := hset.1; omega
    rw [recordsVerdict, fileVerdict, if_neg hne]
    by_cases hend : pos' = data.length
    · rw [if_pos hend, if_pos hend]
      exact ⟨rfl, rfl, rfl, rfl⟩
    · rw [if_neg hend, if_neg hend]
      exact ⟨rfl, rfl, rfl, rfl⟩

/-- **The header**: it is not there yet, or it is refused, or the decoder waits behind it. -/
theorem Waits.accept (hw : Waits callbacks limit d data pos p) :
    (d.headerValidated = false ∧ data.length < 72 ∧ Runs fileStep data pos p (.wait 0 p) ∧
      p.validPrefix = 0 ∧
        d.acceptHeader = .error (parseError .truncated data.length 0 0 "incomplete header")) ∨
      (∃ e, d.acceptHeader = .error e ∧ e.code ≠ .ok ∧ e.code ≠ .truncated ∧ 72 ≤ data.length ∧
        Runs fileStep data pos p (.stop (p.fail e))) ∨
      ∃ d' pos' p', d.acceptHeader = .ok d' ∧ 72 ≤ pos' ∧ Waits callbacks limit d' data pos' p' ∧
        72 ≤ data.length ∧
        ∀ o, Runs fileStep data pos' p' o → Runs fileStep data pos p o := by
  have hhdr := hw.headerValidated
  by_cases h0 : pos = 0
  swap
  · have hbehind := hw.behind
    refine .inr (.inr ⟨d, pos, p, ?_, by omega, hw, by omega, fun o h => h⟩)
    rw [Decoder.acceptHeader, hhdr, if_pos (by simpa using h0)]
  subst h0
  have hval : validateHeader d.buffer.data d.limits = validateHeader data p.limits := by
    rw [hw.bytes, hw.parsing]
  have haccept : d.acceptHeader = match validateHeader data p.limits with
      | .error e => .error e
      | .ok () => .ok { d with headerValidated := true, parseOffset := 72, validPrefix := 72 } := by
    rw [Decoder.acceptHeader, hhdr, if_neg (by simp)]
    exact congrArg (fun v : Except Error Unit => match v with
      | .error e => Except.error e
      | .ok () => .ok { d with headerValidated := true, parseOffset := 72, validPrefix := 72 }) hval
  by_cases h72 : data.length < 72
  · refine .inl ⟨by simpa using hhdr, h72, ?_, hw.validPrefix, ?_⟩
    · by_cases hnil : data.length = 0
      · have hdone : Runs fileStep data data.length p (.wait data.length p) := .done
        rwa [hnil] at hdone
      · exact .more (by omega) (by rw [fileStep, if_pos rfl, if_pos h72])
    · rw [haccept, validateHeader, if_pos h72]
  have hstep : fileStep data 0 p = match validateHeader data p.limits with
      | .error e => .stop (p.fail e)
      | .ok () => .go 72 { p with validPrefix := 72 } := by
    rw [fileStep, if_pos rfl, if_neg h72]
  refine .inr ?_
  cases hv : validateHeader data p.limits with
  | error e =>
    rw [hv] at haccept hstep
    obtain ⟨hok, -, htrunc⟩ := validateHeader_error hv
    exact .inl ⟨e, haccept, hok, fun h => h72 (htrunc.mp h), by omega, .stop (by omega) hstep⟩
  | ok u =>
    rw [hv] at haccept hstep
    refine .inr ⟨_, 72, { p with validPrefix := 72 }, haccept, Nat.le_refl _, ?_,
      by omega, fun o ho => .go (by omega) hstep ho⟩
    exact ⟨by rw [← hw.parsing], hw.bytes, hw.bufferAllocs, hw.bufferLimit, rfl, rfl,
      .inr ⟨Nat.le_refl _, by omega⟩, rfl, hw.cancelled, hw.terminal, hw.callbacks, hw.allocs⟩

/-- **A feed that is not the last**, behind the append. -/
theorem Waits.more (hw : Waits callbacks limit d data pos p) (hcb : callbacks.Traces trace)
    (hmax : data.length ≤ sizeMax) :
    ∃ o, Runs fileStep data pos p o ∧ MoreOutcome callbacks limit trace data (feedMore d) o := by
  unfold feedMore
  rw [hw.bytes]
  obtain ⟨hhdr, hlt, hruns, hvp, -⟩ | ⟨e, haccept, hok, -, h72, hruns⟩ | ⟨d', pos', p', haccept,
    h72', hw', h72, hruns⟩ := hw.accept
  · obtain rfl : pos = 0 := hw.validPrefix.symm.trans hvp
    rw [hhdr, if_pos (by simpa using hlt)]
    exact ⟨_, hruns, rfl, hw⟩
  · rw [if_neg (by simp; omega), haccept]
    refine ⟨_, hruns, hok, ?_⟩
    have hcb' : ({ d with error := e } : Decoder σ).callbacks.Traces trace := by
      rw [show d.callbacks = callbacks by rw [hw.parsing]; exact hw.callbacks]
      exact hcb
    have hagree := agrees_notifyError hcb' e.code
    rwa [show ({ d with error := e } : Decoder σ).toParsing =
      { p with error := e } by rw [← hw.parsing]] at hagree
  · rw [if_neg (by simp; omega), haccept]
    obtain ⟨o, ho, hmore⟩ := hw'.parseMore hcb h72' hmax
    exact ⟨o, hruns o ho, hmore⟩

/-- **The last feed**, behind the append. -/
theorem Waits.last (hw : Waits callbacks limit d data pos p) (hcb : callbacks.Traces trace)
    (hmax : data.length ≤ sizeMax) :
    ∃ o, Runs fileStep data pos p o ∧ Agrees trace ((feedEnd d).1, (feedEnd d).2.toParsing)
    (fileVerdict data o) := by
  unfold feedEnd
  obtain ⟨-, hlt, hruns, -, haccept⟩ | ⟨e, haccept, hok, htrunc, h72, hruns⟩ | ⟨d', pos', p',
      haccept, h72', hw', h72, hruns⟩ :=
    hw.accept
  · refine ⟨_, hruns, ?_⟩
    rw [haccept, fileVerdict, if_pos rfl]
    exact ⟨rfl, by rw [← hw.parsing], by rw [← hw.parsing], rfl⟩
  · refine ⟨_, hruns, ?_⟩
    rw [haccept]
    exact ⟨if_neg htrunc, by rw [← hw.parsing]; rfl, by rw [← hw.parsing]; rfl, rfl⟩
  · obtain ⟨o, ho, hend⟩ := hw'.parseEnd hcb h72' hmax
    rw [haccept]
    exact ⟨o, hruns o ho, hend⟩

/-- Bytes that fit are appended. -/
theorem Waits.fits (hw : Waits callbacks limit d data pos p) {piece : Bytes}
    (hmax : (data ++ piece).length ≤ sizeMax)
    (hlimit : limit = 0 ∨ (data ++ piece).length ≤ limit) :
    (bufferAppend d.buffer piece).1 = .ok ∧
      (bufferAppend d.buffer piece).2.allocs = Stream'.const true := by
  rw [List.length_append] at hmax hlimit
  have hfits : d.buffer.Fits piece.length := by
    rw [Buffer.Fits, hw.bytes, hw.bufferLimit]
    omega
  exact bufferAppend_fits hw.bufferAllocs hfits

/-- A feed appends, if the bytes fit, and goes on. -/
theorem Waits.fed (hw : Waits callbacks limit d data pos p) {piece : Bytes}
    (hmax : (data ++ piece).length ≤ sizeMax)
    (hlimit : limit = 0 ∨ (data ++ piece).length ≤ limit) :
    ∃ d', Waits callbacks limit d' (data ++ piece) pos p ∧ ∀ finish, decoderFeed d piece finish =
      let r := if finish then feedEnd d' else feedMore d'
      ⟨r.1, piece.length, r.2⟩ := by
  obtain ⟨hok, hallocs⟩ := hw.fits hmax hlimit
  have hbytes : (bufferAppend d.buffer piece).2.data = data ++ piece := by
    rw [bufferAppend_ok hok, hw.bytes]
  have happend : bufferAppend d.buffer piece = (.ok, (bufferAppend d.buffer piece).2) :=
    Prod.ext hok rfl
  refine ⟨{ d with buffer := (bufferAppend d.buffer piece).2 }, ?_, fun finish => ?_⟩
  · have hbehind := hw.behind
    exact ⟨hw.parsing, hbytes, hallocs, (bufferAppend_cases ..).1.trans hw.bufferLimit, hw.offset,
      hw.headerValidated, by rw [List.length_append]; omega, hw.validPrefix, hw.cancelled,
      hw.terminal, hw.callbacks, hw.allocs⟩
  · rw [decoderFeed, if_neg (by simp [hw.cancelled]), if_neg (by simp [hw.terminal]), happend]

end

/-- Feeding pieces one after the other, the last one with `end`, as long as the status is
`OK`. -/
def decoderSession (d : Decoder σ) : List Bytes → Status × Decoder σ
  | [] => (.ok, d)
  | [last] => ((decoderFeed d last true).status, (decoderFeed d last true).decoder)
  | piece :: next :: pieces =>
    andThen ((decoderFeed d piece false).status, (decoderFeed d piece false).decoder)
      (decoderSession · (next :: pieces))

/-- **A session is the loop over all its bytes.** -/
theorem Waits.session {callbacks : Callbacks σ} {limit : ℕ} {trace : σ → List Event} {d : Decoder σ}
    {data : Bytes} {pos : ℕ} {p : Parsing σ} (hw : Waits callbacks limit d data pos p)
    (hcb : callbacks.Traces trace) (pieces : List Bytes) (hne : pieces ≠ [])
    (hmax : (data ++ pieces.flatten).length ≤ sizeMax)
    (hlimit : limit = 0 ∨ (data ++ pieces.flatten).length ≤ limit) :
    ∃ o, Runs fileStep (data ++ pieces.flatten) pos p o ∧
      Agrees trace ((decoderSession d pieces).1, (decoderSession d pieces).2.toParsing)
        (fileVerdict (data ++ pieces.flatten) o) := by
  induction pieces generalizing d data pos p with
  | nil => exact absurd rfl hne
  | cons piece pieces ih =>
    cases pieces with
    | nil =>
      simp only [List.flatten_cons, List.flatten_nil, List.append_nil] at hmax hlimit ⊢
      obtain ⟨d', hw', hfeed⟩ := hw.fed hmax hlimit
      rw [decoderSession, hfeed]
      exact hw'.last hcb hmax
    | cons next pieces =>
      rw [List.flatten_cons, ← List.append_assoc] at hmax hlimit ⊢
      have hle : (data ++ piece).length ≤ (data ++ piece ++ (next :: pieces).flatten).length := by
        simp only [List.length_append]
        omega
      obtain ⟨d', hw', hfeed⟩ := hw.fed (hle.trans hmax) (hlimit.imp_right hle.trans)
      obtain ⟨o, hruns, hmore⟩ := hw'.more hcb (hle.trans hmax)
      rw [decoderSession, hfeed]
      simp only [Bool.false_eq_true, ↓reduceIte]
      generalize feedMore d' = r at hmore ⊢
      rcases r with ⟨status, d''⟩
      cases o with
      | stop q =>
        -- the session is over here, and the loop would have stopped here with all the bytes
        obtain ⟨hne, hagree⟩ := hmore
        refine ⟨.stop q, hruns.extend_stop stepMono_fileStep hmax, ?_⟩
        have hst : status ≠ .ok := fun h => hne (hagree.status.symm.trans h)
        rw [andThen_of_ne hst]
        exact hagree
      | wait pos' p' =>
        obtain ⟨rfl, hw''⟩ := hmore
        obtain ⟨o', hruns', hagree⟩ := ih hw'' (by simp) hmax hlimit
        exact ⟨o', hruns.resume stepMono_fileStep hmax hruns', hagree⟩

/-- A length within the limit on the buffer, which is none if it is 0. -/
theorem Limits.aggregate_covers {L : Limits} {n : ℕ}
    (h : L.maxAggregateAlloc = 0 ∨ n ≤ L.maxAggregateAlloc.toNat) :
    L.maxAggregateAlloc.toNat = 0 ∨ n ≤ L.maxAggregateAlloc.toNat :=
  h.imp_left fun hzero => by rw [hzero]; rfl

/-- A decoder that has just been initialised waits for the header. -/
theorem waits_decoderInit (L : Limits) (callbacks : Callbacks σ) (user : σ) :
    Waits callbacks L.maxAggregateAlloc.toNat
      (decoderInit (some L) callbacks user (Stream'.const true) (Stream'.const true)) [] 0
      (Parsing.start (some L) callbacks user (Stream'.const true)) :=
  ⟨rfl, rfl, rfl, rfl, rfl, rfl, .inl rfl, rfl, rfl, rfl, rfl, rfl⟩

/-- A session ends as the parser does that has all its bytes. -/
theorem decoderSession_parses (pieces : List Bytes) (hne : pieces ≠ []) (L : Limits)
    (hmax : pieces.flatten.length ≤ sizeMax)
    (hlimit : L.maxAggregateAlloc = 0 ∨ pieces.flatten.length ≤ L.maxAggregateAlloc.toNat)
    {callbacks : Callbacks σ} {trace : σ → List Event} (hcb : callbacks.Traces trace) (user : σ) :
    let session := decoderSession (decoderInit (some L) callbacks user (Stream'.const true)
      (Stream'.const true)) pieces
    Agrees trace (session.1, session.2.toParsing)
      (parseTideBytes pieces.flatten true (some L) callbacks user (Stream'.const true)) := by
  have hw := waits_decoderInit L callbacks user
  obtain ⟨o, hruns, hwhole, -⟩ := runs_parseTideBytes hmax (hcb.calm (some L) user)
  obtain ⟨o', hruns', hsession⟩ := hw.session hcb pieces hne hmax (Limits.aggregate_covers hlimit)
  rw [List.nil_append] at hruns' hsession
  obtain rfl := hruns.det hruns'
  rw [← hwhole] at hsession
  exact hsession

/-- **The pieces do not matter**: a session, one feed of all the bytes, and the parser
that has them all end with the same status, the same events, the same valid prefix and
the same last error. -/
theorem decoderSession_agrees (pieces : List Bytes) (hne : pieces ≠ []) (L : Limits)
    (hmax : pieces.flatten.length ≤ sizeMax)
    (hlimit : L.maxAggregateAlloc = 0 ∨ pieces.flatten.length ≤ L.maxAggregateAlloc.toNat)
    (callbacks : Callbacks σ) (trace : σ → List Event) (hcb : callbacks.Traces trace) (user : σ) :
    let d := decoderInit (some L) callbacks user (Stream'.const true) (Stream'.const true)
    let session := decoderSession d pieces
    let single := decoderFeed d pieces.flatten true
    let whole := parseTideBytes pieces.flatten true (some L) callbacks user (Stream'.const true)
    Agrees trace (session.1, session.2.toParsing) (single.status, single.decoder.toParsing) ∧
      Agrees trace (session.1, session.2.toParsing) whole := by
  have hflat : [pieces.flatten].flatten = pieces.flatten := List.flatten_singleton
  have hsession := decoderSession_parses pieces hne L hmax hlimit hcb user
  -- one feed is a session of one piece
  have hsingle := decoderSession_parses [pieces.flatten] (by simp) L (by rwa [hflat])
    (by rwa [hflat]) hcb user
  rw [hflat] at hsingle
  exact ⟨hsession.trans hsingle.symm, hsession⟩

/-- The small file in pieces, cut inside the header and inside its group, with an empty
piece. -/
theorem sampleFile_session :
    let d := decoderInit (some limitsDefault) recorder [] (Stream'.const true) (Stream'.const true)
    let session :=
      decoderSession d [sampleFile.take 10, [], (sampleFile.drop 10).take 100, sampleFile.drop 110]
    session.1 = .ok ∧ session.2.user = (parseTideBytes sampleFile true (some limitsDefault) recorder
      [] (Stream'.const true)).2.user := by
  have hflat : [sampleFile.take 10, [], (sampleFile.drop 10).take 100,
      sampleFile.drop 110].flatten = sampleFile := by
    decide +kernel
  have h := (decoderSession_agrees [sampleFile.take 10, [], (sampleFile.drop 10).take 100,
    sampleFile.drop 110] (by simp)
    limitsDefault (by rw [hflat]; decide +kernel) (by rw [hflat]; exact .inr (by decide +kernel))
      recorder id recorder_traces []).2
  rw [hflat] at h
  exact ⟨h.status.trans (by decide +kernel), h.events⟩

end Tide
