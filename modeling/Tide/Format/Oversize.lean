import Tide.Format.File
import Tide.Format.Session
import Mathlib.Logic.Relation

/-!
# Oversized records

The limits on a record's size are compared with it in `tide_parse_records`, once
`tide_decode_record_prefix` has found the whole record. That function knows the size as soon
as it has read the prefix, and answers `TRUNCATED` as long as bytes are missing. So a
decoder that has got the prefix of a record it will never accept waits for the rest, unless
the sizes overflow: `feed_oversized_iff`.
-/

namespace Tide

open Theory Relation

variable {σ : Type}

/-! ### A prefix that is complete -/

/-- The sum of the sizes of a record at `offset` does not fit. -/
def RecordHead.Overflows (h : RecordHead) (offset n : ℕ) : Prop :=
  ¬ (h.SizeFits n ∧ offset + h.size n ≤ sizeMax)

/-- The record is larger than the limits allow. -/
def RecordHead.Exceeds (h : RecordHead) (L : Limits) (n : ℕ) : Prop :=
  L.maxPayloadSize.toNat < n ∨ L.maxRecordSize.toNat < h.size n

/-- A complete and well-formed prefix at `offset`, which declares `n` bytes of payload. -/
structure Declares (data : Bytes) (offset : ℕ) (h : RecordHead) (n : ℕ) : Prop where
  alignment : h.alignmentLog2 ≤ 4
  payload : n < 2 ^ 64
  lies : Lies data offset (h.prefixBytes n)

section

variable {data : Bytes} {offset n : ℕ} {h : RecordHead} {depth : UInt8}

theorem Declares.length_le (hd : Declares data offset h n) :
    offset + h.headerSize n ≤ data.length := by
  have hlen := congrArg List.length hd.lies
  have hb := (h.headerSize_bounds n).1
  simp only [slice, List.length_take, List.length_drop, h.length_prefixBytes] at hlen
  omega

/-- **What `tide_decode_record_prefix` makes of a complete prefix.** -/
theorem Declares.decode (hd : Declares data offset h n) (hmax : data.length ≤ sizeMax)
    (depth : UInt8) :
    (h.Overflows offset n → ∃ e : Error, e.code = .resource ∧
      decodeRecordPrefix data data.length offset depth = .rejected e) ∧
      (¬ h.Overflows offset n → decodeRecordPrefix data data.length offset depth =
        if offset + h.size n ≤ data.length then
          .frame (h.frameAt offset n depth) else .truncated) := by
  have hle := hd.length_le
  have hpre : h.prefixBytes n <+: slice data offset (data.length - offset) := by
    rw [slice_of_le (show (h.prefixBytes n).length ≤ data.length -
      offset by rw [h.length_prefixBytes]; omega), hd.lies]
    exact List.prefix_append ..
  rw [decodeRecordPrefix_begins hd.payload hpre]
  constructor
  · intro hover
    have hhead : ¬ ((h.fields n).headerSize.toNat ≠ h.headerSize n ∨
        (h.fields n).alignmentLog2 > 4) := by
      rw [not_or, not_not]
      exact ⟨h.toNat_headerSize n, UInt8.not_lt.mpr hd.alignment⟩
    rw [frameOfPrefix, if_neg hhead]
    cases hends : frameEnds (h.fields n) offset with
    | none => exact ⟨_, rfl, rfl⟩
    | some e =>
        exact absurd ((frameEnds_eq_some_iff h hd.alignment hd.payload (by omega) e.1 e.2.1
          e.2.2).mp hends).1 hover
  · intro hover
    obtain ⟨hfit, hend⟩ := not_not.mp hover
    exact frameOfPrefix_fields hd.alignment hfit hend _ depth

/-- **A round at the prefix of an oversized record**: it stops if the sizes overflow or the
whole record is there, and asks for more if not. -/
theorem Declares.recordStep (hd : Declares data offset h n) (hmax : data.length ≤ sizeMax)
    {p : Parsing σ} (hover : h.Exceeds p.limits n) (parse : ParseRecords σ) (depth : UInt8) :
    (h.Overflows offset n ∨ offset + h.size n ≤ data.length →
      ∃ e : Error, e.code = .resource ∧ Tide.recordStep parse data data.length offset depth p =
        .stop (p.fail e)) ∧
    (¬ (h.Overflows offset n ∨ offset + h.size n ≤ data.length) →
      Tide.recordStep parse data data.length offset depth p = .more) := by
  obtain ⟨hwrap, hfits⟩ := hd.decode hmax depth
  by_cases hov : h.Overflows offset n
  · obtain ⟨e, he, hdec⟩ := hwrap hov
    exact ⟨fun _ => ⟨e, he, by rw [Tide.recordStep, hdec]⟩, fun hno => absurd (.inl hov) hno⟩
  have hdec := hfits hov
  by_cases hle : offset + h.size n ≤ data.length
  · rw [if_pos hle] at hdec
    obtain ⟨hfit, -⟩ := not_not.mp hov
    have hlimits : (h.frameAt offset n depth).payloadSize > p.limits.maxPayloadSize ∨
        (h.frameAt offset n depth).crcEnd - (h.frameAt offset n depth).offset >
          p.limits.maxRecordSize.toNat := by
      refine hover.imp (fun hp => ?_) fun hr => ?_
      · rw [gt_iff_lt, UInt64.lt_iff_toNat_lt]
        exact hp.trans_eq (h.toNat_payloadSize hfit).symm
      · exact hr.trans_eq (Nat.add_sub_cancel_left ..).symm
    refine ⟨fun _ => ⟨parseError .resource offset h.type depth "record exceeds limit", rfl, ?_⟩,
      fun hno => absurd (.inr hle) hno⟩
    rw [Tide.recordStep, hdec]
    exact if_pos hlimits
  · rw [if_neg hle] at hdec
    exact ⟨fun hor => absurd hor (not_or.mpr ⟨hov, hle⟩), fun _ => by rw [Tide.recordStep, hdec]⟩

end

/-! ### The boundary that a feed comes to -/

/-- A round of the loop over the records of `data` that goes on. -/
def Goes (data : Bytes) (x y : ℕ × Parsing σ) : Prop :=
  x.1 < data.length ∧ recordStep (parseRecords data) data data.length x.1 0 x.2 = .go y.1 y.2

/-- The loop answers what it answers from any boundary it comes to, under the limits it
started with. -/
theorem parseRecords_passes {data : Bytes} (hmax : data.length ≤ sizeMax) {x y : ℕ × Parsing σ}
    (h : ReflTransGen (Goes data) x y) :
    parseRecords data x.1 data.length 0 x.2 = parseRecords data y.1 data.length 0 y.2 ∧
      y.2.settings = x.2.settings := by
  induction h with
  | refl => exact ⟨rfl, rfl⟩
  | tail _ hgo ih =>
    rename_i y z _
    obtain ⟨hlt, hstep⟩ := hgo
    have hkeep := (kept_settings data.length y.2.settings).recordStep
      (fun b e depth p _ h => (parseRecords_settings data b e depth p).trans h)
        (Nat.le_refl _) rfl data y.1 0
    rw [hstep] at hkeep
    refine ⟨ih.1.trans ?_, hkeep.trans ih.2⟩
    rw [parseRecords_eq data hmax, if_pos hlt, hstep]

/-- The loop of a feed comes to the boundary `pos`, in the state `p`: the piece is appended,
the header is valid, and all records up to `pos` are passed over. -/
structure Decoder.Reaches (d : Decoder σ) (piece : Piece) (pos : ℕ) (p : Parsing σ) : Prop where
  cancelled : d.cancelled = false
  terminal : d.terminal = false
  appended : (bufferAppend d.buffer piece.data).1 = .ok
  passes : ∃ d', ({ d with buffer := (bufferAppend d.buffer piece.data).2 } :
    Decoder σ).acceptHeader = .ok d' ∧
    ReflTransGen (Goes (d.buffer.data ++ piece.data)) (d'.parseOffset, d'.toParsing) (pos, p)

section

variable {d : Decoder σ} {piece : Piece}

/-- The header leaves the limits alone, and what is buffered. -/
theorem Decoder.acceptHeader_keeps {d d' : Decoder σ} (h : d.acceptHeader = .ok d') :
    d'.buffer = d.buffer ∧ d'.settings = d.settings ∧
      (d.headerValidated = true ∨ 72 ≤ d.buffer.data.length) := by
  unfold Decoder.acceptHeader at h
  split at h
  · rename_i hval
    cases h
    exact ⟨rfl, rfl, .inl hval⟩
  · split at h
    · cases h
    · rename_i u hok
      cases h
      exact ⟨rfl, rfl, .inr (length_of_validateHeader hok)⟩

/-- **What a feed answers** is what the loop answers from the boundary it comes to. -/
theorem Decoder.Reaches.feed {pos : ℕ} {p : Parsing σ} (h : d.Reaches piece pos p)
    (hb : d.buffer.Bounded) {status : Status}
    (hstatus : (parseRecords (d.buffer.data ++ piece.data) pos (d.buffer.data ++ piece.data).length
      0 p).1 = status) :
    p.limits = d.limits ∧
      (d.feed piece).1 = if status = .truncated then (if piece.finish then .partialTail else .ok)
        else status := by
  obtain ⟨d', haccept, hpass⟩ := h.passes
  have hdata := bufferAppend_ok h.appended
  have hmax := (bufferAppend_bounded hb piece.data).size
  obtain ⟨hbuffer, hsettings, hlong⟩ := Decoder.acceptHeader_keeps haccept
  rw [hdata] at hmax
  obtain ⟨hparse, hkeep⟩ := parseRecords_passes hmax hpass
  refine ⟨congrArg Prod.fst (hkeep.trans hsettings), ?_⟩
  have hd' : d'.buffer.data = d.buffer.data ++ piece.data := by rw [hbuffer]; exact hdata
  dsimp only at hparse
  rw [← hparse, ← hd'] at hstatus
  have hmore : d'.parseMore.1 = if status = .truncated then .ok else status := by
    unfold Decoder.parseMore
    generalize parseRecords d'.buffer.data d'.parseOffset d'.buffer.data.length 0 d'.toParsing =
      r at hstatus
    rcases r with ⟨st, q⟩
    subst hstatus
    cases st <;> rfl
  have hend : d'.parseEnd.1 = if status = .truncated then .partialTail else status := by
    unfold Decoder.parseEnd
    generalize parseRecords d'.buffer.data d'.parseOffset d'.buffer.data.length 0 d'.toParsing =
      r at hstatus
    rcases r with ⟨st, q⟩
    subst hstatus
    cases st <;> rfl
  unfold Decoder.feed decoderFeed
  rw [if_neg (by simp [h.cancelled]), if_neg (by simp [h.terminal]),
    show bufferAppend d.buffer piece.data = (.ok, (bufferAppend d.buffer piece.data).2)
      from Prod.ext h.appended rfl]
  cases hfin : piece.finish with
  | true =>
    change (feedEnd { d with buffer := (bufferAppend d.buffer piece.data).2 }).1 = _
    rw [feedEnd, haccept]
    exact hend
  | false =>
    change (feedMore { d with buffer := (bufferAppend d.buffer piece.data).2 }).1 = _
    rw [feedMore, if_neg, haccept]
    · exact hmore
    · rcases hlong with hval | hlong
      · rw [show d.headerValidated = true from hval]
        simp
      · simpa using fun _ => hlong

/-! ### Any session -/

/-- A decoder under the limits `L`, with a buffer that is within its bounds. -/
def Decoder.Under (L : Limits) (d : Decoder σ) : Prop := d.limits = L ∧ d.buffer.Bounded

theorem Decoder.notifyError_settings (d : Decoder σ) : d.notifyError.settings = d.settings := by
  obtain heq | ⟨f, -, heq⟩ := notifyError_eq d
  · rw [heq]
  · rw [heq]
    rfl

/-- A feed leaves the limits and the callbacks alone. -/
theorem Decoder.feed_settings (d : Decoder σ) (piece : Piece) :
    (d.feed piece).2.settings = d.settings := by
  have hmore : ∀ d' : Decoder σ, (feedMore d').2.settings = d'.settings := by
    intro d'
    unfold feedMore
    split
    · rfl
    split
    · exact Decoder.notifyError_settings _
    · rename_i d'' haccept
      have hkeep := parseRecords_settings d''.buffer.data d''.parseOffset d''.buffer.data.length
        0 d''.toParsing
      rw [← (Decoder.acceptHeader_keeps haccept).2.1, ← hkeep]
      unfold Decoder.parseMore
      generalize parseRecords d''.buffer.data d''.parseOffset d''.buffer.data.length 0
        d''.toParsing = r
      split
      · rfl
      · rfl
      · exact Decoder.notifyError_settings _
  have hend : ∀ d' : Decoder σ, (feedEnd d').2.settings = d'.settings := by
    intro d'
    unfold feedEnd
    split
    · rfl
    · rename_i d'' haccept
      have hkeep := parseRecords_settings d''.buffer.data d''.parseOffset d''.buffer.data.length
        0 d''.toParsing
      rw [← (Decoder.acceptHeader_keeps haccept).2.1, ← hkeep]
      unfold Decoder.parseEnd
      generalize parseRecords d''.buffer.data d''.parseOffset d''.buffer.data.length 0
        d''.toParsing = r
      split
      · rfl
      · rfl
      · rfl
      · exact Decoder.notifyError_settings _
  unfold Decoder.feed decoderFeed
  split
  · rfl
  split
  · rfl
  split
  · cases piece.finish with
    | false => exact hmore _
    | true => exact hend _
  · rfl

/-- A feed keeps a decoder under its limits. -/
theorem Decoder.Under.feed {L : Limits} (h : d.Under L) (piece : Piece) :
    (d.feed piece).2.Under L := by
  refine ⟨(congrArg Prod.fst (d.feed_settings piece)).trans h.1, ?_⟩
  obtain hb | hb := d.feed_buffer piece <;> rw [hb]
  · exact h.2
  · exact bufferAppend_bounded h.2 _

end

/-- **An oversized record is refused at its prefix if and only if** its sizes overflow or the
whole record is there. For every session, every client and whichever allocations succeed: if
the loop of a feed comes to a boundary at which there is a complete and well-formed prefix
of a record that the limits do not allow, then that feed returns `RESOURCE` exactly
under this condition; otherwise it waits, or returns `PARTIAL` at the end. -/
theorem feed_oversized_iff (L : Limits) (callbacks : Callbacks σ) (user : σ)
    (allocs bufferAllocs : Stream' Bool) (pieces : List Piece) (piece : Piece) {d : Decoder σ}
    (hd : d = (answers Decoder.feed (decoderInit (some L) callbacks user allocs bufferAllocs)
      pieces).2)
    {pos : ℕ} {p : Parsing σ} (hreach : d.Reaches piece pos p) {h : RecordHead} {n : ℕ}
    (hdecl : Declares (d.buffer.data ++ piece.data) pos h n) (hover : h.Exceeds L n) :
    ((d.feed piece).1 = .resource ↔ h.Overflows pos n ∨
      pos + h.size n ≤ (d.buffer.data ++ piece.data).length) ∧
      ((d.feed piece).1 ≠ .resource → (d.feed piece).1 = if piece.finish then .partialTail
        else .ok) := by
  have hunder : d.Under L := by
    rw [hd]
    exact answers_invariant (I := Decoder.Under L) (fun _ piece hu => hu.feed piece) ⟨rfl,
      Buffer.bounded_empty ..⟩ pieces
  have hmax := (bufferAppend_bounded hunder.2 piece.data).size
  rw [bufferAppend_ok hreach.appended] at hmax
  obtain ⟨hlimits, hfeed⟩ := hreach.feed hunder.2 rfl
  rw [hunder.1] at hlimits
  rw [← hlimits] at hover
  obtain ⟨hstop, hmore⟩ :=
    hdecl.recordStep hmax hover (parseRecords (d.buffer.data ++ piece.data)) 0
  have hlt : pos < (d.buffer.data ++ piece.data).length := by
    have hle := hdecl.length_le
    have hb := (h.headerSize_bounds n).1
    omega
  rw [parseRecords_eq _ hmax, if_pos hlt] at hfeed
  by_cases hcond : h.Overflows pos n ∨ pos + h.size n ≤ (d.buffer.data ++ piece.data).length
  · obtain ⟨e, he, hstep⟩ := hstop hcond
    rw [hstep] at hfeed
    have hres : (d.feed piece).1 = .resource := by
      rw [hfeed]
      change (if e.code = .truncated then _ else e.code) = _
      rw [he]
      rfl
    exact ⟨iff_of_true hres hcond, fun hne => absurd hres hne⟩
  · rw [hmore hcond] at hfeed
    have hwait : (d.feed piece).1 = if piece.finish then .partialTail else .ok := by
      rw [hfeed]
      rfl
    refine ⟨iff_of_false ?_ hcond, fun _ => hwait⟩
    rw [hwait]
    cases piece.finish <;> nofun

theorem Decoder.acceptHeader_of_ok {d : Decoder σ} (hno : d.headerValidated = false)
    (hval : validateHeader d.buffer.data d.limits = .ok ()) :
    d.acceptHeader = .ok { d with headerValidated := true, parseOffset := 72,
                                  validPrefix := 72 } := by
  rw [Decoder.acceptHeader, if_neg (by rw [hno]; nofun), hval]

/-- The first feed comes to the first record, if it brings a valid header. -/
theorem reaches_first {L : Limits} {hd : Header} (hhd : hd.Valid L) (callbacks : Callbacks σ)
    (user : σ) (allocs bufferAllocs : Stream' Bool) (piece : Piece) {rest : Bytes}
    (hdata : piece.data = hd.bytes ++ rest)
    (happ : (bufferAppend (Buffer.empty L.maxAggregateAlloc.toNat bufferAllocs) piece.data).1 =
      .ok) :
    (decoderInit (some L) callbacks user allocs bufferAllocs).Reaches piece 72
      { Parsing.start (some L) callbacks user allocs with validPrefix := 72 } := by
  have hval : validateHeader (bufferAppend (Buffer.empty L.maxAggregateAlloc.toNat bufferAllocs)
      piece.data).2.data L = .ok () := by
    rw [bufferAppend_ok happ, hdata]
    exact (validateHeader_bytes_iff hhd.uuid_length rest L).mpr hhd
  exact ⟨rfl, rfl, happ, _, Decoder.acceptHeader_of_ok rfl hval, .refl⟩

theorem sampleHeader_valid :
    sampleHeader.Valid limitsDefault := ⟨by decide, by decide, by decide +kernel, by decide⟩

/-- The head of a packet. -/
def packetHead : RecordHead := ⟨RecordType.packet.code, 0, 3, 0, 0⟩

/-- A header, and the prefix of a packet record that declares `n` bytes of payload. -/
def declaring (n : ℕ) : Piece := ⟨sampleHeader.bytes ++ packetHead.prefixBytes n, false⟩

theorem declares_declaring {n : ℕ} (hn : n < 2 ^ 64) :
    Declares (declaring n).data 72 packetHead n :=
  ⟨by decide, hn, sampleHeader.lies_behind sampleHeader_valid.uuid_length _⟩

/-- A payload of 2⁶⁴ - 1 bytes is refused as soon as it is declared. -/
theorem declaring_max_refused :
    ((decoderInit (some limitsDefault) Callbacks.null () (Stream'.const true)
      (Stream'.const true)).feed (declaring (2 ^ 64 - 1))).1 =
      .resource := by
  have hreach := reaches_first sampleHeader_valid Callbacks.null () (Stream'.const true)
    (Stream'.const true)
    (declaring (2 ^ 64 - 1)) rfl (by decide +kernel)
  refine ((feed_oversized_iff limitsDefault Callbacks.null () (Stream'.const true)
    (Stream'.const true) [] (declaring (2 ^ 64 - 1)) rfl
    hreach (declares_declaring (n := 2 ^ 64 - 1) (by decide)) (.inl (by decide))).1).mpr (.inl ?_)
  rintro ⟨hfit, -⟩
  unfold RecordHead.SizeFits sizeMax at hfit
  have hb := (packetHead.headerSize_bounds (2 ^ 64 - 1)).1
  omega

/-- A payload of a byte more than 64 MiB is waited for. -/
theorem declaring_large_waits :
    ¬ ∀ (L : Limits) (callbacks : Callbacks Unit) (user : Unit) (allocs bufferAllocs : Stream' Bool)
    (pieces : List Piece) (piece : Piece)
      (d : Decoder Unit), d =
        (answers Decoder.feed (decoderInit (some L) callbacks user allocs bufferAllocs) pieces).2 →
      ∀ (pos : ℕ) (p : Parsing Unit), d.Reaches piece pos p →
      ∀ (h : RecordHead) (n : ℕ), Declares (d.buffer.data ++ piece.data) pos h n → h.Exceeds L n →
        (d.feed piece).1 = .resource := by
  intro h
  have hreach := reaches_first sampleHeader_valid Callbacks.null () (Stream'.const true)
    (Stream'.const true) (declaring 67108865) rfl
    (by decide +kernel)
  have hres := h limitsDefault Callbacks.null () (Stream'.const true) (Stream'.const true) []
    (declaring 67108865) _ rfl 72 _ hreach
    packetHead 67108865 (declares_declaring (by decide)) (.inl (by decide))
  have hok : ((decoderInit (some limitsDefault) Callbacks.null () (Stream'.const true)
      (Stream'.const true)).feed (declaring 67108865)).1 = .ok := by decide +kernel
  rw [answers, hok] at hres
  cases hres

end Tide
