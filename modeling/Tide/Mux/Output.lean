import Tide.Mux
import Tide.Format.Forest
import Tide.Format.Header

/-!
# What a mux has written

A call to a mux that returns `OK` appends one record to its output (`Mux.call_ok`), and so
does the footer (`muxAppendFooter_ok`); the rest of the mux stays as it is, but for the
sequence number (`Mux.Extends`). After calls that all returned `OK` the output is
therefore a header and a forest of leaves (`Mux.calls_ok`).
-/

namespace Tide

/-- What a call is about. -/
inductive Content where
  | stream (stream : StreamInfo)
  | packet (packet : PacketInfo)
  deriving DecidableEq

namespace Content

/-- The type of its record. -/
def type : Content → RecordType
  | stream _ => .streamDesc
  | packet _ => .packet

/-- The payload of its record. -/
def payload : Content → Bytes
  | stream s => s.bytes
  | packet p => p.bytes

/-- The head of its record. -/
def head (c : Content) (sequence : UInt64) : RecordHead := ⟨c.type.code, 0, 3, 0, sequence⟩

/-- The encoder of its payload. -/
def encode : Content → Buffer → Status × Buffer
  | stream s => (encodeStreamPayload · s)
  | packet p => (encodePacketPayload · p)

/-- The text of the error if it cannot be written. -/
def message : Content → String
  | stream _ => "failed to write stream"
  | packet _ => "failed to write packet"

/-- What the encoder checks: a stream has a time base, and no packet a negative duration. -/
def Encodable : Content → Prop
  | stream s => rationalIsValid s.timeBase = true
  | packet p => ¬ p.duration < 0

/-- The event a decoder makes of it. -/
def event : Content → Event
  | stream s => .stream s
  | packet p => .packet p

/-- The pieces in which the payload is encoded. -/
def pieces : Content → List Bytes
  | stream s => [streamFixed s, writeUleb128 (UInt64.ofNat s.config.length), s.config]
  | packet p => [packetFixed p, writeUleb128 (UInt64.ofNat p.payload.length), p.payload]

theorem flatten_pieces (c : Content) : c.pieces.flatten = c.payload := by
  cases c <;> simp [pieces, payload, StreamInfo.bytes, PacketInfo.bytes]

instance : (c : Content) → Decidable c.Encodable
  | stream s => inferInstanceAs (Decidable (rationalIsValid s.timeBase = true))
  | packet p => inferInstanceAs (Decidable (¬ p.duration < 0))

theorem encode_eq (c : Content) (out : Buffer) :
    c.encode out = if c.Encodable then appendAll out c.pieces else (.invalidArgument, out) := by
  cases c with
  | stream s => exact encodeStreamPayload_eq out s
  | packet p =>
    have henc : (packet p).encode out = encodePacketPayload out p := rfl
    rw [henc, encodePacketPayload_eq]
    by_cases hp : p.duration < 0
    · rw [if_pos hp, if_neg (show ¬ (packet p).Encodable from not_not.mpr hp)]
    · rw [if_neg hp, if_pos (show (packet p).Encodable from hp)]
      rfl

/-- A payload is encoded if it may be and there is room for it. -/
theorem encode_eq_ok_iff (c : Content) (out : Buffer) :
    (c.encode out).1 = .ok ↔ c.Encodable ∧ out.HasRoom (c.pieces.map List.length) := by
  rw [encode_eq]
  by_cases hc : c.Encodable
  · rw [if_pos hc, appendAll_eq_ok_iff]
    exact (and_iff_right hc).symm
  · rw [if_neg hc]
    exact ⟨nofun, fun h => absurd h.1 hc⟩

/-- What is encoded is the payload, which is within the limit on a single allocation. -/
theorem encode_ok {c : Content} {limit : ℕ} {allocs : Stream' Bool}
    (h : (c.encode (Buffer.empty limit allocs)).1 = .ok) :
    c.Encodable ∧ (c.encode (Buffer.empty limit allocs)).2.data = c.payload ∧
      c.payload.length ≤ sizeMax ∧
      (limit = 0 ∨ c.payload.length ≤ limit) := by
  rw [encode_eq] at h ⊢
  by_cases hc : c.Encodable
  swap
  · rw [if_neg hc] at h
    cases h
  rw [if_pos hc] at h ⊢
  obtain ⟨hdata, hlim⟩ := appendAll_ok h
  have hbound := appendAll_bounded (Buffer.bounded_empty limit allocs) c.pieces
  have hpay : (appendAll (Buffer.empty limit allocs) c.pieces).2.data = c.payload := by
    rw [hdata, flatten_pieces]
    rfl
  refine ⟨hc, hpay, hpay ▸ hbound.size, ?_⟩
  have hle := hbound.limit
  rwa [hpay, hlim] at hle

end Content

/-- `tide_mux_add_stream` or `tide_mux_write_packet`. -/
def Mux.call (mux : Mux) : Content → Status × Mux
  | .stream s => muxAddStream mux s
  | .packet p => muxWritePacket mux p

theorem Mux.call_eq (mux : Mux) (c : Content) :
    mux.call c = mux.writePayload c.type c.message c.encode := by
  cases c <;> rfl

/-- Calls one after the other, as long as they return `OK`. -/
def Mux.calls (mux : Mux) : List Content → Status × Mux
  | [] => (.ok, mux)
  | c :: cs => andThen (mux.call c) (·.calls cs)

/-! ### Growing output -/

/-- From `mux` to `mux'` the bytes were appended and `n` sequence numbers used. -/
structure Mux.Extends (mux mux' : Mux) (bs : Bytes) (n : ℕ) : Prop where
  data : mux'.buffer.data = mux.buffer.data ++ bs
  sequence : mux'.sequence = mux.sequence + UInt64.ofNat n
  limits : mux'.limits = mux.limits
  closed : mux'.closed = mux.closed
  writeFooter : mux'.writeFooter = mux.writeFooter
  bounded : mux.buffer.Bounded → mux'.buffer.Bounded

theorem Mux.Extends.refl (mux : Mux) : mux.Extends mux [] 0 := ⟨by simp, by simp, rfl, rfl, rfl, id⟩

theorem Mux.Extends.trans {mux mux' mux'' : Mux} {a b : Bytes} {m n : ℕ} (h : mux.Extends mux' a m)
    (h' : mux'.Extends mux'' b n) : mux.Extends mux'' (a ++ b) (m + n) where
  data := by rw [h'.data, h.data, List.append_assoc]
  sequence := by rw [h'.sequence, h.sequence, UInt64.ofNat_add, UInt64.add_assoc]
  limits := h'.limits.trans h.limits
  closed := h'.closed.trans h.closed
  writeFooter := h'.writeFooter.trans h.writeFooter
  bounded := h'.bounded ∘ h.bounded

theorem Mux.report_fst (message : String) (r : Status × Mux) : (Mux.report message r).1 = r.1 := by
  rcases r with ⟨status, mux⟩
  cases status <;> rfl

/-- Reporting changes the error only. -/
theorem Mux.report_snd (message : String) (r : Status × Mux) :
    ∃ error, (Mux.report message r).2 = { r.2 with error := error } := by
  rcases r with ⟨status, mux⟩
  cases status <;> exact ⟨_, rfl⟩

/-- The mux is open, and the payload can be encoded. -/
def Mux.Encodes (mux : Mux) (c : Content) : Prop :=
  mux.closed = false ∧ c.Encodable ∧
    (Buffer.empty mux.limits.maxSingleAlloc.toNat mux.scratch.head).HasRoom
      (c.pieces.map List.length)

instance (mux : Mux) (c : Content) : Decidable (mux.Encodes c) :=
  inferInstanceAs (Decidable (mux.closed = false ∧ c.Encodable ∧ Buffer.HasRoom _ _))

/-- **What a call does**: it fails before anything is written, or it writes the record of
its content. -/
theorem Mux.call_cases (mux : Mux) (c : Content) :
    (¬ mux.Encodes c ∧ (mux.call c).1 ≠ .ok ∧ mux.Extends (mux.call c).2 [] 0 ∧
      (mux.call c).2.buffer = mux.buffer) ∨
      mux.Encodes c ∧ c.payload.length ≤ sizeMax ∧
        (mux.limits.maxSingleAlloc.toNat = 0 ∨ c.payload.length ≤ mux.limits.maxSingleAlloc.toNat) ∧
        ∃ error, mux.call c = ((writeRecord mux.buffer c.type.code 0 3 mux.sequence c.payload).1,
          { mux with buffer := (writeRecord mux.buffer c.type.code 0 3 mux.sequence c.payload).2,
                     sequence := mux.sequence + 1, error := error, scratch :=
                       mux.scratch.tail }) := by
  have hrefl := Mux.Extends.refl mux
  rw [Mux.call_eq, Mux.writePayload]
  by_cases hclosed : mux.closed = true
  · rw [if_pos hclosed]
    exact .inl ⟨fun h => absurd (hclosed.symm.trans h.1) nofun, nofun, hrefl, rfl⟩
  rw [if_neg hclosed]
  dsimp only
  have hiff := c.encode_eq_ok_iff (Buffer.empty mux.limits.maxSingleAlloc.toNat mux.scratch.head)
  have henc := @Content.encode_ok c mux.limits.maxSingleAlloc.toNat mux.scratch.head
  generalize c.encode (Buffer.empty mux.limits.maxSingleAlloc.toNat mux.scratch.head) =
    encoded at hiff henc ⊢
  rcases encoded with ⟨status, payload⟩
  by_cases hst : status = .ok
  · subst hst
    obtain ⟨-, hdata, hsize, hlimit⟩ := henc rfl
    have hdata : payload.data = c.payload := hdata
    obtain ⟨error, herror⟩ :=
      Mux.report_snd c.message (Mux.writeEncoded { mux with scratch := mux.scratch.tail } c.type
        (.ok, payload))
    refine .inr ⟨⟨Bool.eq_false_of_not_eq_true hclosed, hiff.mp rfl⟩, hsize, hlimit, error,
      Prod.ext ?_ ?_⟩
    · rw [Mux.report_fst, Mux.writeEncoded, hdata]
    · rw [herror, Mux.writeEncoded, hdata]
  · have hfail : Mux.writeEncoded { mux with scratch := mux.scratch.tail } c.type (status,
      payload) =
        (status, { mux with scratch := mux.scratch.tail }) := by
      cases status <;> first | exact absurd rfl hst | rfl
    obtain ⟨error, herror⟩ :=
      Mux.report_snd c.message (status, { mux with scratch := mux.scratch.tail })
    rw [hfail, Mux.report_fst, herror]
    exact .inl ⟨fun h => hst (hiff.mpr h.2), hst, ⟨hrefl.data, hrefl.sequence, rfl,
      rfl, rfl, id⟩, rfl⟩

/-- What a mux checks of a content. -/
structure Content.Accepted (limits : Limits) (c : Content) : Prop where
  encodable : c.Encodable
  size : c.payload.length ≤ sizeMax
  limit : limits.maxSingleAlloc.toNat = 0 ∨ c.payload.length ≤ limits.maxSingleAlloc.toNat

/-- **A call that returns `OK`** has appended the record of its content. -/
theorem Mux.call_ok {mux : Mux} {c : Content} (h : (mux.call c).1 = .ok) :
    mux.Extends (mux.call c).2 ((c.head mux.sequence).bytes c.payload) 1 ∧
      c.Accepted mux.limits := by
  obtain ⟨-, hne, -⟩ | ⟨⟨-, hc, -⟩, hsize, hlimit, error, hcall⟩ := mux.call_cases c
  · exact absurd h hne
  rw [hcall] at h ⊢
  have h3 : (3 : UInt8) ≤ 4 := by decide
  exact ⟨⟨(writeRecord_ok h3 hsize h).2, rfl, rfl, rfl, rfl,
    fun hb => writeRecord_bounded hb _ _ h3 _ hsize⟩, hc, hsize, hlimit⟩

/-- The records of contents, from a sequence number on. -/
def contentForest (sequence : UInt64) : List Content → Forest
  | [] => .nil
  | c :: cs => .leaf (c.head sequence) c.payload (contentForest (sequence + 1) cs)

/-- **After calls that all returned `OK`** the records of the contents are there. -/
theorem Mux.calls_ok {mux : Mux} {cs : List Content} (h : (mux.calls cs).1 = .ok) :
    mux.Extends (mux.calls cs).2 (contentForest mux.sequence cs).bytes cs.length ∧
      ∀ c ∈ cs, c.Accepted mux.limits := by
  induction cs generalizing mux with
  | nil => exact ⟨Mux.Extends.refl mux, nofun⟩
  | cons c cs ih =>
    rw [Mux.calls] at h ⊢
    obtain ⟨h1, h2⟩ := (andThen_fst_eq_ok_iff ..).mp h
    obtain ⟨hext, hc⟩ := Mux.call_ok h1
    obtain ⟨hexts, hcs⟩ := ih h2
    have hcall : mux.call c = (.ok, (mux.call c).2) := Prod.ext h1 rfl
    rw [hcall, andThen_ok]
    constructor
    · have htrans := hext.trans hexts
      rw [hext.sequence] at htrans
      rwa [List.length_cons, Nat.add_comm]
    · refine List.forall_mem_cons.mpr ⟨hc, fun d hd => ?_⟩
      rw [← hext.limits]
      exact hcs d hd

/-! ### The footer and the end -/

/-- The head of a footer. -/
def footerHead (sequence : UInt64) : RecordHead := ⟨RecordType.footer.code, 0, 3, 0, sequence⟩

/-- The footer of the output `data`. -/
def footerForest (sequence : UInt64) (data : Bytes) : Forest :=
  .leaf (footerHead sequence) (footerPayload data ((footerHead sequence).size 49)) .nil

@[simp] theorem length_footerPayload (data : Bytes) (n : ℕ) :
    (footerPayload data n).length = 49 := by
  simp [footerPayload]

/-- A footer's record in a buffer of its own. -/
theorem writeRecord_footer {limit : ℕ} {allocs : Stream' Bool} {sequence : UInt64} {payload : Bytes}
    (hp : payload.length = 49)
    (h : (writeRecord (Buffer.empty limit allocs) RecordType.footer.code 0 3 sequence payload).1 =
      .ok) :
    (writeRecord (Buffer.empty limit allocs) RecordType.footer.code 0 3 sequence payload).2.data =
      (footerHead sequence).bytes payload := by
  have h49 : payload.length ≤ sizeMax := by rw [hp]; decide
  exact (writeRecord_ok (show (3 : UInt8) ≤ 4 by decide) h49 h).2.trans (List.nil_append _)

/-- **A footer that could be appended** is the footer of the output before it. -/
theorem muxAppendFooter_ok {mux : Mux} (h : (muxAppendFooter mux).1 = .ok) :
    mux.Extends (muxAppendFooter mux).2 (footerForest mux.sequence mux.buffer.data).bytes 1 := by
  unfold muxAppendFooter at h ⊢
  dsimp only at h ⊢
  split at h
  · rename_i hne
    exact absurd h hne
  rename_i hmeasured
  rw [if_neg hmeasured]
  have hlen := congrArg List.length (writeRecord_footer List.length_replicate
    (not_not.mp hmeasured))
  rw [RecordHead.length_bytes, List.length_replicate] at hlen
  rw [hlen] at h ⊢
  split at h
  · rename_i hne
    exact absurd h hne
  rename_i hrecord
  rw [if_neg hrecord]
  rw [writeRecord_footer (length_footerPayload ..) (not_not.mp hrecord)] at h ⊢
  exact ⟨by simpa [footerForest, Forest.bytes] using bufferAppend_ok h, rfl, rfl, rfl, rfl,
    fun hb => bufferAppend_bounded hb _⟩

/-- The header that a mux writes. -/
def muxHeader (options : Option MuxOptions) : Header :=
  ⟨0, muxUuid, muxTimeBase options, 0, 64 * 1024 * 1024, 0⟩

/-- **A mux that could be created** holds the header, and what the options say. -/
theorem muxCreate_ok {options : Option MuxOptions} {opened : Bool} {allocs : Stream' Bool}
    {scratch : Stream' (Stream' Bool)} {mux : Mux}
    (h : muxCreate options opened allocs scratch = (.ok, some mux)) :
    rationalIsValid (muxTimeBase options) = true ∧ mux.buffer.data = (muxHeader options).bytes ∧
      mux.buffer.Bounded ∧
      mux.limits = muxLimits options ∧ mux.sequence = 0 ∧ mux.closed = false ∧
        mux.writeFooter = muxWriteFooter options := by
  unfold muxCreate at h
  dsimp only at h
  split at h
  · cases h
  split at h
  swap
  · cases h
  rename_i buffer hheader
  cases h
  unfold writeHeader at hheader
  split at hheader
  · cases hheader
  rename_i hvalid
  have hvalid : rationalIsValid (muxTimeBase options) = true := by
    cases hv : rationalIsValid (muxTimeBase options)
    · rw [hv] at hvalid
      exact absurd rfl hvalid
    · rfl
  dsimp only at hheader
  have hbytes : headerBody (muxTimeBase options) muxUuid = (muxHeader options).body := by
    simp [headerBody, Header.body, muxHeader]
  rw [hbytes] at hheader
  have hok := bufferAppend_ok (congrArg Prod.fst hheader)
  have hbound := bufferAppend_bounded
    (Buffer.bounded_empty (muxLimits options).maxAggregateAlloc.toNat allocs)
    ((muxHeader options).body ++ writeU32 (crc32c (muxHeader options).body))
  rw [hheader] at hok hbound
  exact ⟨hvalid, hok.trans (List.nil_append _), hbound, rfl, rfl, rfl, rfl⟩

/-- Finishing an output appends the footer, if there is to be one. -/
theorem Mux.finish_ok {mux : Mux} (hclosed : mux.closed = false) (h : mux.finish.1 = .ok) :
    mux.finish.2.buffer.data = mux.buffer.data ++
        (if mux.writeFooter then footerForest mux.sequence mux.buffer.data else .nil).bytes ∧
      (mux.buffer.Bounded → mux.finish.2.buffer.Bounded) := by
  unfold Mux.finish at h ⊢
  rw [hclosed, Bool.not_false, Bool.true_and] at h ⊢
  by_cases hw : mux.writeFooter = true
  · rw [if_pos hw] at h ⊢
    rw [if_pos hw]
    have hext := muxAppendFooter_ok h
    exact ⟨hext.data, hext.bounded⟩
  · rw [if_neg hw]
    rw [if_neg hw]
    exact ⟨(List.append_nil _).symm, id⟩

/-- What is handed to `fwrite`, if anything. -/
theorem muxClose_eq_some {mux : Mux} {written flushed : Bool} {bytes : Bytes}
    (h : (muxClose mux written flushed).2 = some bytes) :
    mux.finish.1 = .ok ∧ bytes = mux.finish.2.buffer.data := by
  unfold muxClose at h
  generalize mux.finish = r at h ⊢
  rcases r with ⟨status, mux'⟩
  cases status <;> cases h
  exact ⟨rfl, rfl⟩

/-- The forest of a whole output: the records of the contents, and the footer if there is
one. -/
def outputForest (header : Bytes) (footer : Bool) (cs : List Content) : Forest :=
  (contentForest 0 cs).append
    (if footer then footerForest (UInt64.ofNat cs.length) (header ++ (contentForest 0 cs).bytes)
      else .nil)

/-- The outcomes that are not up to a mux: those of `fopen`, `fwrite` and `fclose`, and of
the allocations to come. -/
structure MuxEnv where
  opened : Bool
  written : Bool
  flushed : Bool
  allocs : Stream' Bool
  scratch : Stream' (Stream' Bool)

/-- A session with a mux: it is created, the contents are written and it is closed, as long
as the calls return `OK`; the status, and the bytes that are handed to `fwrite`. -/
def muxSession (options : Option MuxOptions) (env : MuxEnv)
    (cs : List Content) : Status × Option Bytes :=
  match muxCreate options env.opened env.allocs env.scratch with
  | (.ok, some mux) =>
    match mux.calls cs with
    | (.ok, mux) => muxClose mux env.written env.flushed
    | (status, _) => (status, none)
  | (status, _) => (status, none)

/-- A mux is created with `OK` if its file was opened. -/
theorem muxCreate_of_ok {options : Option MuxOptions} {opened : Bool} {allocs : Stream' Bool}
    {scratch : Stream' (Stream' Bool)} (h : (muxCreate options opened allocs scratch).1 = .ok) :
    opened = true ∧ ∃ mux, muxCreate options opened allocs scratch = (.ok, some mux) := by
  unfold muxCreate at h ⊢
  dsimp only at h ⊢
  generalize writeHeader (Buffer.empty (muxLimits options).maxAggregateAlloc.toNat allocs)
    (muxTimeBase options) muxUuid = r at h ⊢
  rcases r with ⟨status, buffer⟩
  cases opened <;> cases status <;> simp at h ⊢

/-- A mux that is closed with `OK` has handed bytes to `fwrite`. -/
theorem muxClose_of_ok {mux : Mux} {written flushed : Bool}
    (h : (muxClose mux written flushed).1 = .ok) :
    ∃ bytes, muxClose mux written flushed = (.ok, some bytes) := by
  unfold muxClose at h ⊢
  generalize mux.finish = r at h ⊢
  rcases r with ⟨status, mux'⟩
  cases status with
  | ok => exact ⟨_, Prod.ext h rfl⟩
  | _ => cases h

/-- A session that ends with `OK` has handed bytes to `fwrite`. -/
theorem muxSession_of_ok {options : Option MuxOptions} {env : MuxEnv} {cs : List Content}
    (h : (muxSession options env cs).1 = .ok) :
    ∃ bytes, muxSession options env cs = (.ok, some bytes) := by
  unfold muxSession at h ⊢
  by_cases hcreated : (muxCreate options env.opened env.allocs env.scratch).1 = .ok
  · obtain ⟨-, mux, hcreate⟩ := muxCreate_of_ok hcreated
    rw [hcreate] at h ⊢
    dsimp only at h ⊢
    generalize mux.calls cs = called at h ⊢
    rcases called with ⟨status, mux'⟩
    cases status with
    | ok => exact muxClose_of_ok h
    | _ => cases h
  · generalize muxCreate options env.opened env.allocs env.scratch = created at h hcreated
    rcases created with ⟨status, mux⟩
    cases status <;> first | exact absurd rfl hcreated | cases h

/-- **What a session hands to `fwrite`**: the header, and the forest of the contents. -/
theorem muxSession_output {options : Option MuxOptions} {env : MuxEnv} {cs : List Content}
    {bytes : Bytes} (h : (muxSession options env cs).2 = some bytes) :
    bytes = (muxHeader options).bytes ++
      (outputForest (muxHeader options).bytes (muxWriteFooter options) cs).bytes ∧
      rationalIsValid (muxTimeBase options) = true ∧ bytes.length ≤ sizeMax ∧
        ∀ c ∈ cs, c.Accepted (muxLimits options) := by
  unfold muxSession at h
  split at h
  swap
  · cases h
  rename_i mux hcreate
  split at h
  swap
  · cases h
  rename_i mux' hcalls
  obtain ⟨hvalid, hdata, hbound, hlimits, hseq, hclosed, hfooter⟩ := muxCreate_ok hcreate
  obtain ⟨hext, hcs⟩ := Mux.calls_ok (congrArg Prod.fst hcalls)
  rw [hcalls] at hext
  have hbytes := hext.data
  have hseq' := hext.sequence
  rw [hdata, hseq] at hbytes
  rw [hseq, UInt64.zero_add] at hseq'
  obtain ⟨hfinish, rfl⟩ := muxClose_eq_some h
  obtain ⟨hout, hbounds⟩ := Mux.finish_ok (hext.closed.trans hclosed) hfinish
  refine ⟨?_, hvalid, (hbounds (hext.bounded hbound)).size, hlimits ▸ hcs⟩
  rw [hout, hext.writeFooter, hfooter, hseq', hbytes, outputForest, Forest.bytes_append,
    List.append_assoc]

end Tide
