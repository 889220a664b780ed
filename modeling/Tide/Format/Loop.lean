import Tide.Format.Decoder

/-!
# The loop over records

What `tide_parse_records` does, without its fuel: `parseRecords_eq` is the loop of
the source with its recursive calls, `parseRecords_congr` says that it looks at no
byte behind the range it is given, and `Parsing.Kept.parseRecords` that it keeps what
its parts keep: it leaves the limits and the callbacks alone (`parseRecords_settings`).
-/

namespace Tide

open Theory

variable {σ : Type}

/-- A frame is that of a record in the range. -/
theorem frame_of_decode {data : Bytes} {size cursor : ℕ} {depth : UInt8} {f : RecordFrame}
    (hmax : size ≤ sizeMax) (hf : decodeRecordPrefix data size cursor depth = .frame f) :
    ∃ (h : RecordHead) (n : ℕ), f = h.frameAt cursor n depth ∧ cursor + h.size n ≤ size := by
  obtain ⟨h, n, -, -, hle, -, rfl⟩ := (decodeRecordPrefix_eq_frame_iff hmax).mp hf
  exact ⟨h, n, rfl, hle⟩

/-- A group calls for its children only, which lie behind its first byte. -/
theorem processGroup_congr {parse parse' : ParseRecords σ} (payload : Bytes) (frame : RecordFrame)
    (p : Parsing σ)
    (hp : ∀ depth p, parse (frame.payloadOffset + 20) frame.payloadEnd depth p =
      parse' (frame.payloadOffset + 20) frame.payloadEnd depth p) :
    processGroup parse payload frame p = processGroup parse' payload frame p := by
  unfold processGroup
  simp only [hp]

/-- Processing a record depends on the bytes up to its end. -/
theorem processRecord_congr {parse parse' : ParseRecords σ} {data data' : Bytes} {h : RecordHead}
    {size cursor n : ℕ} (depth : UInt8) (p : Parsing σ) (hd : data.take size = data'.take size)
    (hle : cursor + h.size n ≤ size)
    (hp : ∀ b e depth p, cursor < b → e ≤ size → parse b e depth p = parse' b e depth p) :
    processRecord parse data (h.frameAt cursor n depth) p = processRecord parse' data'
      (h.frameAt cursor n depth) p := by
  have hpad := h.le_paddedSize n
  have hsize : h.size n = h.paddedSize n + 4 := rfl
  have hbounds := h.headerSize_bounds n
  have hslice : slice data (h.frameAt cursor n depth).payloadOffset
      ((h.frameAt cursor n depth).payloadEnd - (h.frameAt cursor n depth).payloadOffset) =
      slice data' (h.frameAt cursor n depth).payloadOffset
        ((h.frameAt cursor n depth).payloadEnd - (h.frameAt cursor n depth).payloadOffset) :=
    slice_congr hd (by simp only [RecordHead.frameAt]; omega)
  have htake : data.take (h.frameAt cursor n depth).offset =
      data'.take (h.frameAt cursor n depth).offset :=
    take_congr hd (by simp only [RecordHead.frameAt]; omega)
  have hsimple : ∀ (q : Parsing σ) payload,
      emitSimpleRecord q.limits q.tracks (h.frameAt cursor n depth) data payload =
        emitSimpleRecord q.limits q.tracks (h.frameAt cursor n depth) data' payload :=
    fun q payload => emitSimpleRecord_congr payload (by rw [htake])
  have hgroup : ∀ (q : Parsing σ) payload, processGroup parse payload (h.frameAt cursor n depth) q =
      processGroup parse' payload (h.frameAt cursor n depth) q := fun q payload =>
    processGroup_congr payload _ q fun depth p =>
      hp _ _ depth p (by simp only [RecordHead.frameAt]; omega)
      (by simp only [RecordHead.frameAt]; omega)
  unfold processRecord
  simp only [hslice, hsimple, hgroup]

/-- A round depends on the bytes of its range. -/
theorem recordStep_congr {parse parse' : ParseRecords σ} {data data' : Bytes} {size cursor : ℕ}
    (hmax : size ≤ sizeMax) (hd : data.take size = data'.take size) (depth : UInt8) (p : Parsing σ)
    (hp : ∀ b e depth p, cursor < b → e ≤ size → parse b e depth p = parse' b e depth p) :
    recordStep parse data size cursor depth p = recordStep parse' data' size cursor depth p := by
  unfold recordStep
  rw [decodeRecordPrefix_congr hd]
  cases hf : decodeRecordPrefix data' size cursor depth with
  | truncated => rfl
  | rejected e => rfl
  | frame f =>
    obtain ⟨h, n, rfl, hle⟩ := frame_of_decode hmax hf
    have hpad := h.le_paddedSize n
    have hsize : h.size n = h.paddedSize n + 4 := rfl
    have hint : validateRecordIntegrity data (h.frameAt cursor n depth) =
        validateRecordIntegrity data' (h.frameAt cursor n depth) :=
      validateRecordIntegrity_congr hd (by simp only [RecordHead.frameAt]; omega)
        (by simp only [RecordHead.frameAt]; omega)
        (by simp only [RecordHead.frameAt]; omega)
    dsimp only
    rw [hint, processRecord_congr depth p hd hle hp]

/-- A round that goes on has passed a record in the range. -/
theorem recordStep_go {parse : ParseRecords σ} {data : Bytes} {size cursor next : ℕ} {depth : UInt8}
    {p p' : Parsing σ} (hmax : size ≤ sizeMax)
    (hs : recordStep parse data size cursor depth p = .go next p') :
    cursor + 14 ≤ next ∧ next ≤ size := by
  unfold recordStep at hs
  split at hs
  · cases hs
  · cases hs
  · rename_i f hf
    obtain ⟨h, n, rfl, hle⟩ := frame_of_decode hmax hf
    have hge := h.size_ge n
    split at hs
    · cases hs
    split at hs
    · cases hs
    split at hs
    · cases hs
      simp only [RecordHead.frameAt]
      omega
    · cases hs

/-- A round that goes on goes on behind the record. -/
theorem recordStep_go_crcEnd {parse : ParseRecords σ} {data : Bytes} {size cursor next : ℕ}
    {depth : UInt8} {p p' : Parsing σ} {f : RecordFrame}
    (hf : decodeRecordPrefix data size cursor depth = .frame f)
    (hs : recordStep parse data size cursor depth p = .go next p') : next = f.crcEnd := by
  unfold recordStep at hs
  rw [hf] at hs
  dsimp only at hs
  split at hs
  · cases hs
  split at hs
  · cases hs
  split at hs <;> cases hs
  rfl

/-- Fuel beyond the length of the range does not matter, nor do the bytes behind it. -/
theorem parseRecordsFuel_congr {data data' : Bytes} {m n size cursor : ℕ} (hmax : size ≤ sizeMax)
    (hd : data.take size = data'.take size) (hm : size - cursor < m) (hn : size - cursor < n)
    (depth : UInt8) (p : Parsing σ) :
    parseRecordsFuel m data cursor size depth p = parseRecordsFuel n data' cursor size depth p := by
  induction m generalizing n cursor size depth p with
  | zero => omega
  | succ m ih =>
    obtain ⟨n, rfl⟩ : ∃ k, n = k + 1 := ⟨n - 1, by omega⟩
    rw [parseRecordsFuel, parseRecordsFuel]
    by_cases hlt : cursor < size
    · have hstep : recordStep (parseRecordsFuel m data) data size cursor depth p =
          recordStep (parseRecordsFuel n data') data' size cursor depth p :=
        recordStep_congr hmax hd depth p fun b e depth p hb he => ih (by omega) (take_congr hd he)
          (by omega) (by omega) depth p
      rw [if_pos hlt, if_pos hlt, hstep]
      cases hs : recordStep (parseRecordsFuel n data') data' size cursor depth p with
      | more => rfl
      | stop r => rfl
      | go next p' =>
        have := recordStep_go hmax hs
        exact ih hmax hd (by omega) (by omega) depth p'
    · rw [if_neg hlt, if_neg hlt]

/-- `tide_parse_records` looks at the bytes of its range only. -/
theorem parseRecords_congr {data data' : Bytes} {size cursor : ℕ} (hmax : size ≤ sizeMax)
    (hd : data.take size = data'.take size) (depth : UInt8) (p : Parsing σ) :
    parseRecords data cursor size depth p = parseRecords data' cursor size depth p :=
  parseRecordsFuel_congr hmax hd (by omega) (by omega) depth p

/-- **The loop of `tide_parse_records`**, as the source has it. -/
theorem parseRecords_eq (data : Bytes) {size cursor : ℕ} (hmax : size ≤ sizeMax) (depth : UInt8)
    (p : Parsing σ) :
    parseRecords data cursor size depth p =
      if cursor < size then
        match recordStep (parseRecords data) data size cursor depth p with
        | .more => (.truncated, { p with validPrefix := cursor })
        | .stop r => r
        | .go next p => parseRecords data next size depth p
      else if cursor ≠ size then
        p.fail (parseError .format cursor 0 depth "record boundary mismatch")
      else (.ok, p) := by
  rw [parseRecords, parseRecordsFuel]
  by_cases hlt : cursor < size
  · have hstep : recordStep (parseRecordsFuel (size - cursor) data) data size cursor depth p =
        recordStep (parseRecords data) data size cursor depth p :=
      recordStep_congr hmax rfl depth p fun b e depth p hb he =>
        parseRecordsFuel_congr (by omega) rfl (by omega) (by omega) depth p
    rw [if_pos hlt, if_pos hlt, hstep]
    cases hs : recordStep (parseRecords data) data size cursor depth p with
    | more => rfl
    | stop r => rfl
    | go next p' =>
      have := recordStep_go hmax hs
      exact parseRecordsFuel_congr hmax rfl (by omega) (by omega) depth p'
  · rw [if_neg hlt, if_neg hlt]

/-! ### What the parser keeps -/

/-- A property of the parser that what it does keeps, as long as it sets the valid prefix to
`n` at most. -/
structure Parsing.Kept (n : ℕ) (I : Parsing σ → Prop) : Prop where
  notify : ∀ p event, I p → I (p.notify event).2
  fail : ∀ p e, I p → I (p.fail e).2
  addTrack : ∀ p stream offset, I p → I (addTrack p stream offset).2
  validPrefix : ∀ p v, v ≤ n → I p → I { p with validPrefix := v }

section

variable {n : ℕ} {I : Parsing σ → Prop} (hI : Parsing.Kept n I) {parse : ParseRecords σ}

include hI

theorem Parsing.Kept.emitStream {p : Parsing σ} (h : I p) (payload : Bytes) (frame : RecordFrame) :
    I (emitStream p payload frame).2 := by
  unfold Tide.emitStream
  cases wholePayload readStream payload with
  | none => exact hI.fail _ _ h
  | some stream =>
    dsimp only
    have hadd := hI.addTrack p stream frame.offset h
    generalize Tide.addTrack p stream frame.offset = r at hadd ⊢
    rcases r with ⟨status, p'⟩
    split
    · exact hI.fail _ _ h
    · cases status <;> first | exact hadd | exact hI.notify _ _ hadd

theorem Parsing.Kept.emitPacket {p : Parsing σ} (h : I p) (payload : Bytes) (frame : RecordFrame) :
    I (emitPacket p payload frame).2 := by
  unfold Tide.emitPacket
  cases wholePayload readPacket payload with
  | none => exact hI.fail _ _ h
  | some packet =>
    dsimp only
    split_ifs
    · exact hI.fail _ _ h
    · exact hI.fail _ _ h
    · exact hI.notify _ _ h

theorem Parsing.Kept.processGroup (hp : ∀ b e depth p, e ≤ n → I p → I (parse b e depth p).2)
    {p : Parsing σ} (h : I p) (payload : Bytes) {frame : RecordFrame} (he : frame.payloadEnd ≤ n) :
    I (processGroup parse payload frame p).2 := by
  unfold Tide.processGroup
  dsimp only
  have hchildren := hp (frame.payloadOffset + 20) frame.payloadEnd (frame.depth + 1) p he h
  generalize parse (frame.payloadOffset + 20) frame.payloadEnd (frame.depth + 1) p =
    r at hchildren ⊢
  rcases r with ⟨status, p'⟩
  split
  · exact hI.fail _ _ h
  split
  · exact hI.fail _ _ h
  split
  · exact hI.fail _ _ h
  split
  · exact hI.fail _ _ h
  · cases status <;> first | exact hchildren | exact hI.fail _ _ hchildren

theorem Parsing.Kept.processRecord (hp : ∀ b e depth p, e ≤ n → I p → I (parse b e depth p).2)
    {p : Parsing σ} (h : I p) (data : Bytes) {frame : RecordFrame} (he : frame.payloadEnd ≤ n) :
    I (processRecord parse data frame p).2 := by
  unfold Tide.processRecord
  dsimp only
  have hnotify := hI.notify p (.record frame.event) h
  split
  · exact hnotify
  generalize p.notify (.record frame.event) = r at hnotify ⊢
  rcases r with ⟨status, p₁⟩
  cases status with
  | ok =>
    rw [andThen_ok]
    split
    · exact hI.processGroup hp hnotify _ he
    · exact hI.emitStream hnotify ..
    · exact hI.emitPacket hnotify ..
    · split
      · exact hnotify
      · exact hI.fail _ _ hnotify
    · exact hI.fail _ _ hnotify
  | _ => exact hnotify

/-- A round keeps the property, however it ends. -/
theorem Parsing.Kept.recordStep (hp : ∀ b e depth p, e ≤ n → I p → I (parse b e depth p).2)
    {size : ℕ} (hsize : size ≤ n) {p : Parsing σ} (h : I p) (data : Bytes) (cursor : ℕ)
    (depth : UInt8) :
    match recordStep parse data size cursor depth p with
    | .more => True
    | .stop r => I r.2
    | .go _ p' => I p' := by
  unfold Tide.recordStep
  cases hf : decodeRecordPrefix data size cursor depth with
  | truncated => trivial
  | rejected e => exact hI.fail _ _ h
  | frame frame =>
    obtain ⟨hpayload, hcrc⟩ := ends_le_of_frame hf
    dsimp only
    by_cases hlim : frame.payloadSize > p.limits.maxPayloadSize ∨
      frame.crcEnd - frame.offset > p.limits.maxRecordSize.toNat
    · rw [if_pos hlim]
      exact hI.fail _ _ h
    rw [if_neg hlim]
    cases validateRecordIntegrity data frame with
    | error e => exact hI.fail _ _ h
    | ok u =>
      have hend : frame.payloadEnd ≤ n := by omega
      have hrec := hI.processRecord hp h data hend
      generalize Tide.processRecord parse data frame p = r at hrec ⊢
      rcases r with ⟨status, p'⟩
      cases status <;> first | exact hrec | exact hI.validPrefix _ _ (hcrc.trans hsize) hrec

/-- The loop keeps the property with any fuel. -/
theorem Parsing.Kept.parseRecordsFuel {size : ℕ} (hsize : size ≤ n) {p : Parsing σ} (h : I p)
    (data : Bytes) (fuel cursor : ℕ) (depth : UInt8) :
    I (parseRecordsFuel fuel data cursor size depth p).2 := by
  induction fuel generalizing cursor size depth p with
  | zero => exact h
  | succ fuel ih =>
    rw [Tide.parseRecordsFuel]
    by_cases hlt : cursor < size
    · rw [if_pos hlt]
      have hstep := hI.recordStep (fun b e depth p he h => ih he h b depth) hsize h data cursor
        depth
      cases hs : Tide.recordStep (Tide.parseRecordsFuel fuel data) data size cursor depth p with
      | more => exact hI.validPrefix _ _ (by omega) h
      | stop r => rw [hs] at hstep; exact hstep
      | go next p' =>
        rw [hs] at hstep
        exact ih hsize hstep next depth
    · rw [if_neg hlt]
      split
      · exact hI.fail _ _ h
      · exact h

/-- **What the parser keeps**, `tide_parse_records` keeps. -/
theorem Parsing.Kept.parseRecords {size : ℕ} (hsize : size ≤ n) {p : Parsing σ} (h : I p)
    (data : Bytes) (cursor : ℕ) (depth : UInt8) :
    I (parseRecords data cursor size depth p).2 := hI.parseRecordsFuel hsize h data _ cursor depth

end

/-- What the parser is given and does not change. -/
def Parsing.settings (p : Parsing σ) : Limits × Callbacks σ := (p.limits, p.callbacks)

theorem addTrack_settings (p : Parsing σ) (stream : StreamInfo) (offset : ℕ) :
    (addTrack p stream offset).2.settings = p.settings := by
  unfold addTrack
  dsimp only
  split_ifs <;> rfl

theorem kept_settings (n : ℕ) (s : Limits × Callbacks σ) :
    Parsing.Kept n fun p : Parsing σ => p.settings = s where
  notify _ _ h := h
  fail _ _ h := h
  addTrack p stream offset h := (addTrack_settings p stream offset).trans h
  validPrefix _ _ _ h := h

/-- `tide_parse_records` leaves the limits and the callbacks alone. -/
theorem parseRecords_settings (data : Bytes) (cursor size : ℕ) (depth : UInt8) (p : Parsing σ) :
    (parseRecords data cursor size depth p).2.settings = p.settings :=
  (kept_settings size p.settings).parseRecords (Nat.le_refl _) rfl data cursor depth

/-- What each callback keeps of its user. -/
theorem kept_user {callbacks : Callbacks σ} {J : σ → Prop}
    (hcall : ∀ user event, J user → J (callbacks.call user event).2) (n : ℕ) :
    Parsing.Kept n fun p : Parsing σ => p.callbacks = callbacks ∧ J p.user where
  notify p event h := by
    refine ⟨h.1, ?_⟩
    unfold Parsing.notify
    rw [h.1]
    exact hcall p.user event h.2
  fail _ _ h := h
  addTrack p stream offset h := by
    unfold addTrack
    dsimp only
    split_ifs <;> exact h
  validPrefix _ _ _ h := h

/-- **What the callbacks keep**, `tide_parse_tide_bytes` keeps. -/
theorem parseTideBytes_user {callbacks : Callbacks σ} {J : σ → Prop}
    (hcall : ∀ user event, J user → J (callbacks.call user event).2) {user : σ} (huser : J user)
    (data : Bytes) (finish : Bool) (limits : Option Limits) (allocs : Stream' Bool) :
    J (parseTideBytes data finish limits callbacks user allocs).2.user := by
  unfold parseTideBytes
  dsimp only
  split
  · exact huser
  · have hstart : ({ Parsing.start limits callbacks user allocs with validPrefix := 72 } :
      Parsing σ).callbacks = callbacks ∧
        J ({ Parsing.start limits callbacks user allocs with validPrefix := 72 } :
          Parsing σ).user := ⟨rfl, huser⟩
    exact ((kept_user hcall data.length).parseRecords (Nat.le_refl _) hstart data 72 0).2

/-- The valid prefix stays within the first `n` bytes. -/
theorem kept_validPrefix (n : ℕ) : Parsing.Kept n fun p : Parsing σ => p.validPrefix ≤ n where
  notify _ _ h := h
  fail _ _ h := h
  addTrack p stream offset h := by
    unfold addTrack
    dsimp only
    split_ifs <;> exact h
  validPrefix _ _ hv _ := hv

end Tide
