import Tide.Format.Deliveries

/-!
# The errors of a record

The errors that refuse a record are set in eight functions of `src/format/decoder.c`. Each has
the record's type and is set at one of the record's bytes (`Error.PointsAt`), and all but those
of `tide_add_track` have the depth that the record was parsed with. That function is not given
the depth: its two errors say 0 (`emitStream_refuses`).

`recordStep_points` is about the records that are refused before they are processed, and
`processRecord_refuses` about the others.
-/

namespace Tide

open Theory

variable {σ : Type}

/-! ### The record that an error is about -/

/-- Where the record at `place` ends, and if its prefix does not say so, where the eight bytes
end that every prefix has. -/
def recordEnd (data : Bytes) (size place : ℕ) : ℕ :=
  match decodeRecordPrefix data size place 0 with
  | .frame frame => frame.crcEnd
  | _ => place + 8

/-- An error has the type of the record at `place`, and is set at one of its bytes. -/
structure Error.PointsAt (e : Error) (data : Bytes) (size place : ℕ) : Prop where
  type : e.recordType = joinU16 (slice data place 2)
  begins : place ≤ e.offset
  ends : e.offset < recordEnd data size place

/-- **An error identifies the record** at `place`, which is in `depth` groups and is refused with
the status. -/
structure Error.Identifies (e : Error) (status : Status) (data : Bytes)
    (size place depth : ℕ) : Prop
    extends e.PointsAt data size place where
  code : e.code = status
  depth : e.depth.toNat = depth

section

variable {data : Bytes} {size place : ℕ} {depth : UInt8} {e : Error} {f : RecordFrame}

/-- The first two bytes of what begins with a word. -/
theorem joinU16_of_begins {n : ℕ} {v : UInt16} {post : Bytes} (hn : 2 ≤ n)
    (h : slice data place n = writeU16 v ++ post) :
    joinU16 (slice data place 2) = v := by
  have h2 := congrArg (List.take 2) h
  rw [slice, List.take_take, Nat.min_eq_left hn, List.take_left' (length_writeU16 v)] at h2
  rw [slice, h2, joinU16_writeU16]

/-- The first two bytes of a record. -/
theorem joinU16_of_lies {h : RecordHead} {payload : Bytes}
    (hl : Lies data place (h.bytes payload)) :
    joinU16 (slice data place 2) = h.type := by
  rw [Lies] at hl
  simp only [RecordHead.bytes, RecordHead.body, RecordHead.prefixBytes, List.append_assoc] at hl
  refine joinU16_of_begins ?_ hl
  simp

/-- A frame has the type and the end of its record. -/
theorem pointsAt_of_frame (hmax : size ≤ sizeMax)
    (hf : decodeRecordPrefix data size place depth = .frame f) (ht : e.recordType = f.type)
    (hlo : f.offset ≤ e.offset) (hhi : e.offset < f.crcEnd) : e.PointsAt data size place := by
  obtain ⟨h, n, ha, hfit, hle, ⟨post, hpre⟩, rfl⟩ := (decodeRecordPrefix_eq_frame_iff hmax).mp hf
  have hge := h.size_ge n
  have hzero : decodeRecordPrefix data size place 0 = .frame (h.frameAt place n 0) :=
    (decodeRecordPrefix_eq_frame_iff hmax).mpr ⟨h, n, ha, hfit, hle, ⟨post, hpre⟩, rfl⟩
  refine ⟨ht.trans ?_, hlo, ?_⟩
  · rw [RecordHead.prefixBytes] at hpre
    simp only [List.append_assoc] at hpre
    exact (joinU16_of_begins (by omega) hpre.symm).symm
  · rw [recordEnd, hzero]
    exact hhi

/-- What `tide_decode_record_prefix` rejects. -/
theorem pointsAt_of_rejected (hmax : size ≤ sizeMax)
    (hrej : decodeRecordPrefix data size place depth = .rejected e) :
    e.PointsAt data size place ∧ e.depth = depth := by
  have hend : place < recordEnd data size place := by
    unfold recordEnd
    cases hdec : decodeRecordPrefix data size place 0 with
    | frame f =>
      obtain ⟨h, n, rfl, -⟩ := frame_of_decode hmax hdec
      have hge := h.size_ge n
      change place < place + h.size n
      omega
    | truncated | rejected => simp
  unfold decodeRecordPrefix at hrej
  split at hrej
  · cases hrej
  rename_i h8
  split at hrej
  · cases hrej
  rename_i p r hrun
  obtain ⟨bs, post, ⟨reserved, rfl⟩, hxs, -⟩ := (readPrefix_run_iff ..).mp hrun
  simp only [List.append_assoc] at hxs
  have htype : p.type = joinU16 (slice data place 2) := (joinU16_of_begins (by omega) hxs).symm
  unfold frameOfPrefix at hrej
  split at hrej
  · cases hrej
    exact ⟨⟨htype, Nat.le_refl _, hend⟩, rfl⟩
  split at hrej
  · cases hrej
    exact ⟨⟨htype, Nat.le_refl _, hend⟩, rfl⟩
  split at hrej <;> cases hrej

/-- What `tide_validate_record_integrity` rejects. -/
theorem pointsAt_of_integrity (hmax : size ≤ sizeMax)
    (hf : decodeRecordPrefix data size place depth = .frame f)
    (hint : validateRecordIntegrity data f = .error e) :
    e.PointsAt data size place ∧ e.depth = depth := by
  obtain ⟨h, n, rfl, -⟩ := frame_of_decode hmax hf
  have hpad := h.le_paddedSize n
  have hsize : h.size n = h.paddedSize n + 4 := rfl
  unfold validateRecordIntegrity at hint
  split at hint
  · rename_i i hi
    cases hint
    -- the byte that is not zero is in the padding
    obtain ⟨hlt, -⟩ := List.findIdx?_eq_some_iff_getElem.mp hi
    have hlen : i < h.paddedSize n - (h.headerSize n + n) := by
      have hle := List.length_take_le ((h.frameAt place n depth).paddingEnd -
        (h.frameAt place n depth).payloadEnd)
        (data.drop (h.frameAt place n depth).payloadEnd)
      rw [slice] at hlt
      simp only [RecordHead.frameAt] at hlt hle
      omega
    refine ⟨pointsAt_of_frame hmax hf rfl ?_ ?_, rfl⟩
    · change place ≤ place + h.headerSize n + n + i
      omega
    · change place + h.headerSize n + n + i < place + h.size n
      omega
  dsimp only at hint
  split at hint
  · cases hint
    refine ⟨pointsAt_of_frame hmax hf rfl ?_ ?_, rfl⟩
    · change place ≤ place + h.paddedSize n
      omega
    · change place + h.paddedSize n < place + h.size n
      omega
  · cases hint

end

/-! ### What a record is refused with -/

/-- A stream descriptor whose track is in the table already, or for whose track there is no room:
the error that `tide_add_track` sets for it has the depth 0. -/
structure TrackRefused (limits : Limits) (tracks : List TrackSnapshot) (h : RecordHead)
    (payload : Bytes) : Prop where
  type : h.type = RecordType.streamDesc.code
  stream : ∃ s, wholePayload readStream payload = some s ∧ rationalIsValid s.timeBase = true ∧
    ¬ (findTrack tracks s.trackId s.generation = none ∧ tracks.length < limits.maxTracks.toNat)

/-- A result that refuses the record of a frame, with the depth in its error. -/
structure RecordFrame.Refuses (frame : RecordFrame) (depth : UInt8)
    (r : Status × Parsing σ) : Prop where
  code : r.2.error.code = r.1
  type : r.2.error.recordType = frame.type
  depth : r.2.error.depth = depth
  begins : frame.offset ≤ r.2.error.offset
  ends : r.2.error.offset < frame.crcEnd

/-- What the loop over the children of a group answers, behind the announcement of the group. -/
def childrenAnswer (data : Bytes) (offset depth : ℕ) (h : RecordHead) (children : Bytes)
    (p : Parsing σ) : Status × Parsing σ :=
  parseRecords data (Forest.childOffset h children.length offset)
    (Forest.childOffset h children.length offset + children.length)
    (UInt8.ofNat (depth + 1)) (p.notify (headEvent h (20 + children.length) offset depth)).2

section

variable {I : σ → Prop} {data payload : Bytes} {h : RecordHead} {offset : ℕ} {p : Parsing σ}

/-- An error that is set while a record is processed refuses the record. -/
theorem RecordFrame.Sets.refuses {depth : UInt8} {e : Error}
    (he : (h.frameAt offset payload.length depth).Sets e) (p : Parsing σ) :
    (h.frameAt offset payload.length depth).Refuses depth (p.fail e) := by
  have hpad := h.le_paddedSize payload.length
  have hsize : h.size payload.length = h.paddedSize payload.length + 4 := rfl
  have hplace := he.offset
  refine ⟨rfl, he.type, he.depth, ?_, ?_⟩
  · change offset ≤ e.offset
    simp only [RecordHead.frameAt] at hplace
    omega
  · change e.offset < offset + h.size payload.length
    simp only [RecordHead.frameAt] at hplace
    omega

/-- A group with a child that is not complete is refused, at its first child. -/
theorem closeGroup_refuses {depth : UInt8} {m : GroupMeta} {children : Bytes}
    (hm : payload = groupPayload m children) {r : Status × Parsing σ} (htrunc : r.1 = .truncated) :
    (h.frameAt offset payload.length depth).Refuses depth
      (closeGroup (h.frameAt offset payload.length depth) r) := by
  have hn : payload.length = 20 + children.length := by rw [hm, length_groupPayload]
  have hpad := h.le_paddedSize payload.length
  have hsize : h.size payload.length = h.paddedSize payload.length + 4 := rfl
  rcases r with ⟨st, q⟩
  subst htrunc
  refine ⟨rfl, rfl, rfl, ?_, ?_⟩
  · change offset ≤ offset + h.headerSize payload.length + 20
    omega
  · change offset + h.headerSize payload.length + 20 < offset + h.size payload.length
    omega

/-- A track that is refused, is refused with the depth 0. -/
theorem addTrack_error (p : Parsing σ) {s : StreamInfo} (offset : ℕ)
    (hno : ¬ (findTrack p.tracks s.trackId s.generation = none ∧
      p.tracks.length < p.limits.maxTracks.toNat)) :
    ∃ status message, status.Rejects ∧
      addTrack p s offset =
        p.fail (parseError status offset RecordType.streamDesc.code 0 message) := by
  unfold addTrack
  by_cases hfind : findTrack p.tracks s.trackId s.generation = none
  · have hroom : p.tracks.length ≥ p.limits.maxTracks.toNat := by
      by_contra hlt
      exact hno ⟨hfind, Nat.not_le.mp hlt⟩
    rw [if_neg (by simp [hfind]), if_pos hroom]
    exact ⟨_, _, show Status.resource.Rejects by decide, rfl⟩
  · rw [if_pos (Option.isSome_iff_ne_none.mpr hfind)]
    exact ⟨_, _, show Status.format.Rejects by decide, rfl⟩

/-- **How `tide_emit_stream` refuses**: with the depth of the record, or, if the track is refused,
at depth 0. -/
theorem emitStream_refuses (hc : p.Calm I) {depth : UInt8}
    (ht : h.type = RecordType.streamDesc.code)
    (hne : (emitStream p payload (h.frameAt offset payload.length depth)).1 ≠ .ok) :
    (¬ TrackRefused p.limits p.tracks h payload ∧
        (h.frameAt offset payload.length depth).Refuses depth
          (emitStream p payload (h.frameAt offset payload.length depth))) ∨
      TrackRefused p.limits p.tracks h payload ∧
        (h.frameAt offset payload.length depth).Refuses 0
          (emitStream p payload (h.frameAt offset payload.length depth)) := by
  set frame := h.frameAt offset payload.length depth with hframe
  have hge := h.size_ge payload.length
  -- a descriptor that is refused before its track is not one whose track is refused
  have hearly : ∀ {status : Status} {message : String}, status.Rejects →
      (∀ s, wholePayload readStream payload = some s → ¬ rationalIsValid s.timeBase = true) →
      ¬ TrackRefused p.limits p.tracks h payload ∧
        frame.Refuses depth (p.fail (frameError frame status message)) :=
    fun hrej hno => ⟨fun ⟨_, s, hs, htb, _⟩ => hno s hs htb,
      (frame.sets_frameError hrej _).refuses p⟩
  unfold emitStream at hne ⊢
  cases hread : wholePayload readStream payload with
  | none => exact .inl (hearly (show Status.format.Rejects by decide) (by simp [hread]))
  | some s =>
    rw [hread] at hne
    dsimp only at hne ⊢
    by_cases htb : rationalIsValid s.timeBase = true
    swap
    · rw [if_pos (by simpa using htb)]
      exact .inl (hearly (show Status.timeline.Rejects by decide) (by simpa [hread] using htb))
    rw [if_neg (by simpa using htb)] at hne ⊢
    obtain ⟨-, p', hadd, hfol, -⟩ | ⟨hno, -⟩ := addTrack_cases hc s frame.offset
    · rw [hadd] at hne
      exact absurd (congrArg Prod.fst ((hfol.calm hc).notify (.stream s))) hne
    · obtain ⟨status, message, hrej, hadd⟩ := addTrack_error p frame.offset hno
      refine .inr ⟨⟨ht, s, hread, htb, hno⟩, ?_⟩
      change frame.Refuses 0 (closeTrack s (addTrack p s frame.offset))
      rw [hadd, closeTrack_of_ne hrej.1]
      exact ⟨rfl, ht.symm, rfl, Nat.le_refl _, show offset < offset +
        h.size payload.length by omega⟩

/-- The children of a group, as `tide_process_record` parses them. -/
theorem childrenAnswer_eq (level : ℕ) (p : Parsing σ) {m : GroupMeta} {children : Bytes}
    (hm : payload = groupPayload m children) :
    parseRecords data ((h.frameAt offset payload.length (UInt8.ofNat level)).payloadOffset + 20)
      (h.frameAt offset payload.length (UInt8.ofNat level)).payloadEnd
        ((h.frameAt offset payload.length (UInt8.ofNat level)).depth + 1)
      (p.notify (.record (h.frameAt offset payload.length (UInt8.ofNat level)).event)).2 =
      childrenAnswer data offset level h children p := by
  have hn : payload.length = 20 + children.length := by rw [hm, length_groupPayload]
  have hend : offset + h.headerSize (20 + children.length) + (20 + children.length) =
      Forest.childOffset h children.length offset + children.length := by
    rw [Forest.childOffset]
    omega
  rw [hn, childrenAnswer, ← hend, ← depth_succ]
  rfl

/-- A packet is refused with the depth of its record. -/
theorem emitPacket_error (hc : p.Calm I) {frame : RecordFrame}
    (hne : (emitPacket p payload frame).1 ≠ .ok) :
    ∃ e, frame.Sets e ∧ emitPacket p payload frame = p.fail e := by
  unfold emitPacket at hne ⊢
  cases hread : wholePayload readPacket payload with
  | none => exact ⟨_, frame.sets_frameError (show Status.format.Rejects by decide) _, rfl⟩
  | some k =>
    rw [hread] at hne
    dsimp only at hne ⊢
    split
    · exact ⟨_, frame.sets_frameError (show Status.timeline.Rejects by decide) _, rfl⟩
    · rename_i hdur
      rw [if_neg hdur] at hne
      split
      · exact ⟨_, frame.sets_frameError (show Status.format.Rejects by decide) _, rfl⟩
      · rename_i hfind
        rw [if_neg hfind] at hne
        exact absurd (congrArg Prod.fst (hc.notify (.packet k))) hne

/-- **How `tide_process_record` refuses**: with the depth of the record, or a track at depth 0, or
it is a group that is opened, and refused with its children. -/
theorem processRecord_refuses (hc : p.Calm I) (level : ℕ) {lo hi : ℕ}
    (hf : Found data p.limits lo hi offset h payload) {r : Status × Parsing σ}
    (hr : processRecord (parseRecords data) data (h.frameAt offset payload.length
      (UInt8.ofNat level)) p = r)
    (hne : r.1 ≠ .ok) :
    (¬ TrackRefused p.limits p.tracks h payload ∧
      (h.frameAt offset payload.length (UInt8.ofNat level)).Refuses (UInt8.ofNat level) r) ∨
      (TrackRefused p.limits p.tracks h payload ∧
        (h.frameAt offset payload.length (UInt8.ofNat level)).Refuses 0 r) ∨
      ∃ m children, payload = groupPayload m children ∧ h.type = RecordType.group.code ∧
        admits p.limits level ∧
        childrenAnswer data offset level h children p = r := by
  set frame := h.frameAt offset payload.length (UInt8.ofNat level) with hframe
  set p₁ := (p.notify (.record frame.event)).2 with hp₁
  have hnotify : p.notify (.record frame.event) = (.ok, p₁) := hc.notify _
  have hc₁ : p₁.Calm I := (Parsing.follows_notify p _).calm hc
  have hslice : slice data frame.payloadOffset (frame.payloadEnd - frame.payloadOffset) = payload :=
    (slice_frameAt data h offset payload.length _).trans (h.lies_payload hf.lies)
  have hlen : frame.payloadEnd - frame.payloadOffset = payload.length := by
    simp only [hframe, RecordHead.frameAt, Nat.add_sub_cancel_left]
  -- an error that is not that of a track
  have hother : ∀ {t : Option RecordType} {e : Error}, recordTypeOf h.type = t →
      t ≠ some .streamDesc → frame.Sets e → r = p₁.fail e →
        ¬ TrackRefused p.limits p.tracks h payload ∧ frame.Refuses (UInt8.ofNat level) r := by
    rintro t e hrt hno he rfl
    refine ⟨fun href => hno ?_, he.refuses p₁⟩
    rw [← hrt, href.type, recordTypeOf_code]
  unfold processRecord at hr
  rw [hslice, hnotify] at hr
  dsimp only at hr
  split at hr
  · subst hr
    exact absurd rfl hne
  rw [andThen_ok, show frame.type = h.type from rfl] at hr
  cases hrt : recordTypeOf h.type with
  | none =>
    rw [hrt] at hr
    exact .inl (hother hrt (by simp)
      (frame.sets_parseError (show Status.unsupported.Rejects by decide) _) hr.symm)
  | some t =>
    have ht : h.type = t.code := (recordTypeOf_eq_some_iff ..).mp hrt
    rw [hrt] at hr
    cases t with
    | group =>
      dsimp only at hr
      obtain ⟨⟨m, children, hm⟩, hadm, hgroup⟩ | ⟨-, e, he, hfail⟩ :=
        processGroup_cases (parseRecords data) hlen hf.payload_le p₁
      swap
      · exact .inl (hother hrt (by simp) he (hr.symm.trans hfail))
      rw [hgroup, childrenAnswer_eq level p hm] at hr
      by_cases htrunc : (childrenAnswer data offset level h children p).1 = .truncated
      · -- the group is refused for a child that is not complete
        subst hr
        refine .inl ⟨fun href => ?_, closeGroup_refuses hm htrunc⟩
        cases ht.symm.trans href.type
      · rw [closeGroup_of_ne htrunc] at hr
        exact .inr (.inr ⟨m, children, hm, ht, hadm, hr⟩)
    | streamDesc =>
      dsimp only at hr
      subst hr
      exact (emitStream_refuses hc₁ ht hne).imp_right .inl
    | packet =>
      dsimp only at hr
      obtain ⟨e, he, hfail⟩ := emitPacket_error hc₁ (by rw [hr]; exact hne)
      exact .inl (hother hrt (by simp) he (hr.symm.trans hfail))
    | packetTable | editList | discontinuity | seekIndex | checkpoint | indexDirectory | footer =>
      dsimp only at hr
      cases hemit : emitSimpleRecord p₁.limits p₁.tracks frame data payload with
      | ok u =>
        rw [hemit] at hr
        subst hr
        exact absurd rfl hne
      | error e =>
        rw [hemit] at hr
        obtain ⟨status, message, hrej, rfl⟩ := emitSimpleRecord_error hemit
        exact .inl (hother hrt (by simp) (frame.sets_frameError hrej _) hr.symm)

/-- A record that is refused before it is processed: its prefix, its size, its padding or its
checksum is not right. -/
theorem recordStep_points {parse : ParseRecords σ} {size : ℕ} {d : UInt8} {r : Status × Parsing σ}
    (hsize : size ≤ data.length) (hmax : size ≤ sizeMax)
    (hstep : recordStep parse data size offset d p = .stop r)
    (hno : ¬ ∃ h payload, Found data p.limits offset size offset h payload) :
    r.2.error.code = r.1 ∧ r.2.error.PointsAt data size offset ∧ r.2.error.depth = d := by
  unfold recordStep at hstep
  cases hdec : decodeRecordPrefix data size offset d with
  | truncated =>
    rw [hdec] at hstep
    cases hstep
  | rejected e =>
    rw [hdec] at hstep
    cases hstep
    exact ⟨rfl, pointsAt_of_rejected hmax hdec⟩
  | frame f =>
    rw [hdec] at hstep
    dsimp only at hstep
    split at hstep
    · cases hstep
      obtain ⟨h, n, rfl, -⟩ := frame_of_decode hmax hdec
      have hge := h.size_ge n
      exact ⟨rfl, pointsAt_of_frame hmax hdec rfl (Nat.le_refl _) (show offset < offset +
        h.size n by omega), rfl⟩
    rename_i hlimits
    cases hint : validateRecordIntegrity data f with
    | error e =>
      rw [hint] at hstep
      cases hstep
      exact ⟨rfl, pointsAt_of_integrity hmax hdec hint⟩
    | ok u =>
      obtain ⟨h, payload, ha, hfit, hl, hle, rfl⟩ := (framed_iff hsize hmax).mp ⟨hdec, hint⟩
      rw [not_or, UInt64.not_lt, UInt64.le_iff_toNat_le] at hlimits
      simp only [RecordHead.frameAt, h.toNat_payloadSize hfit] at hlimits
      exact absurd ⟨h, payload, Nat.le_refl _, hle, ⟨ha, hlimits.1, by omega⟩, hl⟩ hno

end

end Tide
