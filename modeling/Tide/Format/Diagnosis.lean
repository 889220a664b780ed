import Tide.Format.Errors
import Tide.Format.Notice

/-!
# What the last error says

When a record is refused, the last error is to say which one: it has the status that is
returned, the type of the record, the number of groups around it, and a place in it.
`RefusedAt` goes to that record, over the records that are accepted and into the groups that
are opened: there is one, and the loop stops there.

The depth is not always right. The errors of `tide_add_track` have the depth 0 in every group,
and a record in 256 groups is parsed with the depth 0, for the depth has eight bits. So the last
error identifies the record that is refused if and only if that one is in at most 255 groups,
and is not a descriptor in a group that `tide_add_track` refuses (`lastError_identifies_iff`).
-/

namespace Tide

open Theory

variable {σ : Type}

/-! ### The record that is refused -/

/-- A record that is refused: where it is, where the range ends that it is in, how many groups are
around it, and the state of the parser before it. -/
structure Refusal (σ : Type) where
  place : ℕ
  size : ℕ
  depth : ℕ
  before : Parsing σ

/-- **The record itself is refused**: the loop stops at it, and if it is a group that is opened,
then not for a child that is refused. -/
structure Refusal.Stops (data : Bytes) (x : Refusal σ) (r : Status × Parsing σ) : Prop where
  step : recordStep (parseRecords data) data x.size x.place (UInt8.ofNat x.depth) x.before = .stop r
  own : ∀ h m children, Opened data x.before.limits x.size x.place x.depth h m children →
    ¬ (childrenAnswer data x.place x.depth h children x.before).1.Rejects

/-- The record is a well-formed descriptor whose track is refused. -/
def Refusal.OfTrack (data : Bytes) (x : Refusal σ) : Prop :=
  ∃ h payload, Found data x.before.limits x.place x.size x.place h payload ∧
    TrackRefused x.before.limits x.before.tracks h payload

/-- **The path to the record that is refused**, from a place in `depth` groups: it is there, or in
the group that is opened there, or behind the record that is accepted there. -/
inductive RefusedAt (data : Bytes) : Refusal σ → (size offset depth : ℕ) → Parsing σ → Prop
  | here {size offset depth : ℕ} {p : Parsing σ} {r : Status × Parsing σ}
      (hstop : Refusal.Stops data ⟨offset, size, depth, p⟩ r) :
    RefusedAt data ⟨offset, size, depth, p⟩ size offset depth p
  | inside {x : Refusal σ} {size offset depth : ℕ} {p : Parsing σ} {h : RecordHead} {m : GroupMeta}
      {children : Bytes}
      (ho : Opened data p.limits size offset depth h m children)
        (hrej : (childrenAnswer data offset depth h children p).1.Rejects)
      (hin : RefusedAt data x (Forest.childOffset h children.length offset + children.length)
        (Forest.childOffset h children.length offset) (depth + 1)
          (p.notify (headEvent h (20 + children.length) offset depth)).2) :
    RefusedAt data x size offset depth p
  | next {x : Refusal σ} {size offset next depth : ℕ} {p p' : Parsing σ}
      (hgo : recordStep (parseRecords data) data size offset (UInt8.ofNat depth) p = .go next p')
      (hrest : RefusedAt data x size next depth p') : RefusedAt data x size offset depth p

section

variable {I : σ → Prop} {data : Bytes} {size offset depth : ℕ} {p : Parsing σ} {x y : Refusal σ}

/-- A record that is not a group is refused itself. -/
theorem stops_of_type_ne (ht : joinU16 (slice data offset 2) ≠ RecordType.group.code)
    {r : Status × Parsing σ}
    (hstep : recordStep (parseRecords data) data size offset (UInt8.ofNat depth) p = .stop r) :
    Refusal.Stops data ⟨offset, size, depth, p⟩ r :=
  ⟨hstep, fun _ _ _ ho _ => ht ((joinU16_of_lies ho.lies).trans ho.type)⟩

/-- **What the error of a refused record says**: everything but the depth is right, and the depth is
that of the record, in eight bits, or 0 if its track is refused. -/
theorem Refusal.Stops.diagnosed {r : Status × Parsing σ} (h : x.Stops data r) (hc : x.before.Calm I)
    (hsize : x.size ≤ data.length) (hmax : x.size ≤ sizeMax) (hoff : 72 ≤ x.place) :
    r.2.error.code = r.1 ∧ r.2.error.PointsAt data x.size x.place ∧
      (¬ x.OfTrack data ∧ r.2.error.depth = UInt8.ofNat x.depth ∨ x.OfTrack data ∧
        r.2.error.depth = 0) := by
  have hrej : r.1.Rejects := by
    obtain hmore | ⟨r', hstop, hrej, -⟩ | ⟨record, p', -, -, hgo⟩ :=
      recordStep_round x.depth hsize hmax hc hoff
    · rw [h.step] at hmore
      cases hmore
    · rw [h.step] at hstop
      cases hstop
      exact hrej
    · rw [h.step] at hgo
      cases hgo
  by_cases hfound : ∃ head payload, Found data x.before.limits x.place x.size x.place head payload
  · obtain ⟨head, payload, hf⟩ := hfound
    have hframed : Framed data x.size x.place head payload := ⟨hf.head.alignment, hf.lies, hf.le_hi⟩
    have hdec := hframed.frame_eq hsize hmax hoff (UInt8.ofNat x.depth)
    have htrack : x.OfTrack data ↔ TrackRefused x.before.limits x.before.tracks head payload := by
      constructor
      · rintro ⟨head', payload', hf', href⟩
        obtain ⟨rfl, rfl⟩ := framed_unique hoff hsize hmax hsize hmax hframed ⟨hf'.head.alignment,
          hf'.lies, hf'.le_hi⟩
        exact href
      · exact fun href => ⟨head, payload, hf, href⟩
    have hstep := h.step
    obtain ⟨-, hstop, -⟩ | ⟨-, hgo, -⟩ :=
      parseRecords_framed x.depth hsize hmax hoff hf.head hf.lies hf.le_hi rfl
    swap
    · rw [hstep] at hgo
      cases hgo
    have hproc : processRecord (parseRecords data) data (head.frameAt x.place payload.length
        (UInt8.ofNat x.depth)) x.before = r :=
      (Move.stop.inj (hstep.symm.trans hstop)).symm
    rw [htrack]
    obtain ⟨hno, href⟩ | ⟨hyes, href⟩ | ⟨m, children, hm, ht, hadm, hanswer⟩ :=
      processRecord_refuses hc x.depth hf hproc hrej.1
    · exact ⟨href.code, pointsAt_of_frame hmax hdec href.type href.begins href.ends,
        .inl ⟨hno, href.depth⟩⟩
    · exact ⟨href.code, pointsAt_of_frame hmax hdec href.type href.begins href.ends,
        .inr ⟨hyes, href.depth⟩⟩
    · have hlen := length_groupPayload m children
      have hhead := hf.head
      have hle := hf.le_hi
      rw [hm, hlen] at hhead hle
      exact absurd (hanswer ▸ hrej) (h.own head m children ⟨hhead, ht, hadm, hm ▸ hf.lies, hle⟩)
  · have hno : ¬ x.OfTrack data := fun ⟨head, payload, hf, _⟩ => hfound ⟨head, payload, hf⟩
    obtain ⟨hcode, hpoints, hdepth⟩ := recordStep_points hsize hmax h.step hfound
    exact ⟨hcode, hpoints, .inl ⟨hno, hdepth⟩⟩

/-- **When the error identifies a refused record.** -/
theorem Refusal.Stops.identifies_iff {r : Status × Parsing σ} (h : x.Stops data r)
    (hc : x.before.Calm I) (hsize : x.size ≤ data.length) (hmax : x.size ≤ sizeMax)
    (hoff : 72 ≤ x.place) :
    r.2.error.Identifies r.1 data x.size x.place x.depth ↔ x.depth ≤ 255 ∧
      (x.OfTrack data → x.depth = 0) := by
  obtain ⟨hcode, hpoints, hdepth⟩ := h.diagnosed hc hsize hmax hoff
  have hiff : r.2.error.Identifies r.1 data x.size x.place x.depth ↔
      r.2.error.depth.toNat = x.depth :=
    ⟨fun hid => hid.depth, fun hd => ⟨hpoints, hcode, hd⟩⟩
  rw [hiff]
  obtain ⟨hno, hd⟩ | ⟨hyes, hd⟩ := hdepth
  · -- the depth of the record, in eight bits
    have hlt := (UInt8.ofNat x.depth).toNat_lt
    rw [hd, iff_comm, and_iff_left fun hyes => absurd hyes hno]
    constructor
    · intro hle
      exact UInt8.toNat_ofNat_of_lt' (by change _ < 2 ^ 8; omega)
    · intro heq
      omega
  · rw [hd]
    constructor
    · intro heq
      have hzero : x.depth = 0 := heq.symm
      exact ⟨by omega, fun _ => hzero⟩
    · intro hcond
      exact (hcond.2 hyes).symm

/-- The loop at a record where it stops. -/
theorem parseRecords_stop {d : UInt8} {r : Status × Parsing σ} (hmax : size ≤ sizeMax)
    (hstep : recordStep (parseRecords data) data size offset d p = .stop r) :
    parseRecords data offset size d p = r := by
  have hlt : offset < size := by
    by_contra hge
    have hmore := (recordStep_eq_more_iff (parseRecords data) data size offset d p).mpr (by
      rw [decodeRecordPrefix, if_pos (by omega)])
    rw [hstep] at hmore
    cases hmore
  rw [parseRecords_eq data hmax, if_pos hlt, hstep]

/-- The loop at a group whose children are refused. -/
theorem recordStep_inside (hc : p.Calm I) (hsize : size ≤ data.length) (hmax : size ≤ sizeMax)
    (hoff : 72 ≤ offset) {h : RecordHead} {m : GroupMeta} {children : Bytes}
    (ho : Opened data p.limits size offset depth h m children)
    (hrej : (childrenAnswer data offset depth h children p).1.Rejects) :
    recordStep (parseRecords data) data size offset (UInt8.ofNat depth) p =
      .stop (childrenAnswer data offset depth h children p) := by
  have hgroup := recordStep_group hsize hmax hc hoff ho.head ho.type ho.admits ho.lies ho.le
  rw [← childrenAnswer, closeGroup_of_ne hrej.2.2, closeRecord_of_ne hrej.1] at hgroup
  exact hgroup

/-- A round that goes on leaves behind a state that is calm, under the same limits. -/
theorem recordStep_goes (hc : p.Calm I) (hsize : size ≤ data.length) (hmax : size ≤ sizeMax)
    (hoff : 72 ≤ offset) {next : ℕ} {p' : Parsing σ}
    (hgo : recordStep (parseRecords data) data size offset (UInt8.ofNat depth) p = .go next p') :
    offset < next ∧ next ≤ size ∧ p'.Calm I ∧ p'.limits = p.limits := by
  obtain hmore | ⟨r, hstop, -⟩ | ⟨record, q, hr, hpass, hgo'⟩ :=
    recordStep_round depth hsize hmax hc hoff
  · rw [hgo] at hmore
    cases hmore
  · rw [hgo] at hstop
    cases hstop
  · rw [hgo] at hgo'
    obtain ⟨rfl, rfl⟩ := Move.go.inj hgo'
    have hpos := hr.length_pos
    exact ⟨by omega, hpass.le, hpass.follows.calm hc, hpass.follows.limits⟩

/-- The range of the children of a group that is opened. -/
theorem Opened.range {h : RecordHead} {m : GroupMeta} {children : Bytes} {limits : Limits}
    (ho : Opened data limits size offset depth h m children) :
    offset < Forest.childOffset h children.length offset ∧
      Forest.childOffset h children.length offset + children.length ≤ size ∧
      children.length < size - offset := by
  have hle := ho.le
  have hinside := Forest.children_inside h children.length offset
  omega

/-- **The record that is refused decides** what the loop answers: it stops there, in a range of the
bytes, in a state that is calm. -/
theorem RefusedAt.answer (h : RefusedAt data x size offset depth p) (hc : p.Calm I)
    (hsize : size ≤ data.length) (hmax : size ≤ sizeMax) (hoff : 72 ≤ offset) :
    x.Stops data (parseRecords data offset size (UInt8.ofNat depth) p) ∧ x.before.Calm I ∧
      x.size ≤ size ∧ offset ≤ x.place := by
  induction h with
  | here hstop =>
    rw [parseRecords_stop hmax hstop.step]
    exact ⟨hstop, hc, Nat.le_refl _, Nat.le_refl _⟩
  | inside ho hrej hin ih =>
    obtain ⟨hlo, hhi, -⟩ := ho.range
    obtain ⟨hstops, hcalm, hle, hplace⟩ := ih ((Parsing.follows_notify _ _).calm hc)
      (hhi.trans hsize) (hhi.trans hmax) (by omega)
    rw [parseRecords_stop hmax (recordStep_inside hc hsize hmax hoff ho hrej)]
    exact ⟨hstops, hcalm, hle.trans hhi, by omega⟩
  | @next x size offset next depth p p' hgo hrest ih =>
    obtain ⟨hlt, hle, hc', -⟩ := recordStep_goes hc hsize hmax hoff hgo
    obtain ⟨hstops, hcalm, hle', hplace⟩ := ih hc' hsize hmax (by omega)
    rw [parseRecords_eq data hmax, if_pos (by omega), hgo]
    exact ⟨hstops, hcalm, hle', by omega⟩

/-- **Of a range that is refused, one record is.** -/
theorem exists_refusedAt (hc : p.Calm I) (hsize : size ≤ data.length) (hmax : size ≤ sizeMax)
    (hoff : 72 ≤ offset) (hrej : (parseRecords data offset size (UInt8.ofNat depth) p).1.Rejects)
    (hle : offset ≤ size) :
    ∃ x, RefusedAt data x size offset depth p := by
  induction hn : size - offset using Nat.strongRecOn generalizing size offset depth p with
  | ind n ih =>
    subst hn
    by_cases hlt : offset < size
    swap
    · obtain rfl : offset = size := by omega
      rw [parseRecords_end data hmax] at hrej
      exact absurd rfl hrej.1
    rw [parseRecords_eq data hmax, if_pos hlt] at hrej
    cases hstep : recordStep (parseRecords data) data size offset (UInt8.ofNat depth) p with
    | more =>
      rw [hstep] at hrej
      exact absurd rfl hrej.2.2
    | stop r =>
      by_cases hin : ∃ h m children, Opened data p.limits size offset depth h m children ∧
          (childrenAnswer data offset depth h children p).1.Rejects
      · obtain ⟨h, m, children, ho, hchildren⟩ := hin
        obtain ⟨hlo, hhi, hshort⟩ := ho.range
        obtain ⟨x, hx⟩ := ih children.length hshort ((Parsing.follows_notify p _).calm hc)
          (hhi.trans hsize) (hhi.trans hmax) (by omega)
          hchildren (Nat.le_add_right ..) (by omega)
        exact ⟨x, .inside ho hchildren hx⟩
      · exact ⟨_, .here ⟨hstep, fun h m children ho hchildren => hin ⟨h, m, children,
          ho, hchildren⟩⟩⟩
    | go next p' =>
      rw [hstep] at hrej
      obtain ⟨hgt, hnext, hc', -⟩ := recordStep_goes hc hsize hmax hoff hstep
      obtain ⟨x, hx⟩ := ih (size - next) (by omega) hc' hsize hmax (by omega) hrej hnext rfl
      exact ⟨x, .next hstep hx⟩

theorem RefusedAt.depth_le (h : RefusedAt data x size offset depth p) : depth ≤ x.depth := by
  induction h with
  | here => exact Nat.le_refl _
  | inside _ _ _ ih => exact Nat.le_of_succ_le ih
  | next _ _ ih => exact ih

/-- One group is opened at a place. -/
theorem Opened.unique {limits : Limits} {h h' : RecordHead} {m m' : GroupMeta}
    {children children' : Bytes} (ho : Opened data limits size offset depth h m children)
    (ho' : Opened data limits size offset depth h' m' children') (hsize : size ≤ data.length)
    (hmax : size ≤ sizeMax) (hoff : 72 ≤ offset) : h = h' ∧ children = children' := by
  have hframed : ∀ {h : RecordHead} {m : GroupMeta} {children : Bytes},
      Opened data limits size offset depth h m children →
        Framed data size offset h (groupPayload m children) := fun ho =>
    ⟨ho.head.alignment, ho.lies, by rw [length_groupPayload]; exact ho.le⟩
  obtain ⟨rfl, hpayload⟩ := framed_unique hoff hsize hmax hsize hmax (hframed ho) (hframed ho')
  exact ⟨rfl, (groupPayload_inj hpayload).2⟩

/-- **And no other record is.** -/
theorem RefusedAt.unique (h : RefusedAt data x size offset depth p)
    (hy : RefusedAt data y size offset depth p) (hc : p.Calm I) (hsize : size ≤ data.length)
    (hmax : size ≤ sizeMax) (hoff : 72 ≤ offset) : x = y := by
  induction h with
  | here hstop =>
    cases hy with
    | here => rfl
    | inside ho hrej => exact absurd hrej (hstop.own _ _ _ ho)
    | next hgo =>
      have hstep := hstop.step
      rw [hgo] at hstep
      cases hstep
  | inside ho hrej hin ih =>
    obtain ⟨hlo, hhi, -⟩ := ho.range
    cases hy with
    | here hstop => exact absurd hrej (hstop.own _ _ _ ho)
    | inside ho' _ hin' =>
      obtain ⟨rfl, rfl⟩ := ho.unique ho' hsize hmax hoff
      exact ih hin' ((Parsing.follows_notify _ _).calm hc) (hhi.trans hsize) (hhi.trans hmax)
        (by omega)
    | next hgo =>
      have hstep := recordStep_inside hc hsize hmax hoff ho hrej
      rw [hgo] at hstep
      cases hstep
  | next hgo hrest ih =>
    obtain ⟨hlt, hle, hc', -⟩ := recordStep_goes hc hsize hmax hoff hgo
    cases hy with
    | here hstop =>
      have hstep := hstop.step
      rw [hgo] at hstep
      cases hstep
    | inside ho hrej =>
      have hstep := recordStep_inside hc hsize hmax hoff ho hrej
      rw [hgo] at hstep
      cases hstep
    | next hgo' hrest' =>
      rw [hgo] at hgo'
      obtain ⟨rfl, rfl⟩ := Move.go.inj hgo'
      exact ih hrest' hc' hsize hmax (by omega)

end

/-! ### Sessions -/

/-- The loop over a file comes from one place to another, whatever bytes are still to come. -/
def Leads (data : Bytes) (x y : ℕ × Parsing σ) : Prop :=
  ∀ ext o, (data ++ ext).length ≤ sizeMax → Runs fileStep (data ++ ext) y.1 y.2 o →
    Runs fileStep (data ++ ext) x.1 x.2 o

/-- What a session has come to that has not ended: the decoder waits for the header, or the loop
over the records has come to `parse_offset`. -/
structure Decoder.Comes (start : Parsing σ) (I : σ → Prop) (d : Decoder σ) : Prop where
  bounded : d.buffer.Bounded
  calm : d.toParsing.Calm I
  place : d.headerValidated = false ∧ d.toParsing = start ∨
    d.headerValidated = true ∧ 72 ≤ d.parseOffset ∧ d.parseOffset ≤ d.buffer.data.length ∧
      d.validPrefix = d.parseOffset ∧
      Leads d.buffer.data (72, { start with validPrefix := 72 }) (d.parseOffset, d.toParsing)

/-- **The feed refuses a record**: it ends the session with a status other than `OK` and `PARTIAL`,
and the header is accepted. -/
structure Decoder.Refuses (d : Decoder σ) (piece : Piece) : Prop where
  fails : d.Fails piece
  header : (d.feed piece).2.headerValidated = true

section

variable {start : Parsing σ} {I : σ → Prop} {d : Decoder σ}

/-- `on_error` leaves the decoder alone. -/
theorem Decoder.notifyError_keeps (d : Decoder σ) :
    d.notifyError.buffer = d.buffer ∧ d.notifyError.error = d.error ∧
      d.notifyError.headerValidated = d.headerValidated := by
  obtain heq | ⟨f, -, heq⟩ := notifyError_eq d <;> rw [heq] <;> exact ⟨rfl, rfl, rfl⟩

/-- More bytes in the buffer change nothing. -/
theorem Decoder.Comes.append (h : d.Comes start I) (bs : Bytes) :
    Decoder.Comes start I { d with buffer := (bufferAppend d.buffer bs).2 } := by
  obtain ⟨ext, hdata⟩ : ∃ ext, (bufferAppend d.buffer bs).2.data = d.buffer.data ++ ext := by
    obtain ⟨-, ⟨-, hdata, -⟩ | ⟨-, hdata⟩⟩ := bufferAppend_cases d.buffer bs
    · exact ⟨bs, hdata⟩
    · exact ⟨[], by rw [hdata, List.append_nil]⟩
  refine ⟨bufferAppend_bounded h.bounded bs, h.calm, h.place.imp_right ?_⟩
  rintro ⟨hval, h72, hle, hvp, hleads⟩
  refine ⟨hval, h72, ?_, hvp, ?_⟩
  · dsimp only
    rw [hdata, List.length_append]
    omega
  · intro ext' o hmax hruns
    dsimp only at hmax hruns ⊢
    rw [hdata, List.append_assoc] at hmax hruns ⊢
    exact hleads _ o hmax hruns

/-- **The records behind the header**, as a session comes to them. -/
theorem Decoder.Comes.records (h : d.Comes start I) {d' : Decoder σ}
    (hd : d.acceptHeader = .ok d') :
    d'.headerValidated = true ∧ d'.buffer = d.buffer ∧ 72 ≤ d.buffer.data.length ∧
      ∃ o, parseRecords d'.buffer.data d'.parseOffset d'.buffer.data.length 0 d'.toParsing =
        recordsVerdict d.buffer.data o ∧
        Runs fileStep d.buffer.data 72 { start with validPrefix := 72 } o ∧
          Settled I d.buffer.data o := by
  have hmax := h.bounded.size
  unfold Decoder.acceptHeader at hd
  obtain ⟨hno, hstart⟩ | ⟨hyes, h72, hle, hvp, hleads⟩ := h.place
  · rw [if_neg (by simp [hno])] at hd
    split at hd
    · cases hd
    rename_i hval
    cases hd
    have hlen := length_of_validateHeader hval
    obtain ⟨o, hruns, hparse, hset⟩ :=
      runs_parseRecords hmax (((Parsing.Follows.refl d.toParsing).withPrefix 72).calm h.calm)
      (Nat.le_refl 72) hlen rfl
    exact ⟨rfl, rfl, hlen, o, hparse, hstart ▸ hruns, hset⟩
  · rw [if_pos hyes] at hd
    cases hd
    obtain ⟨o, hruns, hparse, hset⟩ := runs_parseRecords hmax h.calm h72 hle hvp
    have hall := hleads [] o
    rw [List.append_nil] at hall
    exact ⟨hyes, rfl, h72.trans hle, o, hparse, hall hmax hruns, hset⟩

/-- **A feed** keeps what a session has come to, or ends the session. -/
theorem Decoder.Comes.feed (h : d.Comes start I) (piece : Piece) :
    (d.feed piece).2.Comes start I ∨ (d.feed piece).2.terminal = true := by
  have happend := h.append piece.data
  have hcase := feed_case d piece
  generalize d.feed piece = r at hcase
  cases hcase with
  | closed => exact .inl h
  | full | short => exact .inl happend
  | headerRefused | headerRefusedLast | refused | cut => exact .inr rfl
  | @parsed d' r hlive hdata hd hr hst =>
    left
    obtain ⟨hval, hbuffer, h72, o, hparse, hruns, hset⟩ := happend.records hd
    rw [hr] at hparse
    cases o with
    | stop r' =>
      rw [hparse] at hst
      exact absurd (hst.imp_right And.left) (not_or.mpr ⟨hset.1, hset.2.2⟩)
    | wait pos q =>
      obtain ⟨hlo, hhi, hvp, hcalm⟩ := hset
      have hplace : (if r.1 = .ok then d'.buffer.data.length else r.2.validPrefix) = pos := by
        rw [hparse, recordsVerdict, hbuffer, hvp]
        by_cases hend : pos = (bufferAppend d.buffer piece.data).2.data.length
        · simp [hend]
        · simp [hend]
      rw [hplace, show r.2 = q by rw [hparse, recordsVerdict]]
      refine ⟨hbuffer ▸ happend.bounded, hcalm, .inr ⟨hval, hlo, hbuffer ▸ hhi, hvp, ?_⟩⟩
      dsimp only
      rw [hbuffer]
      exact fun ext o hmax => hruns.resume stepMono_fileStep hmax

/-- **A feed that refuses a record** answers what the loop over all the records answers. -/
theorem Decoder.Comes.refuses (h : d.Comes start I) (hstart : start.Calm I) {piece : Piece}
    (hrefuses : d.Refuses piece) :
    72 ≤ (d.feed piece).2.buffer.data.length ∧ (d.feed piece).2.buffer.data.length ≤ sizeMax ∧
      (d.feed piece).1.Rejects ∧
      ∃ q, parseRecords (d.feed piece).2.buffer.data 72 (d.feed piece).2.buffer.data.length 0
        { start with validPrefix := 72 } =
        ((d.feed piece).1, q) ∧ (d.feed piece).2.error = q.error := by
  have happend := h.append piece.data
  obtain ⟨⟨hlive, hends, hok, hpart⟩, hheader⟩ := hrefuses
  have hcase := feed_case d piece
  generalize d.feed piece = r at hcase hends hok hpart hheader ⊢
  cases hcase with
  | closed | full => exact absurd (hlive.symm.trans hends) (by simp)
  | short | parsed => exact absurd rfl hok
  | cut => exact absurd rfl hpart
  | @headerRefused e _ _ hd =>
    have hpending := (Decoder.acceptHeader_refused hd).1
    have hkeeps := (Decoder.notifyError_keeps
      { d with buffer := (bufferAppend d.buffer piece.data).2, error := e }).2.2
    exact absurd ((hkeeps.symm.trans hheader).symm.trans hpending) (by simp)
  | headerRefusedLast _ _ _ hd =>
      exact absurd (hheader.symm.trans (Decoder.acceptHeader_refused hd).1) (by simp)
  | @refused d' r _ hd hr hne htrunc _ =>
    obtain ⟨-, hbuffer, h72, o, hparse, hruns, hset⟩ := happend.records hd
    rw [hr] at hparse
    cases o with
    | wait pos q =>
      -- the loop that waits answers with `OK` or `TRUNCATED`
      rw [hparse, recordsVerdict] at hne htrunc
      split at hne
      · exact absurd rfl hne
      · rename_i hlt
        rw [if_neg hlt] at htrunc
        exact absurd rfl htrunc
    | stop r' =>
      obtain rfl : r = r' := hparse
      obtain ⟨hkeeps, herr, -⟩ := Decoder.notifyError_keeps { d' with toParsing := r.2 }
      have hdata : ({ Decoder.notifyError { d' with toParsing := r.2 } with terminal := true } :
        Decoder σ).buffer.data =
          (bufferAppend d.buffer piece.data).2.data := congrArg Buffer.data (hkeeps.trans hbuffer)
      have hmax := happend.bounded.size
      obtain ⟨o, hruns', hparse', -⟩ :=
        runs_parseRecords (I := I) hmax ((Parsing.Follows.refl start).withPrefix 72 |>.calm hstart)
        (Nat.le_refl 72) h72 rfl
      obtain rfl := hruns.det hruns'
      rw [hdata]
      exact ⟨h72, hmax, hset, r.2, hparse', herr⟩

theorem Decoder.Comes.feeds (h : d.Comes start I) (pieces : List Piece) :
    (d.feeds pieces).Comes start I ∨ (d.feeds pieces).terminal = true := by
  induction pieces generalizing d with
  | nil => exact .inl h
  | cons piece pieces ih =>
    change ((d.feed piece).2.feeds pieces).Comes start I ∨
      ((d.feed piece).2.feeds pieces).terminal = true
    obtain h' | hterm := h.feed piece
    · exact ih h'
    · rw [Decoder.feeds_of_terminal hterm]
      exact .inr hterm

end

/-- **When the last error identifies the record that is refused.** In any session, under any limits,
of a client whose callbacks return `OK`, with any pieces and enough memory: if a feed refuses a
record, then there is one record that is refused, the last error stays what it is, and it has
the status that is returned, and the type, the depth and a place of that record, if and only if
the record is in at most 255 groups, and in none if it is a descriptor whose track is refused. -/
theorem lastError_identifies_iff (L : Limits) {callbacks : Callbacks σ}
    (hcb : ∀ user event, (callbacks.call user event).1 = .ok) (user : σ)
    (bufferAllocs : Stream' Bool) (fed : List Piece) (piece : Piece) (rest : List Piece) :
    let start := Parsing.start (some L) callbacks user (Stream'.const true)
    let d := (decoderInit (some L) callbacks user (Stream'.const true) bufferAllocs).feeds fed
    let status := (d.feed piece).1
    let last := (d.feed piece).2.feeds rest
    let B := (d.feed piece).2.buffer.data
    d.Refuses piece → ∃ x, RefusedAt B x B.length 72 0 { start with validPrefix := 72 } ∧
      (∀ y, RefusedAt B y B.length 72 0 { start with validPrefix := 72 } → y = x) ∧
      (last.error.Identifies status B x.size x.place x.depth ↔ x.depth ≤ 255 ∧
        (x.OfTrack B → x.depth = 0)) := by
  intro start d status last B hrefuses
  have hstart : start.Calm fun _ => True := ⟨fun u e _ => ⟨hcb u e, trivial⟩, trivial, rfl⟩
  have hc : Parsing.Calm (fun _ => True) { start with validPrefix := 72 } :=
    ((Parsing.Follows.refl start).withPrefix 72).calm hstart
  have hinit : (decoderInit (some L) callbacks user (Stream'.const true) bufferAllocs).Comes start
      fun _ => True :=
    ⟨Buffer.bounded_empty .., hstart, .inl ⟨rfl, rfl⟩⟩
  have hcomes : d.Comes start fun _ => True :=
    (hinit.feeds fed).resolve_right fun hterm => absurd (hterm.symm.trans hrefuses.fails.live)
      (by simp)
  obtain ⟨h72, hmax, hrej, q, hparse, herr⟩ := hcomes.refuses hstart hrefuses
  have hlast : last.error = q.error := by
    rw [← herr]
    exact congrArg (fun d : Decoder σ => d.error)
      (Decoder.feeds_of_terminal hrefuses.fails.ends rest)
  change parseRecords B 72 B.length (UInt8.ofNat 0) { start with validPrefix := 72 } =
    (status, q) at hparse
  obtain ⟨x, hx⟩ := exists_refusedAt hc (Nat.le_refl _) hmax (Nat.le_refl 72)
    (by rw [hparse]; exact hrej) h72
  obtain ⟨hstops, hcalm, hsize, hplace⟩ := hx.answer hc (Nat.le_refl _) hmax (Nat.le_refl 72)
  refine ⟨x, hx, fun y hy => hy.unique hx hc (Nat.le_refl _) hmax (Nat.le_refl 72), ?_⟩
  have hiff := hstops.identifies_iff hcalm hsize (hsize.trans hmax) hplace
  rw [hparse] at hiff
  rw [hlast]
  exact hiff

/-! ### Two files -/

/-- The loop stops. -/
def Stopped {S R : Type} : Move S R → Bool
  | .stop _ => true
  | _ => false

/-- The range of a file behind its header. -/
def fileStart : Parsing Unit :=
  { Parsing.start (some limitsDefault) Callbacks.null () (Stream'.const true) with
    validPrefix := 72 }

/-- A record of an unknown type. -/
def unknownHead : RecordHead := ⟨0x7000, 0, 3, 0, 1⟩

/-- A file of a group with a record of an unknown type. -/
def unknownNested : Bytes :=
  sampleHeader.bytes ++ (Forest.group ⟨RecordType.group.code, 0, 3, 0, 0⟩ ⟨1, 0,
    0⟩ (.leaf unknownHead [] .nil) .nil).bytes

/-- A file of a group in which a stream is declared twice. -/
def declaredTwice : Bytes :=
  sampleHeader.bytes ++
    (Forest.group ⟨RecordType.group.code, 0, 3, 0, 0⟩ ⟨1, 0,
      0⟩ (.leaf loneHead lonePayload (.leaf loneHead lonePayload .nil)) .nil).bytes

/-- The record of the unknown type is found, with its depth. -/
theorem unknownNested_identified :
    let r := (decoderInit (some limitsDefault) Callbacks.null () (Stream'.const true)
      (Stream'.const true)).feed ⟨unknownNested, true⟩
    ∃ x, RefusedAt r.2.buffer.data x r.2.buffer.data.length 72 0 fileStart ∧ x.depth = 1 ∧
      r.2.error.Identifies r.1 r.2.buffer.data x.size x.place x.depth := by
  intro r
  obtain ⟨x, hx, hunique, hiff⟩ := @lastError_identifies_iff Unit limitsDefault Callbacks.null
    (fun _ event => by cases event <;> rfl)
    () (Stream'.const true) [] ⟨unknownNested, true⟩ []
      ⟨⟨rfl, by decide +kernel, by decide +kernel⟩, by decide +kernel⟩
  have hdata : r.2.buffer.data = unknownNested := by decide +kernel
  set children := unknownHead.bytes [] ++ [] with hchildren
  set place := Forest.childOffset ⟨RecordType.group.code, 0, 3, 0, 0⟩ children.length 72 with hplace
  set before := (fileStart.notify (headEvent ⟨RecordType.group.code, 0, 3, 0,
    0⟩ (20 + children.length) 72 0)).2 with hbefore
  have hopened : Opened unknownNested limitsDefault unknownNested.length 72 0
      ⟨RecordType.group.code, 0, 3, 0, 0⟩ ⟨1, 0, 0⟩ children :=
    ⟨⟨by decide, by decide +kernel, by decide +kernel⟩, rfl,
      by unfold admits; decide, by decide +kernel, by decide +kernel⟩
  have htype : joinU16 (slice unknownNested place 2) = 0x7000 := by decide +kernel
  -- the loop over the children stops at the record
  have hstops : Stopped (recordStep (parseRecords unknownNested) unknownNested
      (place + children.length) place (UInt8.ofNat 1) before) = true := by
    decide +kernel
  cases hstep : recordStep (parseRecords unknownNested) unknownNested (place + children.length)
    place (UInt8.ofNat 1) before with
  | more | go =>
    rw [hstep] at hstops
    cases hstops
  | stop q =>
    have hrefused : RefusedAt unknownNested ⟨place, place + children.length, 1,
        before⟩ unknownNested.length 72 0 fileStart :=
      .inside hopened (by decide +kernel) (.here (stops_of_type_ne (by rw [htype]; decide) hstep))
    obtain rfl := hunique _ (hdata ▸ hrefused)
    refine ⟨_, hx, rfl, hiff.mpr ⟨by decide, ?_⟩⟩
    rintro ⟨h, payload, hf, href⟩
    have hfirst := (joinU16_of_lies hf.lies).trans href.type
    rw [show ((decoderInit (some limitsDefault) Callbacks.null () (Stream'.const true)
      (Stream'.const true)).feeds []).feed
      ⟨unknownNested, true⟩ = r from rfl, hdata, htype] at hfirst
    revert hfirst
    decide

/-- In the group the second declaration is reported at depth 0. -/
theorem declaredTwice_not_identified :
    let d :=
      decoderInit (some limitsDefault) Callbacks.null () (Stream'.const true) (Stream'.const true)
    let r := d.feed ⟨declaredTwice, true⟩
    d.Refuses ⟨declaredTwice, true⟩ ∧ r.1 = .format ∧
      r.2.error.recordType = RecordType.streamDesc.code ∧ r.2.error.depth = 0 ∧
      ∀ x, RefusedAt r.2.buffer.data x r.2.buffer.data.length 72 0 fileStart →
        ¬ r.2.error.Identifies r.1 r.2.buffer.data x.size x.place x.depth := by
  intro d r
  have hdata : r.2.buffer.data = declaredTwice := by decide +kernel
  have htype : r.2.error.recordType = RecordType.streamDesc.code := by decide +kernel
  have hdepth : r.2.error.depth = 0 := by decide +kernel
  have hstops : Stopped (recordStep (parseRecords declaredTwice) declaredTwice declaredTwice.length
      72 (UInt8.ofNat 0) fileStart) = true := by
    decide +kernel
  refine ⟨⟨⟨rfl, by decide +kernel, by decide +kernel⟩, by decide +kernel⟩,
    by decide +kernel, htype, hdepth, fun x hx hid => ?_⟩
  rw [hdata] at hx hid
  have hzero : 0 = x.depth := by
    have h := hid.depth
    rw [hdepth] at h
    exact h
  cases hx with
  | here =>
    have hfirst := htype.symm.trans hid.type
    revert hfirst
    decide +kernel
  | inside _ _ hin =>
    have hle := hin.depth_le
    omega
  | next hgo =>
    rw [hgo] at hstops
    cases hstops

end Tide
