import Tide.Format.Once

/-!
# How deep the decoder goes

The decoder counts the groups around a record in eight bits, and compares that count with
`max_depth`, which has thirty-two. `Reaches` says of the bytes that a record in so many
groups is come to: what is before it is well formed, and the groups around it are opened.

The depth that is announced is the number of groups, and no record in more than
`max_depth` groups is announced or parsed, if and only if `max_depth` is at most 255 or
no record in 256 groups is come to (`parseTideBytes_depth_iff`).
-/

namespace Tide

open Theory

variable {σ : Type}

/-- A group that is opened: its record lies there, its metadata is right, and the depth is
below the limit. -/
structure Opened (data : Bytes) (limits : Limits) (size offset depth : ℕ) (h : RecordHead)
    (m : GroupMeta) (children : Bytes) : Prop where
  head : HeadOk limits h (20 + children.length)
  type : h.type = RecordType.group.code
  admits : admits limits depth
  lies : Lies data offset (h.bytes (groupPayload m children))
  le : offset + h.size (20 + children.length) ≤ size

/-- **A record in `k` groups is come to**, from a place that is in `depth` groups: it lies there
itself, or in a group that is opened, or behind a record that is well formed. -/
inductive Reaches (data : Bytes) (limits : Limits) (k : ℕ) :
    (size offset depth : ℕ) → List TrackSnapshot → Prop where
  | here {size offset : ℕ} {ts : List TrackSnapshot} {h : RecordHead} {payload : Bytes}
      (hhead : HeadOk limits h payload.length)
      (hl : Lies data offset (h.bytes payload)) (hle : offset + h.size payload.length ≤ size) :
      Reaches data limits k size offset k ts
  | inside {size offset depth : ℕ} {ts : List TrackSnapshot} {h : RecordHead} {m : GroupMeta}
      {children : Bytes}
      (ho : Opened data limits size offset depth h m children)
      (hin : Reaches data limits k (Forest.childOffset h children.length offset + children.length)
        (Forest.childOffset h children.length offset) (depth + 1) ts) :
          Reaches data limits k size offset depth ts
  | next {size offset depth : ℕ} {ts : List TrackSnapshot} {record : Forest} (hr : record.IsRecord)
      (hv : record.Valid limits (admits limits) depth (data.take offset) ts)
        (hl : Lies data offset record.bytes)
      (hle : offset + record.bytes.length ≤ size)
      (hrest : Reaches data limits k size (offset + record.bytes.length) depth
        (ts ++ record.tracks)) :
      Reaches data limits k size offset depth ts

section

variable {I : σ → Prop} {data : Bytes} {size offset : ℕ} {p : Parsing σ}

/-- The loop at a record that lies there: it is processed, and the loop goes on behind it. -/
theorem parseRecords_framed (depth : ℕ) (hsize : size ≤ data.length) (hmax : size ≤ sizeMax)
    (hoff : 72 ≤ offset) {h : RecordHead} {payload : Bytes}
    (hhead : HeadOk p.limits h payload.length) (hl : Lies data offset (h.bytes payload))
    (hle : offset + h.size payload.length ≤ size) {r : Status × Parsing σ}
    (hr : processRecord (parseRecords data) data (h.frameAt offset payload.length
      (UInt8.ofNat depth)) p = r) :
    (r.1 ≠ .ok ∧ recordStep (parseRecords data) data size offset (UInt8.ofNat depth) p = .stop r ∧
        parseRecords data offset size (UInt8.ofNat depth) p = r) ∨
      r.1 = .ok ∧ recordStep (parseRecords data) data size offset (UInt8.ofNat depth) p =
          .go (offset + h.size payload.length)
            { r.2 with validPrefix := offset + h.size payload.length } ∧
        parseRecords data offset size (UInt8.ofNat depth) p =
          parseRecords data (offset + h.size payload.length) size (UInt8.ofNat depth)
            { r.2 with validPrefix := offset + h.size payload.length } := by
  have hge := h.size_ge payload.length
  have hstep := recordStep_framed (parseRecords data) (UInt8.ofNat depth) p hsize hmax hoff hhead
    hl hle
  rw [hr] at hstep
  by_cases hok : r.1 = .ok
  · rcases r with ⟨st, q⟩
    subst hok
    refine .inr ⟨rfl, hstep, ?_⟩
    rw [parseRecords_eq data hmax, if_pos (by omega), hstep]
    rfl
  · rw [closeRecord_of_ne hok] at hstep
    refine .inl ⟨hok, hstep, ?_⟩
    rw [parseRecords_eq data hmax, if_pos (by omega), hstep]

/-- **What is announced is come to.** -/
theorem visits_reaches (level : ℕ) (hc : p.Calm I) (herr : p.error.code = .ok) (hle : offset ≤ size)
    (hsize : size ≤ data.length) (hmax : size ≤ sizeMax) (hoff : 72 ≤ offset) :
    ∃ ds waits, Visits data level offset size p
      (parseRecords data offset size (UInt8.ofNat level) p) ds waits ∧
      ∀ d ∈ ds, Reaches data p.limits d.level size offset level p.tracks := by
  induction hn : size - offset using Nat.strongRecOn generalizing size offset level p with
  | ind n ih =>
    subst hn
    by_cases hlt : offset < size
    swap
    · obtain rfl : offset = size := by omega
      obtain ⟨ds, hv⟩ := parseRecords_visits level p herr hle hsize hmax
      refine ⟨ds, _, hv, fun d hd => ?_⟩
      have hf := hv.heard.found d hd
      have hlo := hf.lo_le
      have hhi := hf.le_hi
      have hge := d.head.size_ge d.payload.length
      omega
    obtain hmore | ⟨e, he, hstop⟩ | ⟨h, payload, hhead, hl, hend, -, -⟩ :=
      recordStep_cases (parseRecords data) (UInt8.ofNat level) p hsize hmax
    · rw [parseRecords_eq data hmax, if_pos hlt, hmore]
      exact ⟨[], True, ⟨.nil, rfl, rfl, rfl, fun _ => rfl, .inl ⟨trivial, fun _ => trivial⟩⟩,
        by simp⟩
    · rw [parseRecords_eq data hmax, if_pos hlt, hstop]
      exact ⟨[], True, ⟨.nil, rfl, rfl, rfl, fun h => absurd h (not_or.mpr ⟨he.1, he.2.2⟩),
        .inl ⟨trivial, fun _ => trivial⟩⟩, by simp⟩
    have hge := h.size_ge payload.length
    have hhere : Reaches data p.limits level size offset level p.tracks := .here hhead hl hend
    have hf : Found data p.limits offset (offset + h.size payload.length) offset h payload :=
      ⟨Nat.le_refl _, Nat.le_refl _, hhead, hl⟩
    have hparse : h.type = RecordType.group.code →
        (∃ m children, payload = groupPayload m children) → admits p.limits level →
        ∃ dc waits, Visits data (level + 1) (offset + h.headerSize payload.length + 20)
            (offset + h.headerSize payload.length + payload.length)
            (p.notify (headEvent h payload.length offset level)).2
            (parseRecords data (offset + h.headerSize payload.length + 20)
              (offset + h.headerSize payload.length + payload.length) (UInt8.ofNat (level + 1))
              (p.notify (headEvent h payload.length offset level)).2) dc waits ∧
          ∀ d ∈ dc, Reaches data p.limits d.level size offset level p.tracks := by
      rintro ht ⟨m, children, rfl⟩ hadm
      have hchildren := hf.children_le
      have hlen := length_groupPayload m children
      obtain ⟨dc, waits, hv, hreach⟩ := ih children.length (by omega) (level + 1)
        ((Parsing.follows_notify p (headEvent h (groupPayload m children).length offset level)).calm
          hc) herr
        (show offset + h.headerSize (groupPayload m children).length + 20 ≤
          offset + h.headerSize (groupPayload m children).length +
            (groupPayload m children).length by omega)
        (by omega) (by omega) (by omega) (by omega)
      refine ⟨dc, waits, hv, fun d hd => .inside ⟨?_, ht, hadm, hl, ?_⟩ ?_⟩
      · rwa [hlen] at hhead
      · rwa [hlen] at hend
      · have hrd := hreach d hd
        rw [hlen, ← Nat.add_assoc _ 20] at hrd
        exact hrd
    obtain ⟨tail, hrec, htail⟩ := processRecord_visits herr hf hparse
    have hmine : ∀ d ∈ announcement level offset h payload :: tail,
        Reaches data p.limits d.level size offset level p.tracks := by
      intro d hd
      rcases List.mem_cons.mp hd with rfl | hd
      · exact hhere
      · rcases htail d hd with hlevel | hreach
        · rw [hlevel]
          exact hhere
        · exact hreach
    obtain ⟨hne, -, hstop⟩ | ⟨hok, hgo, hloop⟩ :=
      parseRecords_framed level hsize hmax hoff hhead hl hend rfl
    · rw [hstop]
      exact ⟨_, False, hrec.extend hend, hmine⟩
    -- the record that is passed over is well formed
    obtain hmore | ⟨r, hstop, -⟩ | ⟨record, p', hr, hpass, hgo'⟩ :=
      recordStep_round level hsize hmax hc hoff
    · rw [hgo] at hmore
      cases hmore
    · rw [hgo] at hstop
      cases hstop
    rw [hgo] at hgo'
    obtain ⟨hnext, rfl⟩ := Move.go.inj hgo'
    have hfol := hpass.follows
    obtain ⟨ds', waits, hrest, hreach⟩ := ih (size - (offset + h.size payload.length))
      (by omega) level (hfol.calm hc)
      ((congrArg Error.code hfol.error).trans herr) hend hsize hmax (by omega) rfl
    rw [hloop]
    refine ⟨_, waits, hrec.append hok (Nat.le_add_right ..) hend rfl hrest, fun d hd => ?_⟩
    rcases List.mem_append.mp hd with hd | hd
    · exact hmine d hd
    · have hrd := hreach d hd
      rw [hfol.limits, hfol.tracks, hnext] at hrd
      exact .next hr hpass.valid hpass.lies hpass.le hrd

/-- What is delivered of a record begins with its announcement. -/
theorem visits_record (level : ℕ) {lo hi : ℕ} {h : RecordHead} {payload : Bytes}
    (herr : p.error.code = .ok) (hsize : hi ≤ data.length) (hmax : hi ≤ sizeMax)
    (hf : Found data p.limits lo hi offset h payload) :
    ∃ tail, Visits data level lo hi p
      (processRecord (parseRecords data) data (h.frameAt offset payload.length
        (UInt8.ofNat level)) p)
      (announcement level offset h payload :: tail) False := by
  have hparse : h.type = RecordType.group.code → (∃ m children, payload = groupPayload m children) →
      admits p.limits level →
      ∃ dc waits, Visits data (level + 1) (offset + h.headerSize payload.length + 20)
          (offset + h.headerSize payload.length + payload.length)
          (p.notify (headEvent h payload.length offset level)).2
          (parseRecords data (offset + h.headerSize payload.length + 20)
            (offset + h.headerSize payload.length + payload.length) (UInt8.ofNat (level + 1))
            (p.notify (headEvent h payload.length offset level)).2) dc waits ∧
        ∀ d ∈ dc, True := by
    rintro - ⟨m, children, hm⟩ -
    have hlen := congrArg List.length hm
    have hchildren := hf.children_le
    rw [length_groupPayload] at hlen
    obtain ⟨dc, hv⟩ := parseRecords_visits (level + 1)
      (p.notify (headEvent h payload.length offset level)).2 herr
      (show offset + h.headerSize payload.length + 20 ≤ offset + h.headerSize payload.length +
        payload.length by omega)
      (hchildren.trans hsize) (hchildren.trans hmax)
    exact ⟨dc, _, hv, fun _ _ => trivial⟩
  obtain ⟨tail, hrec, -⟩ := processRecord_visits herr hf hparse
  exact ⟨tail, hrec⟩

/-- The loop delivers what is delivered of the first record, and more. -/
theorem visits_behind {level : ℕ} {h : RecordHead} {payload : Bytes} {ds : List Delivery}
    (herr : p.error.code = .ok) (hsize : size ≤ data.length) (hmax : size ≤ sizeMax)
    (hoff : 72 ≤ offset) (hf : Found data p.limits offset size offset h payload)
    (hrec : Visits data level offset (offset + h.size payload.length) p
      (processRecord (parseRecords data) data (h.frameAt offset payload.length (UInt8.ofNat level))
        p) ds False) :
    ∃ ds' waits, Visits data level offset size p (parseRecords data offset size (UInt8.ofNat level)
      p) (ds ++ ds') waits := by
  obtain ⟨-, -, hstop⟩ | ⟨hok, -, hloop⟩ :=
    parseRecords_framed level hsize hmax hoff hf.head hf.lies hf.le_hi rfl
  · rw [hstop]
    exact ⟨[], False, by rw [List.append_nil]; exact hrec.extend hf.le_hi⟩
  · have herr' := (hrec.allOk hok).2
    rw [hloop]
    obtain ⟨ds', hrest⟩ := parseRecords_visits level
      { (processRecord (parseRecords data) data (h.frameAt offset payload.length
        (UInt8.ofNat level)) p).2 with
        validPrefix := offset + h.size payload.length }
      ((congrArg Error.code herr').trans herr) hf.le_hi hsize hmax
    exact ⟨ds', _, hrec.append hok (Nat.le_add_right ..) hf.le_hi rfl hrest⟩

/-- **What is come to is announced.** -/
theorem Reaches.announced {limits : Limits} {k depth : ℕ} {ts : List TrackSnapshot}
    (h : Reaches data limits k size offset depth ts) {p : Parsing σ} (hc : p.Calm I)
    (herr : p.error.code = .ok) (hlimits : p.limits = limits) (htracks : p.tracks = ts)
    (hsize : size ≤ data.length) (hmax : size ≤ sizeMax) (hoff : 72 ≤ offset) :
    ∃ ds waits, Visits data depth offset size p
      (parseRecords data offset size (UInt8.ofNat depth) p) ds waits ∧
      ∃ offset' h payload, announcement k offset' h payload ∈ ds := by
  induction h generalizing p with
  | @here size offset ts h payload hhead hl hle =>
    subst hlimits
    have hf : Found data p.limits offset size offset h payload := ⟨Nat.le_refl _, hle, hhead, hl⟩
    obtain ⟨tail, hrec⟩ := visits_record k herr (hle.trans hsize) (hle.trans hmax) ⟨Nat.le_refl _,
      Nat.le_refl _, hhead, hl⟩
    obtain ⟨ds', waits, hv⟩ := visits_behind herr hsize hmax hoff hf hrec
    exact ⟨_, waits, hv, offset, h, payload, by simp⟩
  | @inside size offset depth ts h m children ho hin ih =>
    subst hlimits
    have hlen := length_groupPayload m children
    have hhead := ho.head
    have hle := ho.le
    have hge := h.size_ge (groupPayload m children).length
    rw [← hlen] at hhead hle
    have hf : Found data p.limits offset size offset h (groupPayload m children) :=
      ⟨Nat.le_refl _, hle, hhead, ho.lies⟩
    have hchildren := hf.children_le
    have hfol := Parsing.follows_notify p
      (headEvent h (groupPayload m children).length offset depth)
    have hco : Forest.childOffset h children.length offset = offset +
        h.headerSize (groupPayload m children).length + 20 := by
      rw [Forest.childOffset, hlen]
    have hce : Forest.childOffset h children.length offset + children.length =
        offset + h.headerSize (groupPayload m children).length + (groupPayload m children).length :=
          by omega
    obtain ⟨dc, waits, hv, hmem⟩ := ih (hfol.calm hc) herr rfl htracks (by omega) (by omega)
      (by omega)
    rw [hce, hco] at hv
    obtain ⟨-, -, hproc⟩ | ⟨hno, -⟩ := processRecord_group hc (parseRecords data)
      (h.lies_payload ho.lies) hf.payload_le ho.type
    swap; · exact absurd ⟨⟨m, children, rfl⟩, ho.admits⟩ hno
    have hf' : Found data p.limits offset (offset + h.size (groupPayload m children).length) offset
        h (groupPayload m children) :=
      ⟨Nat.le_refl _, Nat.le_refl _, hhead, ho.lies⟩
    have hrec := visits_group hf' ho.type ho.admits (hc.call _ _ hc.user).1
      (h.frameAt offset (groupPayload m children).length (UInt8.ofNat depth)) hv
    rw [← depth_succ] at hrec
    obtain ⟨ds', waits', hv'⟩ := visits_behind herr hsize hmax hoff hf (by rw [hproc]; exact hrec)
    obtain ⟨offset', h', payload', hmem⟩ := hmem
    exact ⟨_, waits', hv', offset', h', payload', by simp [hmem]⟩
  | @next size offset depth ts record hr hv hl hle hrest ih =>
    subst hlimits htracks
    obtain ⟨p', hfol, hgo'⟩ := recordStep_record hr hsize hmax hc hoff hv hl hle
    obtain ⟨h, payload, hbytes, hhead⟩ := hr.head hv
    have hlen := h.length_bytes payload
    have hge := h.size_ge payload.length
    rw [hbytes, hlen] at hle hgo' ih
    rw [hbytes] at hl
    obtain ⟨tail, hrec⟩ := visits_record depth herr (hle.trans hsize) (hle.trans hmax)
      ⟨Nat.le_refl _, Nat.le_refl _, hhead, hl⟩
    obtain ⟨-, hstop, -⟩ | ⟨hok, hgo, hloop⟩ :=
      parseRecords_framed depth hsize hmax hoff hhead hl hle rfl
    · rw [hstop] at hgo'
      cases hgo'
    rw [hgo] at hgo'
    obtain ⟨-, rfl⟩ := Move.go.inj hgo'
    obtain ⟨ds', waits, hrest, offset', h', payload', hmem⟩ :=
      ih (hfol.calm hc) ((congrArg Error.code hfol.error).trans herr) hfol.limits hfol.tracks hsize
        hmax (by omega)
    rw [hloop]
    exact ⟨_, waits, hrec.append hok (Nat.le_add_right ..) hle rfl hrest, offset', h', payload',
      List.mem_append_right _ hmem⟩

/-! ### What is parsed -/

/-- `tide_parse_records`, with `other` in its place for the records that are in more than
`levels` groups. -/
def parseRecordsTo (other : ParseRecords σ) : (fuel levels : ℕ) → Bytes → ParseRecords σ
  | 0, _, _, _, _, _, p => (.internal, p)
  | fuel + 1, levels, data, cursor, size, depth, p =>
    if cursor < size then
      match recordStep (if levels = 0 then other else parseRecordsTo other fuel (levels - 1) data)
        data size cursor depth p with
      | .more => (.truncated, { p with validPrefix := cursor })
      | .stop r => r
      | .go next p => parseRecordsTo other fuel levels data next size depth p
    else if cursor ≠ size then p.fail (parseError .format cursor 0 depth "record boundary mismatch")
    else (.ok, p)

/-- What is done with a group depends on the loop if it is opened. -/
theorem processGroup_congr_opened {parse parse' : ParseRecords σ} {payload : Bytes}
    {frame : RecordFrame} (hlen : frame.payloadEnd - frame.payloadOffset = payload.length)
    (hmax : payload.length ≤ sizeMax) (p : Parsing σ)
    (hp : (∃ m children, payload = groupPayload m children) →
      frame.depth.toNat < p.limits.maxDepth.toNat →
        parse (frame.payloadOffset + 20) frame.payloadEnd (frame.depth + 1) p =
          parse' (frame.payloadOffset + 20) frame.payloadEnd (frame.depth + 1) p) :
    processGroup parse payload frame p = processGroup parse' payload frame p := by
  unfold processGroup
  rw [hlen]
  by_cases h20 : payload.length < 20
  · rw [if_pos h20, if_pos h20]
  rw [if_neg h20, if_neg h20]
  cases hrun : readGroup.run (readerInit payload) with
  | none => rfl
  | some x =>
    dsimp only
    by_cases hn : x.1.toNat = payload.length - 20
    swap
    · rw [if_pos hn, if_pos hn]
    rw [if_neg (not_not.mpr hn), if_neg (not_not.mpr hn)]
    by_cases hd : frame.depth.toNat ≥ p.limits.maxDepth.toNat
    · rw [if_pos hd, if_pos hd]
    · rw [if_neg hd, if_neg hd, hp ((readGroup_iff (Nat.not_lt.mp h20) hmax).mp ⟨_, _, hrun, hn⟩)
        (Nat.not_le.mp hd)]

/-- What is done with a record depends on the loop if it is a group that is opened. -/
theorem processRecord_congr_opened {parse parse' : ParseRecords σ} (depth : ℕ) (p : Parsing σ)
    {h : RecordHead} {payload : Bytes} (hf : Found data p.limits offset size offset h payload)
    (hp : ∀ m children, payload = groupPayload m children →
      Opened data p.limits size offset depth h m children →
        parse (offset + h.headerSize payload.length + 20)
          (offset + h.headerSize payload.length + payload.length) (UInt8.ofNat (depth + 1))
            (p.notify (headEvent h payload.length offset depth)).2 =
              parse' (offset + h.headerSize payload.length + 20)
                (offset + h.headerSize payload.length + payload.length) (UInt8.ofNat (depth + 1))
                  (p.notify (headEvent h payload.length offset depth)).2) :
    processRecord parse data (h.frameAt offset payload.length (UInt8.ofNat depth)) p =
      processRecord parse' data (h.frameAt offset payload.length (UInt8.ofNat depth)) p := by
  have hslice : slice data (h.frameAt offset payload.length (UInt8.ofNat depth)).payloadOffset
      ((h.frameAt offset payload.length (UInt8.ofNat depth)).payloadEnd -
        (h.frameAt offset payload.length (UInt8.ofNat depth)).payloadOffset) = payload :=
    (slice_frameAt ..).trans (h.lies_payload hf.lies)
  have hlen : (h.frameAt offset payload.length (UInt8.ofNat depth)).payloadEnd -
      (h.frameAt offset payload.length (UInt8.ofNat depth)).payloadOffset = payload.length := by
    simp only [RecordHead.frameAt, Nat.add_sub_cancel_left]
  unfold processRecord
  rw [hslice]
  dsimp only
  by_cases hskip : skippable (h.frameAt offset payload.length (UInt8.ofNat depth)).type = true
  · rw [if_pos hskip, if_pos hskip]
  rw [if_neg hskip, if_neg hskip]
  by_cases hok : (p.notify
    (.record (h.frameAt offset payload.length (UInt8.ofNat depth)).event)).1 = .ok
  swap
  · rw [andThen_of_ne hok, andThen_of_ne hok]
  rw [show p.notify (.record (h.frameAt offset payload.length (UInt8.ofNat depth)).event) =
    (.ok, (p.notify (headEvent h payload.length offset depth)).2) from Prod.ext hok rfl, andThen_ok,
      andThen_ok]
  cases hrt : recordTypeOf (h.frameAt offset payload.length (UInt8.ofNat depth)).type with
  | none => rfl
  | some t =>
    cases t with
    | group =>
      refine processGroup_congr_opened hlen hf.payload_le _ fun hgroup hdepth => ?_
      obtain ⟨m, children, hm⟩ := hgroup
      rw [show (h.frameAt offset payload.length (UInt8.ofNat depth)).depth + 1 =
        UInt8.ofNat (depth + 1) from depth_succ depth]
      have hhead := hf.head
      have hle := hf.le_hi
      have hl := hf.lies
      rw [hm] at hl
      rw [hm, length_groupPayload] at hhead hle
      exact hp m children hm ⟨hhead, (recordTypeOf_eq_some_iff ..).mp hrt, hdepth, hl, hle⟩
    | _ => rfl

/-- What a round does depends on the loop if it opens a group. -/
theorem recordStep_congr_opened {parse parse' : ParseRecords σ} (depth : ℕ) (p : Parsing σ)
    (hsize : size ≤ data.length) (hmax : size ≤ sizeMax)
    (hp : ∀ h m children, Opened data p.limits size offset depth h m children →
      parse (Forest.childOffset h children.length offset)
        (Forest.childOffset h children.length offset + children.length) (UInt8.ofNat (depth + 1))
          (p.notify (headEvent h (20 + children.length) offset depth)).2 =
            parse' (Forest.childOffset h children.length offset)
              (Forest.childOffset h children.length offset + children.length)
                (UInt8.ofNat (depth + 1))
                  (p.notify (headEvent h (20 + children.length) offset depth)).2) :
    recordStep parse data size offset (UInt8.ofNat depth) p = recordStep parse' data size offset
      (UInt8.ofNat depth) p := by
  unfold recordStep
  cases hdec : decodeRecordPrefix data size offset (UInt8.ofNat depth) with
  | truncated => rfl
  | rejected e => rfl
  | frame f =>
    dsimp only
    by_cases hlimits : f.payloadSize > p.limits.maxPayloadSize ∨
      f.crcEnd - f.offset > p.limits.maxRecordSize.toNat
    · rw [if_pos hlimits, if_pos hlimits]
    rw [if_neg hlimits, if_neg hlimits]
    cases hint : validateRecordIntegrity data f with
    | error e => rfl
    | ok u =>
      obtain ⟨h, payload, ha, hfit, hl, hle, rfl⟩ := (framed_iff hsize hmax).mp ⟨hdec, hint⟩
      rw [not_or, UInt64.not_lt, UInt64.le_iff_toNat_le] at hlimits
      simp only [RecordHead.frameAt, h.toNat_payloadSize hfit] at hlimits
      have hf : Found data p.limits offset size offset h payload :=
        ⟨Nat.le_refl _, hle, ⟨ha, hlimits.1, by omega⟩, hl⟩
      rw [processRecord_congr_opened depth p hf]
      rintro m children rfl ho
      have hchild := hp h m children ho
      rwa [Forest.childOffset, ← length_groupPayload m, Nat.add_assoc _ 20,
        ← length_groupPayload m] at hchild

/-- **No loop below `max_depth`**: the records in more than `max_depth` groups are not parsed, if
the count of the groups is right, or no record is come to where it is not. -/
theorem parseRecordsTo_eq (other : ParseRecords σ) {fuel levels depth : ℕ} (hc : p.Calm I)
    (hfuel : size - offset < fuel) (hlevels : p.limits.maxDepth.toNat = depth + levels)
    (hcount : p.limits.maxDepth.toNat ≤ 255 ∨ depth ≤ 256 ∧
      ¬ Reaches data p.limits 256 size offset depth p.tracks)
    (hsize : size ≤ data.length) (hmax : size ≤ sizeMax) (hoff : 72 ≤ offset) :
    parseRecordsTo other fuel levels data offset size (UInt8.ofNat depth) p =
      parseRecords data offset size (UInt8.ofNat depth) p := by
  induction fuel generalizing levels depth size offset p with
  | zero => omega
  | succ fuel ih =>
    rw [parseRecordsTo, parseRecords_eq data hmax]
    by_cases hlt : offset < size
    swap
    · rw [if_neg hlt, if_neg hlt]
    have hstep : recordStep (if levels = 0 then other
        else parseRecordsTo other fuel (levels - 1) data) data size offset (UInt8.ofNat depth) p =
          recordStep (parseRecords data) data size offset (UInt8.ofNat depth) p := by
      refine recordStep_congr_opened depth p hsize hmax fun h m children ho => ?_
      have hlen := length_groupPayload m children
      have hdepth : depth ≤ 255 := by
        rcases hcount with hle | ⟨hle, hno⟩
        · omega
        · by_contra hgt
          obtain rfl : depth = 256 := by omega
          exact hno (.here (by rw [hlen]; exact ho.head) ho.lies (by rw [hlen]; exact ho.le))
      have hadm := ho.admits
      rw [admits, UInt8.toNat_ofNat_of_lt' (by change depth < 256; omega)] at hadm
      have hle := ho.le
      have hge := h.size_ge (20 + children.length)
      have hinside := Forest.children_inside h children.length offset
      rw [if_neg (by omega)]
      refine ih ((Parsing.follows_notify p _).calm hc) (by omega) ?_ ?_ (by omega) (by omega)
        (by omega)
      · change p.limits.maxDepth.toNat = _
        omega
      · refine hcount.imp_right fun hno => ⟨by omega, fun hreach => hno.2 (.inside ho hreach)⟩
    rw [if_pos hlt, if_pos hlt, hstep]
    obtain hmore | ⟨r, hstop, -⟩ | ⟨record, p', hr, hpass, hgo⟩ :=
      recordStep_round depth hsize hmax hc hoff
    · rw [hmore]
    · rw [hstop]
    · rw [hgo]
      have hpos := hr.length_pos
      have hfol := hpass.follows
      refine ih (hfol.calm hc) (by omega) (by rw [hfol.limits]; exact hlevels) ?_ hsize hmax
        (by omega)
      rw [hfol.limits, hfol.tracks]
      exact hcount.imp_right fun hno =>
        ⟨hno.1, fun hreach => hno.2 (.next hr hpass.valid hpass.lies hpass.le hreach)⟩

/-- Before a record in `k` groups is come to, records in fewer are. -/
theorem Reaches.mono {limits : Limits} {j k depth : ℕ} {ts : List TrackSnapshot}
    (h : Reaches data limits k size offset depth ts) (hj : depth ≤ j) (hk : j ≤ k) :
    Reaches data limits j size offset depth ts := by
  induction h with
  | here hhead hl hle =>
    obtain rfl := Nat.le_antisymm hk hj
    exact .here hhead hl hle
  | @inside size offset depth ts h m children ho _ ih =>
    rcases Nat.eq_or_lt_of_le hj with rfl | hlt
    · have hlen := length_groupPayload m children
      exact .here (by rw [hlen]; exact ho.head) ho.lies (by rw [hlen]; exact ho.le)
    · exact .inside ho (ih hlt)
  | next hr hv hl hle _ ih => exact .next hr hv hl hle (ih hj)

/-- With a limit that the count can reach, no record is in more groups. -/
theorem Heard.level_le_maxDepth {limits : Limits} {level lo hi : ℕ} {ts ts' : List TrackSnapshot}
    {ds : List Delivery} (h : Heard data limits level lo hi ts ds ts')
    (hmax : limits.maxDepth.toNat ≤ 255) (hlevel : level ≤ limits.maxDepth.toNat) :
    ∀ d ∈ ds, d.level ≤ limits.maxDepth.toNat := by
  induction h with
  | nil => simp
  | record _ _ ih => exact List.forall_mem_cons.mpr ⟨hlevel, ih hlevel⟩
  | stream _ _ _ _ _ ih | packet _ _ _ _ _ ih =>
    exact List.forall_mem_cons.mpr ⟨hlevel, List.forall_mem_cons.mpr ⟨hlevel, ih hlevel⟩⟩
  | @group level _ _ _ _ _ _ _ _ _ _ _ _ hadm _ _ ihc ih =>
    rw [admits, UInt8.toNat_ofNat_of_lt' (by change level < 256; omega)] at hadm
    exact List.forall_mem_cons.mpr ⟨hlevel, List.forall_mem_append.mpr ⟨ihc hadm, ih hlevel⟩⟩

end

/-! ### The parser -/

/-- `tide_parse_tide_bytes`, with `other` in the place of `tide_parse_records` for the records
that are in more than `levels` groups. -/
def parseTideBytesTo (other : ParseRecords σ) (levels : ℕ) (data : Bytes) (finish : Bool)
    (limits : Option Limits) (callbacks : Callbacks σ) (user : σ)
    (allocs : Stream' Bool) : Status × Parsing σ :=
  let p := Parsing.start limits callbacks user allocs
  match validateHeader data p.limits with
  | .error e => (atEnd finish e.code, { p with error := e })
  | .ok () =>
    let r := parseRecordsTo other (data.length - 72 + 1) levels data 72 data.length 0
      { p with validPrefix := 72 }
    (atEnd finish r.1, r.2)

/-- The depth that is announced is the number of groups around the record, and that is no
more than `max_depth`. -/
def DepthsTold (limits : Limits) (events : List Event) : Prop :=
  EachBehind (fun before e => ∀ record, e = .record record →
    record.depth.toNat = enclosing before record.offset ∧
      enclosing before record.offset ≤ limits.maxDepth.toNat) events

section

variable {data : Bytes} {limits : Limits} {lo hi : ℕ} {ts ts' : List TrackSnapshot}
    {ds : List Delivery}

/-- The depths are told if no level is beyond the count. -/
theorem Heard.depthsTold (h : Heard data limits 0 lo hi ts ds ts')
    (hlevels : ∀ d ∈ ds, d.level ≤ 255 ∧ d.level ≤ limits.maxDepth.toNat) :
    DepthsTold limits (eventsOf ds) := by
  rw [DepthsTold, eventsOf, eachBehind_map]
  refine h.levels.imp fun pre d _ hd hlevel record hrecord => ?_
  obtain ⟨hle, hbound⟩ := hlevels d hd
  have hg := h.genuine d hd
  rw [Delivery.Genuine, hrecord] at hg
  have hoffset : record.offset = d.offset := by rw [hg]; rfl
  have hdepth : record.depth = UInt8.ofNat d.level := by rw [hg]; rfl
  rw [hoffset, hdepth, UInt8.toNat_ofNat_of_lt' (by change d.level < 256; omega)]
  rw [Nat.zero_add] at hlevel
  exact ⟨hlevel.symm, by rw [← eventsOf, hlevel]; exact hbound⟩

/-- The depths are not told if the count is passed. -/
theorem Heard.not_depthsTold (h : Heard data limits 0 lo hi ts ds ts') {offset : ℕ} {r : RecordHead}
    {payload : Bytes} (hmem : announcement 256 offset r payload ∈ ds) :
    ¬ DepthsTold limits (eventsOf ds) := by
  intro htold
  obtain ⟨pre, post, rfl⟩ := List.append_of_mem hmem
  have hlevel : 0 + enclosing (eventsOf pre) offset = 256 := h.levels pre _ post rfl
  have heq := (htold (eventsOf pre) _ (eventsOf post) (by rw [eventsOf_append]; rfl) _ rfl).1
  rw [Nat.zero_add] at hlevel
  exact absurd (heq.symm.trans (show _ = 0 from rfl)) (by
    change ¬ enclosing (eventsOf pre) offset = 0
    omega)

end

/-- A record in `k` groups is come to in a file. -/
def FileReaches (B : Bytes) (L : Limits) (k : ℕ) : Prop :=
  validateHeader B L = .ok () ∧ Reaches B L k B.length 72 0 []

section

variable {B : Bytes} {L : Limits} {callbacks : Callbacks σ} {heard : σ → List Event} {user : σ}

theorem Callbacks.Answers.calm (hcb : callbacks.Answers heard fun _ _ => .ok)
    (limits : Option Limits) (user : σ) :
    (Parsing.start limits callbacks user (Stream'.const true)).Calm fun _ => True :=
  ⟨fun u e _ => ⟨(hcb.call u e).1, trivial⟩, trivial, rfl⟩

/-- The client has heard the deliveries of the loop. -/
theorem Visits.heard_eq {data : Bytes} {level lo hi : ℕ} {r : Status × Parsing σ}
    {ds : List Delivery} {waits : Prop} {p : Parsing σ} (hv : Visits data level lo hi p r ds waits)
    {answer : List Event → Event → Status} (hcb : p.callbacks.Answers heard answer) :
    heard r.2.user = heard p.user ++ eventsOf ds := by
  rw [hv.user, hcb.deliver, eventsOf]

/-- If a record in 256 groups is come to, the depths are not told. -/
theorem FileReaches.not_depthsTold (hB : B.length ≤ sizeMax)
    (hcb : callbacks.Answers heard fun _ _ => .ok) (huser : heard user = [])
    (h : FileReaches B L 256) :
    ¬ DepthsTold L (heard (parseTideBytes B true (some L) callbacks user
      (Stream'.const true)).2.user) := by
  obtain ⟨ds, waits, hv, offset, r, payload, hmem⟩ := h.2.announced
    (p := { Parsing.start (some L) callbacks user (Stream'.const true) with validPrefix := 72 })
    (((Parsing.Follows.refl _).withPrefix 72).calm (hcb.calm (some L) user)) rfl rfl rfl
      (Nat.le_refl _) hB (Nat.le_refl _)
  rw [parseTideBytes_of_ok h.1]
  have heq := hv.heard_eq hcb
  rw [show heard ({ Parsing.start (some L) callbacks user (Stream'.const true) with
    validPrefix := 72 } : Parsing σ).user = [] from huser, List.nil_append] at heq
  dsimp only
  rw [show (0 : UInt8) = UInt8.ofNat 0 from rfl, heq]
  exact hv.heard.not_depthsTold hmem

/-- Without a record in 256 groups, or with a limit that the count can reach, the depths of what is
delivered are told. -/
theorem parseTideBytes_depthsTold (hB : B.length ≤ sizeMax)
    (hcalm : (Parsing.start (some L) callbacks user (Stream'.const true)).Calm fun _ => True)
    (hcond : L.maxDepth ≤ 255 ∨ ¬ FileReaches B L 256) :
    ∃ ds, (parseTideBytes B true (some L) callbacks user (Stream'.const true)).2.user =
      callbacks.deliver user (eventsOf ds) ∧
      DepthsTold L (eventsOf ds) := by
  cases hval : validateHeader B L with
  | error e =>
    rw [parseTideBytes_of_error hval]
    exact ⟨[], rfl, eachBehind_nil⟩
  | ok u =>
    obtain ⟨ds, waits, hv, hreach⟩ :=
      visits_reaches 0 (((Parsing.Follows.refl _).withPrefix 72).calm hcalm) rfl
      (length_of_validateHeader hval) (Nat.le_refl _) hB (Nat.le_refl _)
    rw [parseTideBytes_of_ok hval]
    refine ⟨ds, hv.user, hv.heard.depthsTold fun d hd => ?_⟩
    by_cases hmax : L.maxDepth.toNat ≤ 255
    · have hle : d.level ≤ L.maxDepth.toNat := hv.heard.level_le_maxDepth hmax (Nat.zero_le _) d hd
      exact ⟨hle.trans hmax, hle⟩
    · have hno := hcond.resolve_left fun h => hmax (by simpa using UInt32.le_iff_toNat_le.mp h)
      have hle : d.level ≤ 255 := by
        by_contra hgt
        exact hno ⟨hval, (hreach d hd).mono (Nat.zero_le _) (by omega)⟩
      exact ⟨hle, show d.level ≤ L.maxDepth.toNat by omega⟩

/-- In the same cases no record in more than `max_depth` groups is parsed. -/
theorem parseTideBytesTo_eq (hB : B.length ≤ sizeMax)
    (hcalm : (Parsing.start (some L) callbacks user (Stream'.const true)).Calm fun _ => True)
    (hcond : L.maxDepth ≤ 255 ∨ ¬ FileReaches B L 256) (other : ParseRecords σ) :
    parseTideBytesTo other L.maxDepth.toNat B true (some L) callbacks user (Stream'.const true) =
      parseTideBytes B true (some L) callbacks user (Stream'.const true) := by
  cases hval : validateHeader B L with
  | error e =>
    have hval' : validateHeader B (Parsing.start (some L) callbacks user
        (Stream'.const true)).limits = .error e := hval
    rw [parseTideBytes_of_error hval]
    unfold parseTideBytesTo
    dsimp only
    rw [hval']
  | ok u =>
    have hval' : validateHeader B (Parsing.start (some L) callbacks user
        (Stream'.const true)).limits = .ok () := hval
    have h72 := length_of_validateHeader hval
    have hcount : L.maxDepth.toNat ≤ 255 ∨ ¬ Reaches B L 256 B.length 72 0 [] :=
      hcond.imp (fun h => by simpa using UInt32.le_iff_toNat_le.mp h) fun hno h => hno ⟨hval, h⟩
    have hto : parseRecordsTo other (B.length - 72 + 1) L.maxDepth.toNat B 72 B.length
        (UInt8.ofNat 0)
        { Parsing.start (some L) callbacks user (Stream'.const true) with validPrefix := 72 } =
      parseRecords B 72 B.length (UInt8.ofNat 0)
        { Parsing.start (some L) callbacks user (Stream'.const true) with validPrefix := 72 } :=
      parseRecordsTo_eq other (((Parsing.Follows.refl _).withPrefix 72).calm hcalm) (by omega)
        (Nat.zero_add _).symm
        (hcount.imp_right fun hno => ⟨by omega, hno⟩) (Nat.le_refl _) hB (Nat.le_refl _)
    rw [parseTideBytes_of_ok hval]
    unfold parseTideBytesTo
    dsimp only
    rw [hval', show (0 : UInt8) = UInt8.ofNat 0 from rfl]
    dsimp only
    rw [hto]

end

/-- **Nesting is told truly and bounded**: the depth that is announced is the number of groups
around a record, and no record in more than `max_depth` groups is announced or parsed,
if and only if `max_depth` is at most 255 or no record in 256 groups is come to. -/
theorem parseTideBytes_depth_iff (B : Bytes) (hB : B.length ≤ sizeMax) (L : Limits)
    {callbacks : Callbacks σ} {heard : σ → List Event}
    (hcb : callbacks.Answers heard fun _ _ => .ok) (user : σ) (huser : heard user = []) :
    let r := parseTideBytes B true (some L) callbacks user (Stream'.const true)
    (DepthsTold L (heard r.2.user) ∧
        ∀ other, parseTideBytesTo other L.maxDepth.toNat B true (some L) callbacks user
          (Stream'.const true) = r) ↔
      L.maxDepth ≤ 255 ∨ ¬ FileReaches B L 256 := by
  intro r
  have hcalm := hcb.calm (some L) user
  constructor
  · rintro ⟨htold, -⟩
    exact .inr fun h => h.not_depthsTold hB hcb huser htold
  intro hcond
  refine ⟨?_, parseTideBytesTo_eq hB hcalm hcond⟩
  obtain ⟨ds, huser', htold⟩ := parseTideBytes_depthsTold hB hcalm hcond
  change DepthsTold L (heard (parseTideBytes B true (some L) callbacks user
    (Stream'.const true)).2.user)
  rw [huser', hcb.deliver, huser, List.nil_append]
  exact htold

/-! ### Two hundred and fifty-six groups -/

/-- A record in `n` groups. -/
def nested : ℕ → Forest
  | 0 => .leaf ⟨0x8000, 0, 3, 0, 0⟩ [] .nil
  | n + 1 => .group ⟨RecordType.group.code, 0, 3, 0, 0⟩ ⟨1, 0, 0⟩ (nested n) .nil

/-- The default limits, but for the depth. -/
def deepLimits : Limits := { limitsDefault with maxDepth := 300 }

/-- A file with a record in 256 groups. -/
def deepFile : Bytes := sampleHeader.bytes ++ (nested 256).bytes

theorem length_nested (n : ℕ) : (nested n).bytes.length ≤ 59 * (n + 1) := by
  induction n with
  | zero => decide +kernel
  | succ n ih =>
    have hsize := RecordHead.size_le ⟨RecordType.group.code, 0, 3, 0,
      0⟩ (20 + (nested n).bytes.length)
    have hbounds := RecordHead.headerSize_bounds ⟨RecordType.group.code, 0, 3, 0,
      0⟩ (20 + (nested n).bytes.length)
    rw [nested, Forest.bytes, Forest.bytes, List.append_nil, RecordHead.length_bytes,
      length_groupPayload]
    change _ ≤ _ + _ + (2 ^ 3 - 1) + 4 at hsize
    omega

/-- A record that small is within the limits. -/
theorem headOk_deepLimits {h : RecordHead} {n : ℕ} (ha : h.alignmentLog2 = 3) (hn : n ≤ 16000) :
    HeadOk deepLimits h n := by
  have hsize := h.size_le n
  have hbounds := h.headerSize_bounds n
  have hmax : deepLimits.maxPayloadSize.toNat = 67108864 ∧
      deepLimits.maxRecordSize.toNat = 67108864 := by decide
  rw [ha] at hsize
  change _ ≤ _ + _ + (2 ^ 3 - 1) + 4 at hsize
  exact ⟨by rw [ha]; decide, by omega, by omega⟩

theorem nested_reaches {data : Bytes} {ts : List TrackSnapshot} (n : ℕ) {size offset depth : ℕ}
    (hdepth : depth + n = 256) (hl : Lies data offset (nested n).bytes)
    (hle : offset + (nested n).bytes.length ≤ size) :
    Reaches data deepLimits 256 size offset depth ts := by
  induction n generalizing size offset depth with
  | zero =>
    obtain rfl : depth = 256 := by omega
    rw [nested, Forest.bytes, Forest.bytes, List.append_nil] at hl hle
    rw [RecordHead.length_bytes] at hle
    exact .here (headOk_deepLimits rfl (by simp)) hl hle
  | succ n ih =>
    have hlen := length_nested n
    rw [nested, Forest.bytes, Forest.bytes, List.append_nil] at hl hle
    rw [RecordHead.length_bytes, length_groupPayload] at hle
    have hadm : admits deepLimits depth := by
      have hlt := (UInt8.ofNat depth).toNat_lt
      have hmax : deepLimits.maxDepth.toNat = 300 := by decide
      rw [admits, hmax]
      omega
    refine .inside ⟨headOk_deepLimits rfl (by omega), rfl, hadm, hl, hle⟩
      (ih (by omega) (lies_group hl).1 (Nat.le_refl _))

/-- At a depth limit of 300, the record in 256 groups is announced at depth 0. -/
theorem deepFile_not_told :
    ¬ (DepthsTold deepLimits (parseTideBytes deepFile true (some deepLimits)
      (respondent fun _ _ => .ok) [] (Stream'.const true)).2.user ∧
      ∀ other, parseTideBytesTo other deepLimits.maxDepth.toNat deepFile true (some deepLimits)
        (respondent fun _ _ => .ok) []
        (Stream'.const true) = parseTideBytes deepFile true (some deepLimits)
          (respondent fun _ _ => .ok) [] (Stream'.const true)) := by
  have hlen := length_nested 256
  have hheader : sampleHeader.Valid deepLimits := ⟨rfl, by decide, by decide +kernel, by decide⟩
  have h72 : sampleHeader.bytes.length = 72 := sampleHeader.length_bytes rfl
  have hreach : FileReaches deepFile deepLimits 256 := by
    refine ⟨(validateHeader_eq_ok_iff ..).mpr ⟨sampleHeader, hheader, (nested 256).bytes, rfl⟩,
      nested_reaches 256 rfl ?_ ?_⟩
    · exact sampleHeader.lies_behind rfl _
    · rw [deepFile, List.length_append, h72]
  have hmax : deepFile.length ≤ sizeMax := by
    rw [deepFile, List.length_append, h72, sizeMax]
    omega
  have hnot := hreach.not_depthsTold hmax (respondent_answers fun _ _ => .ok) (show id [] = []
    from rfl)
  rw [id_eq] at hnot
  exact fun h => hnot h.1

/-- The small file, with the default limits. -/
theorem sampleFile_depths :
    DepthsTold limitsDefault
      (parseTideBytes sampleFile true (some limitsDefault) (respondent fun _ _ => .ok) []
        (Stream'.const true)).2.user := by
  have h := (parseTideBytes_depth_iff sampleFile (by decide +kernel) limitsDefault
    (respondent_answers fun _ _ => .ok) [] rfl).mpr
    (.inl (by decide))
  rw [id_eq] at h
  exact h.1

end Tide
