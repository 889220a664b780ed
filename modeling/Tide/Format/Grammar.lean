import Tide.Format.Processing

/-!
# What the loop accepts

The loop over records against the forests of `Tide.Format.Forest`, with callbacks
that return `OK` and allocations that succeed. It passes over a well-formed forest
wherever one lies, delivering its events (`parseRecords_forest`), and what it has
passed over when it ends is a well-formed forest, behind which there is nothing,
or an incomplete record, or one that is refused (`parseRecords_decompose`).
-/

namespace Tide

open Theory

variable {σ : Type}

/-- The depths at which the decoder opens a group: it counts them in eight bits. -/
def admits (limits : Limits) (depth : ℕ) : Prop := (UInt8.ofNat depth).toNat < limits.maxDepth.toNat

theorem depth_succ (depth : ℕ) : UInt8.ofNat depth + 1 = UInt8.ofNat (depth + 1) := by
  rw [UInt8.ofNat_add]
  rfl

/-! ### A round of the loop -/

/-- What a round makes of the result of processing a record that ends at `next`. -/
def closeRecord (next : ℕ) (r : Status × Parsing σ) : Move (Parsing σ) (Status × Parsing σ) :=
  match r with
  | (.ok, p) => .go next { p with validPrefix := next }
  | r => .stop r

theorem closeRecord_of_ne {next : ℕ} {r : Status × Parsing σ} (h : r.1 ≠ .ok) :
    closeRecord next r = .stop r := by
  rcases r with ⟨st, q⟩
  cases st <;> first | exact absurd rfl h | rfl

/-- A round at a record that lies in the range and whose head is well formed. -/
theorem recordStep_framed (parse : ParseRecords σ) {data payload : Bytes} {h : RecordHead}
    {size offset : ℕ} (depth : UInt8) (p : Parsing σ) (hsize : size ≤ data.length)
    (hmax : size ≤ sizeMax) (hoff : 72 ≤ offset) (hhead : HeadOk p.limits h payload.length)
    (hl : Lies data offset (h.bytes payload)) (hle : offset + h.size payload.length ≤ size) :
    recordStep parse data size offset depth p =
      closeRecord (offset + h.size payload.length)
        (processRecord parse data (h.frameAt offset payload.length depth) p) := by
  have hfit := h.sizeFits_of_le hhead.alignment hoff
    (by omega : offset + h.size payload.length ≤ sizeMax)
  obtain ⟨hdec, hint⟩ : decodeRecordPrefix data size offset depth =
      .frame (h.frameAt offset payload.length depth) ∧ _ :=
    (framed_iff hsize hmax).mpr ⟨h, payload, hhead.alignment, hfit, hl, hle, rfl⟩
  have hlimits : ¬ ((h.frameAt offset payload.length depth).payloadSize > p.limits.maxPayloadSize ∨
      (h.frameAt offset payload.length depth).crcEnd -
        (h.frameAt offset payload.length depth).offset >
        p.limits.maxRecordSize.toNat) := by
    have h1 := hhead.payload
    have h2 := hhead.record
    rw [not_or, UInt64.not_lt, UInt64.le_iff_toNat_le]
    simp only [RecordHead.frameAt, h.toNat_payloadSize hfit]
    omega
  unfold recordStep
  rw [hdec]
  dsimp only
  rw [if_neg hlimits, hint]
  rfl

/-- **What a round does**: it asks for more, it refuses, or it processes a record that
lies there and whose head is well formed. -/
theorem recordStep_cases (parse : ParseRecords σ) {data : Bytes} {size offset : ℕ} (depth : UInt8)
    (p : Parsing σ) (hsize : size ≤ data.length) (hmax : size ≤ sizeMax) :
    recordStep parse data size offset depth p = .more ∨
      (∃ e, e.code.Rejects ∧ recordStep parse data size offset depth p = .stop (p.fail e)) ∨
      (∃ (h : RecordHead) (payload : Bytes), HeadOk p.limits h payload.length ∧
        Lies data offset (h.bytes payload) ∧
        offset + h.size payload.length ≤ size ∧
        decodeRecordPrefix data size offset depth = .frame (h.frameAt offset payload.length depth) ∧
        recordStep parse data size offset depth p =
          closeRecord (offset + h.size payload.length)
            (processRecord parse data (h.frameAt offset payload.length depth) p)) := by
  unfold recordStep
  cases hdec : decodeRecordPrefix data size offset depth with
  | truncated => exact .inl rfl
  | rejected e => exact .inr (.inl ⟨e, rejects_of_rejected hdec, rfl⟩)
  | frame f =>
    dsimp only
    by_cases hlimits : f.payloadSize > p.limits.maxPayloadSize ∨
      f.crcEnd - f.offset > p.limits.maxRecordSize.toNat
    · rw [if_pos hlimits]
      exact .inr (.inl ⟨_, show Status.resource.Rejects by decide, rfl⟩)
    rw [if_neg hlimits]
    cases hint : validateRecordIntegrity data f with
    | error e => exact .inr (.inl ⟨e, rejects_of_integrity hint, rfl⟩)
    | ok u =>
      obtain ⟨h, payload, ha, hfit, hl, hle, rfl⟩ := (framed_iff hsize hmax).mp ⟨hdec, hint⟩
      rw [not_or, UInt64.not_lt, UInt64.le_iff_toNat_le] at hlimits
      simp only [RecordHead.frameAt, h.toNat_payloadSize hfit] at hlimits
      exact .inr (.inr ⟨h, payload, ⟨ha, hlimits.1, by omega⟩, hl, hle, rfl, rfl⟩)

/-- A round asks for more exactly if `tide_decode_record_prefix` does. -/
theorem recordStep_eq_more_iff (parse : ParseRecords σ) (data : Bytes) (size offset : ℕ)
    (depth : UInt8) (p : Parsing σ) :
    recordStep parse data size offset depth p = .more ↔
      decodeRecordPrefix data size offset depth = .truncated := by
  constructor
  · intro hmore
    by_contra hne
    unfold recordStep at hmore
    cases hdec : decodeRecordPrefix data size offset depth with
    | truncated => exact hne hdec
    | rejected e => rw [hdec] at hmore; cases hmore
    | frame f =>
      rw [hdec] at hmore
      dsimp only at hmore
      split at hmore
      · cases hmore
      split at hmore
      · cases hmore
      split at hmore <;> cases hmore
  · intro hdec
    unfold recordStep
    rw [hdec]

/-- At the end of its range the loop is over. -/
theorem parseRecords_end (data : Bytes) {size : ℕ} (hmax : size ≤ sizeMax) (depth : UInt8)
    (p : Parsing σ) :
    parseRecords data size size depth p = (.ok, p) := by
  rw [parseRecords_eq data hmax, if_neg (Nat.lt_irrefl _), if_neg (not_not.mpr rfl)]

/-- A record that is well formed as a leaf is not a group. -/
theorem LeafOk.type_ne {limits : Limits} {depth : ℕ} {pre payload : Bytes}
    {tracks : List TrackSnapshot} {h : RecordHead}
    (hok : LeafOk limits depth pre tracks h payload) : h.type ≠ RecordType.group.code := by
  intro ht
  unfold LeafOk at hok
  rw [ht, skippable_code, recordTypeOf_code] at hok
  rcases hok with hskip | hfalse
  · cases hskip
  · exact hfalse

/-- Where the valid prefix is behind a forest. -/
def Forest.prefixAfter (f : Forest) (offset before : ℕ) : ℕ :=
  if f = .nil then before else offset + f.bytes.length

/-- A record moves the valid prefix to its end, and what follows it moves it on from there. -/
theorem Forest.prefixAfter_next (f : Forest) (offset : ℕ) :
    f.prefixAfter offset offset = offset + f.bytes.length := by
  cases f with
  | nil => rfl
  | leaf => exact if_neg (by simp)
  | group => exact if_neg (by simp)

theorem Forest.prefixAfter_append (f g : Forest) (offset before : ℕ) :
    (f.append g).prefixAfter offset before = g.prefixAfter (offset + f.bytes.length)
    (f.prefixAfter offset before) := by
  cases f with
  | nil => rfl
  | leaf | group =>
    cases g with
    | nil => simp [Forest.prefixAfter, Forest.append, Forest.bytes]
    | leaf | group => simp [Forest.prefixAfter, Forest.append, Forest.bytes, Nat.add_assoc]

section

variable {I : σ → Prop} {data : Bytes}

/-- The bytes behind a group's metadata. -/
theorem lies_group {h : RecordHead} {m : GroupMeta} {children : Bytes} {offset : ℕ}
    (hl : Lies data offset (h.bytes (groupPayload m children))) :
    Lies data (Forest.childOffset h children.length offset) children ∧
      data.take (Forest.childOffset h children.length offset) =
        data.take offset ++ (h.prefixBytes (20 + children.length) ++ m.bytes children.length) := by
  have hp := h.lies_payload hl
  rw [length_groupPayload] at hp
  have hboth := lies_append_iff.mp hp
  rw [GroupMeta.length_bytes] at hboth
  refine ⟨hboth.2, ?_⟩
  simp only [RecordHead.bytes, RecordHead.body, groupPayload, List.append_assoc] at hl
  rw [← List.append_assoc] at hl
  have hpre := (lies_append_iff.mp hl).1.take
  simp only [List.length_append, RecordHead.length_prefixBytes, GroupMeta.length_bytes] at hpre
  rw [Forest.childOffset, Nat.add_assoc, hpre]

/-- A round at a group whose metadata is right and that may be opened. -/
theorem recordStep_group {p : Parsing σ} {h : RecordHead} {m : GroupMeta} {children : Bytes}
    {size offset depth : ℕ} (hsize : size ≤ data.length) (hmax : size ≤ sizeMax) (hc : p.Calm I)
    (hoff : 72 ≤ offset) (hhead : HeadOk p.limits h (20 + children.length))
    (ht : h.type = RecordType.group.code) (hadm : admits p.limits depth)
    (hl : Lies data offset (h.bytes (groupPayload m children)))
    (hle : offset + h.size (20 + children.length) ≤ size) :
    recordStep (parseRecords data) data size offset (UInt8.ofNat depth) p =
      closeRecord (offset + h.size (20 + children.length))
        (closeGroup (h.frameAt offset (20 + children.length) (UInt8.ofNat depth))
        (parseRecords data (Forest.childOffset h children.length offset)
          (Forest.childOffset h children.length offset + children.length) (UInt8.ofNat (depth + 1))
          (p.notify (headEvent h (20 + children.length) offset depth)).2)) := by
  have hlen := length_groupPayload m children
  have hge := h.size_ge (20 + children.length)
  rw [← hlen] at hhead hle hge
  rw [recordStep_framed (parseRecords data) (UInt8.ofNat depth) p hsize hmax hoff hhead hl hle]
  obtain ⟨-, -, hproc⟩ | ⟨hno, -⟩ := processRecord_group hc (parseRecords data) (h.lies_payload hl)
    (by omega) ht
  · have hend : offset + h.headerSize (20 + children.length) + (20 + children.length) =
        Forest.childOffset h children.length offset + children.length := by
      unfold Forest.childOffset; omega
    rw [hproc, depth_succ, hlen, hend]
    rfl
  · exact absurd ⟨⟨m, children, rfl⟩, hadm⟩ hno

/-- **The loop passes over a well-formed forest**: it delivers the events, adds the
tracks, and goes on behind it. -/
theorem parseRecords_forest (f : Forest) {size offset depth : ℕ} {p : Parsing σ}
    (hsize : size ≤ data.length) (hmax : size ≤ sizeMax) (hc : p.Calm I) (hoff : 72 ≤ offset)
    (hv : f.Valid p.limits (admits p.limits) depth (data.take offset) p.tracks)
    (hl : Lies data offset f.bytes) (hle : offset + f.bytes.length ≤ size) :
    ∃ p', p.Follows p' (f.events offset depth) f.tracks ∧
      p'.validPrefix = f.prefixAfter offset p.validPrefix ∧
      parseRecords data offset size (UInt8.ofNat depth) p =
        parseRecords data (offset + f.bytes.length) size (UInt8.ofNat depth) p' := by
  induction f generalizing size offset depth p with
  | nil => exact ⟨p, Parsing.Follows.refl p, rfl, rfl⟩
  | leaf h payload next ih =>
    obtain ⟨hhead, hleaf, hnext⟩ := hv
    obtain ⟨hl₁, hl₂⟩ := lies_append_iff.mp hl
    have hge := h.size_ge payload.length
    simp only [Forest.bytes, List.length_append, h.length_bytes] at hle hl₂ ⊢
    obtain ⟨-, p₁, hproc, hfol, hvp⟩ | ⟨hno, -⟩ :=
      processRecord_leaf hc (parseRecords data) depth (by omega) (h.lies_payload hl₁) hleaf.type_ne
    swap; · exact absurd hleaf hno
    have hstep := recordStep_framed (parseRecords data) (UInt8.ofNat depth) p hsize hmax hoff
      hhead hl₁ (by omega)
    rw [hproc] at hstep
    have hfol₁ := hfol.withPrefix (offset + h.size payload.length)
    have htake := hl₁.take
    rw [h.length_bytes] at htake
    rw [← htake, ← hfol.tracks, ← hfol.limits] at hnext
    obtain ⟨p', hfol', hvp', hrest⟩ := ih hsize hmax (hfol₁.calm hc) (by omega) hnext hl₂ (by omega)
    refine ⟨p', hfol₁.trans hfol', ?_, ?_⟩
    · rw [hvp', Forest.prefixAfter_next, Forest.prefixAfter, if_neg (by simp)]
      simp only [Forest.bytes, List.length_append, h.length_bytes, Nat.add_assoc]
    · rw [parseRecords_eq data hmax, if_pos (by omega), hstep]
      rw [Nat.add_assoc] at hrest
      exact hrest
  | group h m children next ihc ih =>
    obtain ⟨hhead, ht, hadm, hchildren, hnext⟩ := hv
    obtain ⟨hl₁, hl₂⟩ := lies_append_iff.mp hl
    obtain ⟨hlc, htakec⟩ := lies_group hl₁
    have hlen := length_groupPayload m children.bytes
    have hbounds := h.headerSize_bounds (20 + children.bytes.length)
    have hinside := Forest.children_inside h children.bytes.length offset
    simp only [Forest.bytes, List.length_append, h.length_bytes, hlen] at hle hl₂ ⊢
    have hstep := recordStep_group hsize hmax hc hoff hhead ht hadm hl₁ (by omega)
    have hfol := Parsing.follows_notify p (headEvent h (20 + children.bytes.length) offset depth)
    -- the children end where the group's payload does
    rw [← htakec] at hchildren
    have hend : Forest.childOffset h children.bytes.length offset + children.bytes.length ≤ size :=
      by omega
    obtain ⟨p₁, hfol₁, -, hparse⟩ := ihc (hend.trans hsize) (hend.trans hmax) (hfol.calm hc)
      (by omega) hchildren hlc (Nat.le_refl _)
    rw [parseRecords_end data (by omega)] at hparse
    rw [hparse] at hstep
    have hfol₂ := (hfol.trans hfol₁).withPrefix (offset + h.size (20 + children.bytes.length))
    have htake := hl₁.take
    rw [h.length_bytes, hlen] at htake
    rw [← htake, ← hfol₂.limits] at hnext
    obtain ⟨p', hfol', hvp', hrest⟩ := ih hsize hmax (hfol₂.calm hc) (by omega)
      (by rw [hfol₂.tracks]; exact hnext) hl₂ (by omega)
    refine ⟨p', hfol₂.trans hfol', ?_, ?_⟩
    · rw [hvp', Forest.prefixAfter_next, Forest.prefixAfter, if_neg (by simp)]
      simp only [Forest.bytes, List.length_append, h.length_bytes, hlen, Nat.add_assoc]
    · rw [parseRecords_eq data hmax, if_pos (by omega), hstep]
      rw [Nat.add_assoc] at hrest
      exact hrest

/-- A round at a well-formed record goes on behind it. -/
theorem recordStep_record {r : Forest} (hr : r.IsRecord) {size offset depth : ℕ} {p : Parsing σ}
    (hsize : size ≤ data.length) (hmax : size ≤ sizeMax) (hc : p.Calm I) (hoff : 72 ≤ offset)
    (hv : r.Valid p.limits (admits p.limits) depth (data.take offset) p.tracks)
    (hl : Lies data offset r.bytes) (hle : offset + r.bytes.length ≤ size) :
    ∃ p', p.Follows p' (r.events offset depth) r.tracks ∧
      recordStep (parseRecords data) data size offset (UInt8.ofNat depth) p =
        .go (offset + r.bytes.length) p' := by
  cases hr with
  | leaf h payload =>
    obtain ⟨hhead, hleaf, -⟩ := hv
    have hge := h.size_ge payload.length
    simp only [Forest.bytes, Forest.events, Forest.tracks, List.append_nil,
      h.length_bytes] at hl hle ⊢
    obtain ⟨-, p₁, hproc, hfol, -⟩ | ⟨hno, -⟩ :=
      processRecord_leaf hc (parseRecords data) depth (by omega) (h.lies_payload hl) hleaf.type_ne
    swap; · exact absurd hleaf hno
    rw [recordStep_framed (parseRecords data) (UInt8.ofNat depth) p hsize hmax hoff hhead hl hle,
      hproc]
    exact ⟨_, hfol.withPrefix _, rfl⟩
  | group h m children =>
    obtain ⟨hhead, ht, hadm, hchildren, -⟩ := hv
    have hinside := Forest.children_inside h children.bytes.length offset
    simp only [Forest.bytes, Forest.events, Forest.tracks, List.append_nil, h.length_bytes,
      length_groupPayload] at hl hle ⊢
    obtain ⟨hlc, htakec⟩ := lies_group hl
    rw [← htakec] at hchildren
    have hfol := Parsing.follows_notify p (headEvent h (20 + children.bytes.length) offset depth)
    have hend : Forest.childOffset h children.bytes.length offset + children.bytes.length ≤ size :=
      by omega
    obtain ⟨p₁, hfol₁, -, hparse⟩ :=
      parseRecords_forest children (hend.trans hsize) (hend.trans hmax) (hfol.calm hc)
        (by omega) hchildren hlc (Nat.le_refl _)
    rw [recordStep_group hsize hmax hc hoff hhead ht hadm hl hle, hparse,
      parseRecords_end data (hend.trans hmax)]
    exact ⟨_, (hfol.trans hfol₁).withPrefix _, rfl⟩

/-! ### What the loop has passed over -/

/-- From `p` at `offset` the loop has passed over the well-formed forest `f`, to `p'`. -/
structure Passed (data : Bytes) (size offset depth : ℕ) (p : Parsing σ) (f : Forest)
    (p' : Parsing σ) : Prop where
  valid : f.Valid p.limits (admits p.limits) depth (data.take offset) p.tracks
  lies : Lies data offset f.bytes
  le : offset + f.bytes.length ≤ size
  follows : p.Follows p' (f.events offset depth) f.tracks
  validPrefix : p'.validPrefix = f.prefixAfter offset p.validPrefix

/-- How the loop ends at `offset`: the range is used up, or what is left of it is the
beginning of a record, or a record is refused. Then the valid prefix stays where it
is, or is somewhere in the record that is refused. -/
inductive Ends (data : Bytes) (size offset : ℕ) (depth : UInt8) (p : Parsing σ) :
    Status × Parsing σ → Prop where
  | done (hend : offset = size) : Ends data size offset depth p (.ok, p)
  | more (hlt : offset < size) (hstep : recordStep (parseRecords data) data size offset depth p =
      .more) :
      Ends data size offset depth p (.truncated, { p with validPrefix := offset })
  | refused {r : Status × Parsing σ} (hlt : offset < size)
      (hstep : recordStep (parseRecords data) data size offset depth p = .stop r)
        (hrej : r.1.Rejects)
      (hvp : r.2.validPrefix = p.validPrefix ∨
        ∃ f, decodeRecordPrefix data size offset depth = .frame f ∧
        offset < r.2.validPrefix ∧ r.2.validPrefix < f.crcEnd) :
      Ends data size offset depth p r

theorem passed_nil {size offset depth : ℕ} {p : Parsing σ} (hle : offset ≤ size) :
    Passed data size offset depth p .nil p :=
  ⟨trivial, rfl, hle, Parsing.Follows.refl p, rfl⟩

/-- Passing over one forest and then over another. -/
theorem Passed.append {size offset depth : ℕ} {p p₁ p' : Parsing σ} {f g : Forest}
    (hf : Passed data size offset depth p f p₁)
    (hg : Passed data size (offset + f.bytes.length) depth p₁ g p') :
    Passed data size offset depth p (f.append g) p' where
  valid := by
    have hv := hg.valid
    rw [hf.follows.limits, hf.follows.tracks, hf.lies.take] at hv
    exact (Forest.valid_append_iff ..).mpr ⟨hf.valid, hv⟩
  lies := by
    rw [Forest.bytes_append]
    exact lies_append_iff.mpr ⟨hf.lies, hg.lies⟩
  le := by
    have := hg.le
    rw [Forest.bytes_append, List.length_append]
    omega
  follows := by
    rw [Forest.events_append, Forest.tracks_append]
    exact hf.follows.trans hg.follows
  validPrefix := by
    rw [hg.validPrefix, hf.validPrefix, Forest.prefixAfter_append]

/-- Passing over a record that is not a group. -/
theorem passed_leaf {size offset depth : ℕ} {p p₁ : Parsing σ} {h : RecordHead} {payload : Bytes}
    (hhead : HeadOk p.limits h payload.length)
    (hleaf : LeafOk p.limits depth (data.take offset) p.tracks h payload)
    (hl : Lies data offset (h.bytes payload)) (hle : offset + h.size payload.length ≤ size)
    (hfol : p.Follows p₁ (headEvent h payload.length offset depth :: leafContent h payload)
      (leafTracks h payload)) :
    Passed data size offset depth p (.leaf h payload .nil)
    { p₁ with validPrefix := offset + h.size payload.length } where
  valid := ⟨hhead, hleaf, trivial⟩
  lies := by rwa [Forest.bytes, Forest.bytes, List.append_nil]
  le := by rwa [Forest.bytes, Forest.bytes, List.append_nil, h.length_bytes]
  follows := by
    rw [Forest.events, Forest.events, Forest.tracks, Forest.tracks, List.append_nil,
      List.append_nil]
    exact hfol.withPrefix _
  validPrefix := by
    rw [Forest.prefixAfter, if_neg (by simp), Forest.bytes, Forest.bytes, List.append_nil,
      h.length_bytes]

/-- Passing over a group, by way of its children. -/
theorem passed_group {size offset depth : ℕ} {p p₁ : Parsing σ} {h : RecordHead} {m : GroupMeta}
    {children : Forest} {e : ℕ} (hhead : HeadOk p.limits h (20 + children.bytes.length))
    (ht : h.type = RecordType.group.code) (hadm : admits p.limits depth)
    (hl : Lies data offset (h.bytes (groupPayload m children.bytes)))
    (hle : offset + h.size (20 + children.bytes.length) ≤ size)
    (hpc : Passed data e (Forest.childOffset h children.bytes.length offset) (depth + 1)
      (p.notify (headEvent h (20 + children.bytes.length) offset depth)).2 children p₁) :
    Passed data size offset depth p (.group h m children .nil)
      { p₁ with validPrefix := offset + h.size (20 + children.bytes.length) } where
  valid := ⟨hhead, ht, hadm, by rw [← (lies_group hl).2]; exact hpc.valid, trivial⟩
  lies := by rwa [Forest.bytes, Forest.bytes, List.append_nil]
  le := by rwa [Forest.bytes, Forest.bytes, List.append_nil, h.length_bytes, length_groupPayload]
  follows := by
    have hfol := (Parsing.follows_notify p (headEvent h (20 + children.bytes.length) offset
      depth)).trans hpc.follows
    rw [Forest.events, Forest.events, Forest.tracks, Forest.tracks, List.append_nil,
      List.append_nil]
    exact hfol.withPrefix _
  validPrefix := by
    rw [Forest.prefixAfter, if_neg (by simp), Forest.bytes, Forest.bytes, List.append_nil,
      h.length_bytes, length_groupPayload]

/-- A loop whose first round refuses a record. -/
theorem ends_of_stop {size : ℕ} (offset : ℕ) {depth : UInt8} {p : Parsing σ}
    {r : Status × Parsing σ} (hmax : size ≤ sizeMax) (hlt : offset < size)
    (hstep : recordStep (parseRecords data) data size offset depth p = .stop r) (hrej : r.1.Rejects)
    (hvp : r.2.validPrefix = p.validPrefix ∨ ∃ f, decodeRecordPrefix data size offset depth =
      .frame f ∧ offset < r.2.validPrefix ∧ r.2.validPrefix < f.crcEnd) :
    Ends data size offset depth p (parseRecords data offset size depth p) := by
  rw [parseRecords_eq data hmax, if_pos hlt, hstep]
  exact .refused hlt hstep hrej hvp

/-- Where the valid prefix is when a loop has not returned `OK`: it stays, or is in the range. -/
theorem Passed.validPrefix_range {size offset : ℕ} {depth : UInt8} {p : Parsing σ} {f : Forest}
    {p₁ : Parsing σ} {r : Status × Parsing σ} {d : ℕ} (hp : Passed data size offset d p f p₁)
    (he : Ends data size (offset + f.bytes.length) depth p₁ r) (hne : r.1 ≠ .ok) :
    r.2.validPrefix = p.validPrefix ∨ offset ≤ r.2.validPrefix ∧ r.2.validPrefix ≤ size := by
  have hle := hp.le
  cases he with
  | done => exact absurd rfl hne
  | more hlt =>
    refine .inr ?_
    change offset ≤ offset + f.bytes.length ∧ offset + f.bytes.length ≤ size
    omega
  | refused hlt hstep hrej hvp =>
    rcases hvp with hvp | ⟨frame, hf, h1, h2⟩
    · rw [hvp, hp.validPrefix, Forest.prefixAfter]
      split
      · exact .inl rfl
      · exact .inr ⟨by omega, hle⟩
    · have := (ends_le_of_frame hf).2
      exact .inr ⟨by omega, by omega⟩

theorem closeGroup_validPrefix (frame : RecordFrame) (r : Status × Parsing σ) :
    (closeGroup frame r).2.validPrefix = r.2.validPrefix := by
  by_cases htrunc : r.1 = .truncated
  · rcases r with ⟨st, q⟩
    subst htrunc
    rfl
  · rw [closeGroup_of_ne htrunc]

/-- A group whose children are not a forest is refused, and the valid prefix is where it
was or among the children. -/
theorem closeGroup_refused {size offset : ℕ} {depth : UInt8} {p : Parsing σ} {children : Forest}
    {p₁ : Parsing σ} {r : Status × Parsing σ} {d : ℕ} (frame : RecordFrame)
    (hp : Passed data size offset d p children p₁)
    (he : Ends data size (offset + children.bytes.length) depth p₁ r) (hne : r.1 ≠ .ok) :
    (closeGroup frame r).1.Rejects ∧ ((closeGroup frame r).2.validPrefix = p.validPrefix ∨
      offset ≤ (closeGroup frame r).2.validPrefix ∧ (closeGroup frame r).2.validPrefix ≤ size) := by
  rw [closeGroup_validPrefix]
  refine ⟨?_, hp.validPrefix_range he hne⟩
  cases he with
  | done => exact absurd rfl hne
  | more => exact show Status.format.Rejects by decide
  | refused hlt hstep hrej =>
    rw [closeGroup_of_ne hrej.2.2]
    exact hrej

/-- What a round of the loop does, given how the loop ends on the shorter ranges within:
it asks for more, refuses a record, or passes over one. -/
theorem round_of {size offset : ℕ} (depth : ℕ) {p : Parsing σ} (hsize : size ≤ data.length)
    (hmax : size ≤ sizeMax) (hc : p.Calm I) (hoff : 72 ≤ offset)
    (ih : ∀ {e b} (d : ℕ) {q : Parsing σ}, offset < b → b ≤ e → e ≤ size → q.Calm I →
      ∃ f q', Passed data e b d q f q' ∧ Ends data e (b + f.bytes.length)
        (UInt8.ofNat d) q' (parseRecords data b e (UInt8.ofNat d) q)) :
    recordStep (parseRecords data) data size offset (UInt8.ofNat depth) p = .more ∨
      (∃ r, recordStep (parseRecords data) data size offset (UInt8.ofNat depth) p = .stop r ∧
        r.1.Rejects ∧
        (r.2.validPrefix = p.validPrefix ∨
          ∃ f, decodeRecordPrefix data size offset (UInt8.ofNat depth) = .frame f ∧
          offset < r.2.validPrefix ∧ r.2.validPrefix < f.crcEnd)) ∨
      ∃ record p', record.IsRecord ∧ Passed data size offset depth p record p' ∧
        recordStep (parseRecords data) data size offset (UInt8.ofNat depth) p =
          .go (offset + record.bytes.length) p' := by
  obtain hmore | ⟨e, he, hstop⟩ | ⟨h, payload, hhead, hl, hend, hdec, hstep⟩ :=
    recordStep_cases (parseRecords data) (UInt8.ofNat depth) p hsize hmax
  · exact .inl hmore
  · exact .inr (.inl ⟨p.fail e, hstop, he, .inl rfl⟩)
  by_cases ht : h.type = RecordType.group.code
  · have hge := h.size_ge payload.length
    obtain ⟨⟨m, cb, rfl⟩, hadm, hproc⟩ | ⟨-, href⟩ :=
      processRecord_group hc (parseRecords data) (h.lies_payload hl) (by omega) ht
    swap
    · rw [closeRecord_of_ne href.ne_ok] at hstep
      exact .inr (.inl ⟨_, hstep, href.rejects, .inl href.validPrefix⟩)
    rw [length_groupPayload] at hhead hend hdec
    have hgroup := recordStep_group hsize hmax hc hoff hhead ht hadm hl hend
    have hinside := Forest.children_inside h cb.length offset
    have hfol := Parsing.follows_notify p (headEvent h (20 + cb.length) offset depth)
    obtain ⟨children, p₁, hpc, hec⟩ :=
      ih (depth + 1) (by omega) (Nat.le_add_right (Forest.childOffset h cb.length offset) cb.length)
      (by omega) (hfol.calm hc)
    generalize parseRecords data (Forest.childOffset h cb.length offset)
      (Forest.childOffset h cb.length offset + cb.length)
      (UInt8.ofNat (depth + 1)) (p.notify (headEvent h (20 + cb.length) offset depth)).2 =
        r at hgroup hec
    by_cases hok : r.1 = .ok
    swap
    · obtain ⟨hrej, hvp⟩ :=
        closeGroup_refused (h.frameAt offset (20 + cb.length) (UInt8.ofNat depth)) hpc hec hok
      rw [closeRecord_of_ne hrej.1] at hgroup
      refine .inr (.inl ⟨_, hgroup, hrej, ?_⟩)
      rcases hvp with hvp | ⟨h1, h2⟩
      · exact .inl hvp
      · exact .inr ⟨_, hdec, by omega, by change _ < offset + h.size (20 + cb.length); omega⟩
    -- the children that were passed over are all of the group's payload
    obtain ⟨rfl, hcl⟩ : r = (.ok, p₁) ∧ children.bytes.length = cb.length := by
      cases hec with
      | done hend => exact ⟨rfl, by omega⟩
      | more => cases hok
      | refused _ _ hrej => exact absurd hok hrej.1
    obtain rfl : children.bytes = cb := by
      have hlies := hpc.lies
      rw [Lies, hcl] at hlies
      exact hlies.symm.trans (lies_group hl).1
    refine .inr (.inr ⟨.group h m children .nil, _, .group h m children,
      passed_group hhead ht hadm hl hend hpc, ?_⟩)
    rw [hgroup, Forest.bytes, Forest.bytes, List.append_nil, h.length_bytes, length_groupPayload]
    rfl
  · have hge := h.size_ge payload.length
    obtain ⟨hleaf, p₁, hproc, hfol, -⟩ | ⟨-, href⟩ :=
      processRecord_leaf hc (parseRecords data) depth (by omega) (h.lies_payload hl) ht
    swap
    · rw [closeRecord_of_ne href.ne_ok] at hstep
      exact .inr (.inl ⟨_, hstep, href.rejects, .inl href.validPrefix⟩)
    refine .inr (.inr ⟨.leaf h payload .nil, _, .leaf h payload,
      passed_leaf hhead hleaf hl hend hfol, ?_⟩)
    rw [hstep, hproc, Forest.bytes, Forest.bytes, List.append_nil, h.length_bytes]
    rfl

/-- **How the loop ends**: it has passed over a well-formed forest, and behind that the
range is used up, or incomplete, or a record is refused. -/
theorem parseRecords_decompose {size offset : ℕ} (depth : ℕ) {p : Parsing σ} (hle : offset ≤ size)
    (hsize : size ≤ data.length) (hmax : size ≤ sizeMax) (hc : p.Calm I) (hoff : 72 ≤ offset) :
    ∃ f p', Passed data size offset depth p f p' ∧
      Ends data size (offset + f.bytes.length)
        (UInt8.ofNat depth) p' (parseRecords data offset size (UInt8.ofNat depth) p) := by
  -- the rest of the range is shorter, and so are the ranges of the groups in it
  induction hn : size - offset using Nat.strongRecOn generalizing size offset depth p with
  | ind n ih =>
    subst hn
    by_cases hlt : offset < size
    swap
    · obtain rfl : offset = size := by omega
      exact ⟨.nil, p, passed_nil hle, by rw [parseRecords_end data hmax]; exact .done rfl⟩
    obtain hmore | ⟨r, hstop, hrej, hvp⟩ | ⟨record, p₁, hr, hpass, hgo⟩ :=
      round_of depth hsize hmax hc hoff
      fun {e b} d {q} h1 h2 h3 hq => ih (e - b) (by omega) d h2 (h3.trans hsize) (h3.trans hmax) hq
        (by omega) rfl
    · refine ⟨.nil, p, passed_nil hle, ?_⟩
      rw [parseRecords_eq data hmax, if_pos hlt, hmore]
      exact .more hlt hmore
    · exact ⟨.nil, p, passed_nil hle, ends_of_stop offset hmax hlt hstop hrej hvp⟩
    · have hpos := hr.length_pos
      obtain ⟨f, p', hpass', hends⟩ := ih (size - (offset + record.bytes.length)) (by omega) depth
        hpass.le hsize hmax
        (hpass.follows.calm hc) (by omega) rfl
      refine ⟨record.append f, p', hpass.append hpass', ?_⟩
      rw [parseRecords_eq data hmax, if_pos hlt, hgo, Forest.bytes_append, List.length_append,
        ← Nat.add_assoc]
      exact hends

/-- **What a round of the loop does**: it asks for more, refuses a record, or passes over
one. -/
theorem recordStep_round {size offset : ℕ} (depth : ℕ) {p : Parsing σ} (hsize : size ≤ data.length)
    (hmax : size ≤ sizeMax) (hc : p.Calm I) (hoff : 72 ≤ offset) :
    recordStep (parseRecords data) data size offset (UInt8.ofNat depth) p = .more ∨
      (∃ r, recordStep (parseRecords data) data size offset (UInt8.ofNat depth) p = .stop r ∧
        r.1.Rejects ∧
        (r.2.validPrefix = p.validPrefix ∨
          ∃ f, decodeRecordPrefix data size offset (UInt8.ofNat depth) = .frame f ∧
          offset < r.2.validPrefix ∧ r.2.validPrefix < f.crcEnd)) ∨
      ∃ record p', record.IsRecord ∧ Passed data size offset depth p record p' ∧
        recordStep (parseRecords data) data size offset (UInt8.ofNat depth) p =
          .go (offset + record.bytes.length) p' :=
  round_of depth hsize hmax hc hoff fun d _ h1 h2 h3 hq =>
    parseRecords_decompose d h2 (h3.trans hsize) (h3.trans hmax) hq (by omega)

end

end Tide
