import Tide.Format.Depth

/-!
# The records of a file

A record lies where it does whatever the parser makes of it: `Occurs` walks over the
records of a range, one behind the other, and into groups. The bytes of a record tell
where it ends, so there is one walk (`framed_unique`), and what holds of each record of a
forest holds of each record that the walk comes to (`Forest.Each.of_occurs`).

A range that is accepted, by any client and whichever allocations succeed, is a forest of
records that pass their checks (`forest_of_parse`): they are within the limits, and a footer
says where it ends.
-/

namespace Tide

open Theory

variable {σ : Type}

/-- A record that lies in a range. -/
structure Framed (data : Bytes) (size offset : ℕ) (h : RecordHead) (payload : Bytes) : Prop where
  alignment : h.alignmentLog2 ≤ 4
  lies : Lies data offset (h.bytes payload)
  le : offset + h.size payload.length ≤ size

instance (data bytes : Bytes) (offset : ℕ) :
    Decidable (Lies data offset bytes) := inferInstanceAs (Decidable (_ = _))

instance (data : Bytes) (size offset : ℕ) (h : RecordHead) (payload : Bytes) :
    Decidable (Framed data size offset h payload) :=
  decidable_of_iff (h.alignmentLog2 ≤ 4 ∧ Lies data offset (h.bytes payload) ∧
    offset + h.size payload.length ≤ size)
    ⟨fun ⟨ha, hl, hle⟩ => ⟨ha, hl, hle⟩, fun hf => ⟨hf.alignment, hf.lies, hf.le⟩⟩

/-- **The records of a range** that is in `level` groups: the record `h` with its payload is at
`place`, in `depth` groups. -/
inductive Occurs (data : Bytes) (place : ℕ) (h : RecordHead) (payload : Bytes) (depth : ℕ) :
    (size offset level : ℕ) → Prop where
  | here {size : ℕ} (hf : Framed data size place h payload) : Occurs data place h payload depth
      size place depth
  | next {size offset level : ℕ} {h' : RecordHead} {payload' : Bytes}
      (hf : Framed data size offset h' payload')
      (hrest : Occurs data place h payload depth size (offset + h'.size payload'.length) level) :
      Occurs data place h payload depth size offset level
  | inside {size offset level : ℕ} {h' : RecordHead} {m : GroupMeta} {children : Bytes}
      (hf : Framed data size offset h' (groupPayload m children)) (ht : h'.type =
        RecordType.group.code)
      (hin : Occurs data place h payload depth (Forest.childOffset h' children.length offset +
        children.length)
        (Forest.childOffset h' children.length offset) (level + 1)) :
          Occurs data place h payload depth size offset level

/-- `P` of each record of a forest and its place. -/
def Forest.Each (P : ℕ → RecordHead → Bytes → Prop) : ℕ → Forest → Prop
  | _, .nil => True
  | offset, .leaf h payload next =>
    h.type ≠ RecordType.group.code ∧ P offset h payload ∧
      next.Each P (offset + h.size payload.length)
  | offset, .group h m children next =>
    h.type = RecordType.group.code ∧ P offset h (groupPayload m children.bytes) ∧
      children.Each P (Forest.childOffset h children.bytes.length offset) ∧
      next.Each P (offset + h.size (20 + children.bytes.length))

theorem Forest.each_append_iff {P : ℕ → RecordHead → Bytes → Prop} {offset : ℕ} {f g : Forest} :
    (f.append g).Each P offset ↔ f.Each P offset ∧ g.Each P (offset + f.bytes.length) := by
  induction f generalizing offset with
  | nil => simp [Forest.append, Forest.Each, Forest.bytes]
  | leaf h payload next ih =>
    simp only [Forest.append, Forest.Each, ih, Forest.bytes, List.length_append, h.length_bytes,
      Nat.add_assoc, and_assoc]
  | group h m children next _ ih =>
    simp only [Forest.append, Forest.Each, ih, Forest.bytes, List.length_append, h.length_bytes,
      length_groupPayload, Nat.add_assoc, and_assoc]

/-! ### One walk -/

theorem groupPayload_inj {m m' : GroupMeta} {children children' : Bytes}
    (h : groupPayload m children = groupPayload m' children') :
    m = m' ∧ children = children' := by
  obtain ⟨hm, hchildren⟩ := List.append_inj h (by simp only [GroupMeta.length_bytes])
  refine ⟨?_, hchildren⟩
  simp only [GroupMeta.bytes] at hm
  obtain ⟨hkind, hm⟩ := List.append_inj hm rfl
  obtain ⟨hreserved, hm⟩ := List.append_inj hm rfl
  obtain ⟨-, hsequence⟩ := List.append_inj hm rfl
  cases m
  cases m'
  rw [GroupMeta.mk.injEq]
  exact ⟨writeU16_inj hkind, writeU16_inj hreserved, writeU64_inj hsequence⟩

/-- The bytes of a record say which record it is. -/
theorem RecordHead.bytes_inj {h h' : RecordHead} {payload payload' : Bytes}
    (hlen : payload.length = payload'.length) (hsequence : h.sequence = h'.sequence)
    (heq : h.bytes payload = h'.bytes payload') : h = h' ∧ payload = payload' := by
  have hsize : h.headerSize payload.length = h'.headerSize payload'.length := by
    rw [RecordHead.headerSize, RecordHead.headerSize, hlen, hsequence]
  simp only [RecordHead.bytes, RecordHead.body, List.append_assoc] at heq
  obtain ⟨hpre, hrest⟩ :=
    List.append_inj heq (by rw [length_prefixBytes, length_prefixBytes, hsize])
  obtain ⟨hpay, -⟩ := List.append_inj hrest hlen
  simp only [RecordHead.prefixBytes, List.append_assoc] at hpre
  obtain ⟨htype, hpre⟩ := List.append_inj hpre rfl
  obtain ⟨hflags, hpre⟩ := List.append_inj hpre rfl
  obtain ⟨-, hpre⟩ := List.append_inj hpre rfl
  obtain ⟨hbytes, -⟩ := List.append_inj hpre rfl
  rw [List.cons.injEq, List.cons.injEq] at hbytes
  exact ⟨RecordHead.ext (writeU16_inj htype) (writeU16_inj hflags) hbytes.1 hbytes.2.1 hsequence,
    hpay⟩

section

variable {data : Bytes} {size size' offset : ℕ} {h h' : RecordHead} {payload payload' : Bytes}

/-- `tide_decode_record_prefix` finds a record where it lies. -/
theorem Framed.frame_eq (hf : Framed data size offset h payload) (hsize : size ≤ data.length)
    (hmax : size ≤ sizeMax) (hoff : 72 ≤ offset) (depth : UInt8) :
    decodeRecordPrefix data size offset depth = .frame (h.frameAt offset payload.length depth) :=
  ((framed_iff hsize hmax).mpr ⟨h, payload, hf.alignment,
    h.sizeFits_of_le hf.alignment hoff (hf.le.trans hmax), hf.lies, hf.le, rfl⟩).1

/-- **One record lies at a place.** -/
theorem framed_unique (hoff : 72 ≤ offset) (hsize : size ≤ data.length) (hmax : size ≤ sizeMax)
    (hsize' : size' ≤ data.length) (hmax' : size' ≤ sizeMax)
    (hf : Framed data size offset h payload) (hf' : Framed data size' offset h' payload') :
    h = h' ∧ payload = payload' := by
  have hmaxsize := max_le hsize hsize'
  have hmaxmax := max_le hmax hmax'
  have hf₁ : Framed data (max size size') offset h payload :=
    ⟨hf.alignment, hf.lies, hf.le.trans (le_max_left ..)⟩
  have hf₂ : Framed data (max size size') offset h' payload' :=
    ⟨hf'.alignment, hf'.lies, hf'.le.trans (le_max_right ..)⟩
  have heq := Framing.frame.inj ((hf₁.frame_eq hmaxsize hmaxmax hoff 0).symm.trans
    (hf₂.frame_eq hmaxsize hmaxmax hoff 0))
  have hoffset : offset + h.headerSize payload.length = offset + h'.headerSize payload'.length :=
    congrArg RecordFrame.payloadOffset heq
  have hend : offset + h.headerSize payload.length + payload.length = offset +
      h'.headerSize payload'.length + payload'.length :=
    congrArg RecordFrame.payloadEnd heq
  have hsz : offset + h.size payload.length = offset + h'.size payload'.length :=
    congrArg RecordFrame.crcEnd heq
  refine RecordHead.bytes_inj (by omega) (congrArg RecordFrame.sequence heq) ?_
  have hl := hf.lies
  have hl' := hf'.lies
  rw [Lies, RecordHead.length_bytes] at hl hl'
  rw [← hl, ← hl', Nat.add_left_cancel hsz]

variable {P : ℕ → RecordHead → Bytes → Prop} {f : Forest}

/-- At a forest that is not empty a record lies. -/
theorem Forest.Each.first (hP : ∀ {place h payload}, P place h payload → h.alignmentLog2 ≤ 4)
    (hf : f.Each P offset) (hl : Lies data offset f.bytes) (hend : offset + f.bytes.length ≤ size)
    (hne : f ≠ .nil) :
    ∃ h payload, Framed data size offset h payload := by
  cases f with
  | nil => exact absurd rfl hne
  | leaf h payload next =>
    obtain ⟨hl', -⟩ := lies_append_iff.mp hl
    simp only [Forest.bytes, List.length_append, h.length_bytes] at hend
    exact ⟨h, payload, hP hf.2.1, hl', by omega⟩
  | group h m children next =>
    obtain ⟨hl', -⟩ := lies_append_iff.mp hl
    simp only [Forest.bytes, List.length_append, h.length_bytes] at hend
    exact ⟨h, groupPayload m children.bytes, hP hf.2.1, hl', by omega⟩

/-- The forest of a range begins with the record that lies there. -/
theorem Forest.Each.begins (hP : ∀ {place h payload}, P place h payload → h.alignmentLog2 ≤ 4)
    (hf : f.Each P offset) (hl : Lies data offset f.bytes) (hend : offset + f.bytes.length = size)
    (hsize : size ≤ data.length) (hmax : size ≤ sizeMax) (hoff : 72 ≤ offset)
    (hfr : Framed data size offset h payload) :
    (∃ next, f = .leaf h payload next) ∨ ∃ m children next, f = .group h m children next ∧
      payload = groupPayload m children.bytes := by
  have hge := h.size_ge payload.length
  have hle := hfr.le
  cases f with
  | nil =>
    simp only [Forest.bytes, List.length_nil] at hend
    omega
  | leaf h' payload' next =>
    obtain ⟨hl', -⟩ := lies_append_iff.mp hl
    simp only [Forest.bytes, List.length_append, RecordHead.length_bytes] at hend
    obtain ⟨rfl, rfl⟩ := framed_unique hoff hsize hmax hsize hmax hfr ⟨hP hf.2.1, hl', by omega⟩
    exact .inl ⟨next, rfl⟩
  | group h' m children next =>
    obtain ⟨hl', -⟩ := lies_append_iff.mp hl
    simp only [Forest.bytes, List.length_append, RecordHead.length_bytes] at hend
    obtain ⟨rfl, rfl⟩ := framed_unique hoff hsize hmax hsize hmax hfr ⟨hP hf.2.1, hl', by omega⟩
    exact .inr ⟨m, children, next, rfl, rfl⟩

/-- What is behind the first record of a forest. -/
theorem Forest.Each.behind (hP : ∀ {place h payload}, P place h payload → h.alignmentLog2 ≤ 4)
    (hf : f.Each P offset) (hl : Lies data offset f.bytes) (hend : offset + f.bytes.length = size)
    (hsize : size ≤ data.length) (hmax : size ≤ sizeMax) (hoff : 72 ≤ offset)
    (hfr : Framed data size offset h payload) :
    P offset h payload ∧ ∃ next : Forest, next.Each P (offset + h.size payload.length) ∧
      Lies data (offset + h.size payload.length) next.bytes ∧
        offset + h.size payload.length + next.bytes.length = size := by
  obtain ⟨next, rfl⟩ | ⟨m, children, next, rfl, rfl⟩ := hf.begins hP hl hend hsize hmax hoff hfr
  · obtain ⟨-, hl'⟩ := lies_append_iff.mp hl
    simp only [Forest.bytes, List.length_append, RecordHead.length_bytes] at hend hl'
    exact ⟨hf.2.1, next, hf.2.2, hl', by omega⟩
  · obtain ⟨-, hl'⟩ := lies_append_iff.mp hl
    have hnext := hf.2.2.2
    simp only [Forest.bytes, List.length_append, RecordHead.length_bytes] at hend hl'
    rw [← length_groupPayload m] at hnext
    exact ⟨hf.2.1, next, hnext, hl', by omega⟩

/-- What is in the first record of a forest, if it is a group. -/
theorem Forest.Each.within (hP : ∀ {place h payload}, P place h payload → h.alignmentLog2 ≤ 4)
    (hf : f.Each P offset) (hl : Lies data offset f.bytes) (hend : offset + f.bytes.length = size)
    (hsize : size ≤ data.length) (hmax : size ≤ sizeMax) (hoff : 72 ≤ offset) {m : GroupMeta}
    {children : Bytes} (hfr : Framed data size offset h (groupPayload m children))
    (ht : h.type = RecordType.group.code) :
    ∃ inner : Forest, inner.Each P (Forest.childOffset h children.length offset) ∧
      Lies data (Forest.childOffset h children.length offset) inner.bytes ∧
        inner.bytes = children := by
  obtain ⟨next, rfl⟩ | ⟨m', children', next, rfl, heq⟩ := hf.begins hP hl hend hsize hmax hoff hfr
  · exact absurd ht hf.1
  · obtain ⟨-, rfl⟩ := groupPayload_inj heq
    exact ⟨children', hf.2.2.1, (lies_group hfr.lies).1, rfl⟩

/-- A group ends behind its children. -/
theorem Framed.children_le {m : GroupMeta} {children : Bytes}
    (hfr : Framed data size offset h (groupPayload m children)) :
    offset < Forest.childOffset h children.length offset ∧
      Forest.childOffset h children.length offset + children.length + 4 ≤ offset +
        h.size (groupPayload m children).length ∧
      offset + h.size (groupPayload m children).length ≤ size := by
  have hle := hfr.le
  have hinside := Forest.children_inside h children.length offset
  rw [length_groupPayload] at hle ⊢
  exact ⟨hinside.1, hinside.2, hle⟩

/-- **One forest lies at a place**: of two that do, the longer one goes on where the shorter
one ends. -/
theorem Forest.Each.prefix_unique {Q : ℕ → RecordHead → Bytes → Prop} {g : Forest}
    (hP : ∀ {place h payload}, P place h payload → h.alignmentLog2 ≤ 4)
    (hQ : ∀ {place h payload}, Q place h payload → h.alignmentLog2 ≤ 4) (hf : f.Each P offset)
    (hl : Lies data offset f.bytes) (hg : g.Each Q offset) (hlg : Lies data offset g.bytes)
    (hle : g.bytes.length ≤ f.bytes.length) (hend : offset + f.bytes.length = size)
    (hsize : size ≤ data.length) (hmax : size ≤ sizeMax) (hoff : 72 ≤ offset) :
    ∃ rest, f = g.append rest := by
  induction g generalizing f offset size with
  | nil => exact ⟨f, rfl⟩
  | leaf h payload next ih =>
    obtain ⟨hlh, hlnext⟩ := lies_append_iff.mp hlg
    rw [h.length_bytes] at hlnext
    simp only [Forest.bytes, List.length_append, h.length_bytes] at hle
    have hfr : Framed data size offset h payload := ⟨hQ hg.2.1, hlh, by omega⟩
    obtain ⟨next', rfl⟩ | ⟨m, children, next', rfl, rfl⟩ := hf.begins hP hl hend hsize hmax hoff hfr
    swap
    · exact absurd hf.1 hg.1
    obtain ⟨-, hl'⟩ := lies_append_iff.mp hl
    rw [h.length_bytes] at hl'
    simp only [Forest.bytes, List.length_append, h.length_bytes] at hle hend
    obtain ⟨rest, hrest⟩ := ih hf.2.2 hl' hg.2.2 hlnext (by omega) (by omega) hsize hmax (by omega)
    exact ⟨rest, by rw [hrest]; rfl⟩
  | group h m children next ihc ih =>
    obtain ⟨hlh, hlnext⟩ := lies_append_iff.mp hlg
    rw [h.length_bytes, length_groupPayload] at hlnext
    simp only [Forest.bytes, List.length_append, h.length_bytes] at hle
    have hfr : Framed data size offset h (groupPayload m children.bytes) :=
      ⟨hQ hg.2.1, hlh, by omega⟩
    obtain ⟨next', rfl⟩ | ⟨m', children', next', rfl, heq⟩ :=
      hf.begins hP hl hend hsize hmax hoff hfr
    · exact absurd hg.1 hf.1
    obtain ⟨rfl, hbytes⟩ := groupPayload_inj heq
    have hinner := hfr.children_le
    -- the children lie at one place and are of one length
    obtain ⟨rest, hrest⟩ :=
      ihc (by rw [hbytes]; exact hf.2.2.1) (by rw [← hbytes]; exact (lies_group hlh).1) hg.2.2.1
      (lies_group hlh).1 (by rw [hbytes]) (show Forest.childOffset h children.bytes.length offset +
        children'.bytes.length =
        Forest.childOffset h children.bytes.length offset + children.bytes.length by rw [hbytes])
          (by omega) (by omega) (by omega)
    obtain rfl : children' = children := by
      have hnil : rest.bytes = [] := by simpa [hbytes] using congrArg Forest.bytes hrest
      rw [hrest, Forest.eq_nil_of_bytes hnil, Forest.append_nil]
    obtain ⟨-, hl'⟩ := lies_append_iff.mp hl
    have hnext := hf.2.2.2
    rw [h.length_bytes, length_groupPayload] at hl'
    simp only [Forest.bytes, List.length_append, h.length_bytes, length_groupPayload] at hle hend
    obtain ⟨rest', hrest'⟩ := ih hnext hl' hg.2.2.2 hlnext (by omega) (by omega) hsize hmax
      (by omega)
    exact ⟨rest', by rw [hrest']; rfl⟩

/-- Two forests of one length that lie at a place are the same. -/
theorem Forest.Each.unique {Q : ℕ → RecordHead → Bytes → Prop} {g : Forest}
    (hP : ∀ {place h payload}, P place h payload → h.alignmentLog2 ≤ 4)
    (hQ : ∀ {place h payload}, Q place h payload → h.alignmentLog2 ≤ 4) (hf : f.Each P offset)
    (hl : Lies data offset f.bytes) (hg : g.Each Q offset) (hlg : Lies data offset g.bytes)
    (hlen : f.bytes.length = g.bytes.length) (hend : offset + f.bytes.length = size)
    (hsize : size ≤ data.length) (hmax : size ≤ sizeMax) (hoff : 72 ≤ offset) : f = g := by
  obtain ⟨rest, rfl⟩ := hf.prefix_unique hP hQ hl hg hlg (by omega) hend hsize hmax hoff
  rw [Forest.bytes_append, List.length_append] at hlen
  obtain rfl := Forest.eq_nil_of_bytes (f := rest) (List.length_eq_zero_iff.mp (by omega))
  rw [Forest.append_nil]

/-- **What holds of each record of a forest** holds of each record that occurs in it. -/
theorem Forest.Each.of_occurs (hP : ∀ {place h payload}, P place h payload → h.alignmentLog2 ≤ 4)
    {place level depth : ℕ} (hocc : Occurs data place h payload depth size offset level)
    (hf : f.Each P offset) (hl : Lies data offset f.bytes) (hend : offset + f.bytes.length = size)
    (hsize : size ≤ data.length) (hmax : size ≤ sizeMax) (hoff : 72 ≤ offset) :
    P place h payload := by
  induction hocc generalizing f with
  | here hfr => exact (hf.behind hP hl hend hsize hmax hoff hfr).1
  | next hfr _ ih =>
    obtain ⟨-, next, hnext, hl', hend'⟩ := hf.behind hP hl hend hsize hmax hoff hfr
    exact ih hnext hl' hend' hsize hmax (by omega)
  | inside hfr ht _ ih =>
    obtain ⟨inner, hinner, hl', rfl⟩ := hf.within hP hl hend hsize hmax hoff hfr ht
    have hle := hfr.children_le
    exact ih hinner hl' rfl (by omega) (by omega) (by omega)

end

/-! ### Records that pass their checks -/

/-- The reads of the number of entries of a table of a track. -/
def readTableCount : Reads UInt8 UInt64 := do
  let _trackId ← readerReadU32
  let _generation ← readerReadU32
  readerReadUleb128

/-- The number of entries that a packet table or an edit list gives. -/
def tableCount (payload : Bytes) : Option UInt64 :=
  (readTableCount.run (readerInit payload)).map Prod.fst

/-- What is checked of each record that is accepted, as far as the limits and the end of the
file are concerned. -/
structure Checked (L : Limits) (place : ℕ) (h : RecordHead) (payload : Bytes) : Prop where
  head : HeadOk L h payload.length
  packetTable : h.type = RecordType.packetTable.code → ∃ n, tableCount payload = some n ∧
    n.toNat ≤ L.maxPacketTableEntries.toNat
  editList : h.type = RecordType.editList.code → ∃ n, tableCount payload = some n ∧
    n.toNat ≤ L.maxEditEntries.toNat
  /-- A footer gives its own end for the length of the file. -/
  footer : h.type = RecordType.footer.code → ∃ length directory digest,
    wholePayload readFooter payload = some (length, directory, digest) ∧
      length.toNat = place + h.size payload.length

theorem orError_ok {α : Type} {e : Error} {p : Reads UInt8 α} {reader : Reader} {x : α × Reader}
    (h : (orError e p).run reader = .ok x) : p.run reader = some x := by
  unfold orError at h
  rw [StateT.run] at h
  split at h
  · rename_i y hy
    cases h
    exact hy
  · cases h

/-- A program whose first part fails fails. -/
theorem Checks.bind_ok {α β : Type} {c : Checks α} {k : α → Checks β} {reader : Reader}
    {x : β × Reader} (h : (c >>= k).run reader = .ok x) :
    ∃ a reader', c.run reader = .ok (a, reader') ∧ (k a).run reader' = .ok x := by
  rw [StateT.run_bind] at h
  cases hc : c.run reader with
  | error e =>
    rw [hc] at h
    cases h
  | ok y =>
    rw [hc] at h
    exact ⟨y.1, y.2, rfl, h⟩

/-- The head of a table that is accepted gives a number of entries within the limit. -/
theorem tableCount_of_head {tracks : List TrackSnapshot} {maxEntries : UInt32} {payload : Bytes}
    {x : UInt64 × Reader}
    (h : (readTableHead tracks maxEntries).run (readerInit payload) = some x) :
    ∃ n, tableCount payload = some n ∧ n.toNat ≤ maxEntries.toNat := by
  unfold readTableHead at h
  simp only [StateT.run_bind, Option.bind_eq_bind, Option.bind_eq_some_iff] at h
  obtain ⟨⟨trackId, r₁⟩, h₁, ⟨generation, r₂⟩, h₂, ⟨count, r₃⟩, h₃, ⟨u, r₄⟩, h₄, -⟩ := h
  refine ⟨count, ?_, ?_⟩
  · unfold tableCount readTableCount
    simp only [StateT.run_bind, Option.bind_eq_bind, h₁, h₂, h₃, Option.bind_some, Option.map_some]
  · by_contra hgt
    rw [guard, if_neg] at h₄
    · cases h₄
    · rw [not_not, gt_iff_lt, UInt64.lt_iff_toNat_lt, UInt32.toNat_toUInt64]
      exact Nat.not_le.mp hgt

/-- **What a record that passes its check says.** -/
theorem checked_of_ok {L : Limits} {tracks : List TrackSnapshot} {place : ℕ} {depth : UInt8}
    {h : RecordHead} {fileData payload : Bytes} (hhead : HeadOk L h payload.length)
    (hok : emitSimpleRecord L tracks (h.frameAt place payload.length depth) fileData payload =
      .ok ()) :
    Checked L place h payload := by
  have hrun : ∃ x, (simpleRecordChecks L tracks (h.frameAt place payload.length depth) fileData).run
      (readerInit payload) = .ok x := by
    unfold emitSimpleRecord StateT.run' at hok
    cases hr : simpleRecordChecks L tracks (h.frameAt place payload.length depth) fileData
      (readerInit payload) with
    | error e =>
      rw [hr] at hok
      cases hok
    | ok x => exact ⟨x, hr⟩
  have htype : (h.frameAt place payload.length depth).type = h.type := rfl
  obtain ⟨x, hrun⟩ := hrun
  unfold simpleRecordChecks at hrun
  rw [htype] at hrun
  refine ⟨hhead, fun ht => ?_, fun ht => ?_, fun ht => ?_⟩
  · rw [ht, recordTypeOf_code] at hrun
    obtain ⟨count, reader, hcount, -⟩ := Checks.bind_ok hrun
    exact tableCount_of_head (orError_ok hcount)
  · rw [ht, recordTypeOf_code] at hrun
    obtain ⟨count, reader, hcount, -⟩ := Checks.bind_ok hrun
    exact tableCount_of_head (orError_ok hcount)
  · rw [ht, recordTypeOf_code] at hrun
    obtain ⟨⟨length, directory, digest⟩, reader, hread, hrest⟩ := Checks.bind_ok hrun
    obtain ⟨u, reader', hend, hrest⟩ := Checks.bind_ok hrest
    obtain ⟨bs, post, hG, hpay, rfl⟩ := (decodes_footer [] payload _ _).mp (orError_ok hread)
    have hpost : post = [] := by
      change (if _ then Except.error _ else .ok ((), Cursor.mid ([] ++ bs) post)) = _ at hend
      split at hend
      · cases hend
      · rename_i hlen
        simpa using hlen
    rw [hpost, List.append_nil] at hpay
    subst hpay
    have hwhole := (wholePayload_eq_some_iff decodes_footer payload (length, directory,
      digest)).mpr hG
    exact ⟨length, directory, digest, hwhole,
      ((emitSimpleRecord_footer ht length directory digest hwhole).mp hok).1⟩

section

variable {data payload : Bytes} {size offset : ℕ} {h : RecordHead} {p : Parsing σ}

/-- A group is closed with `OK` if its children were parsed with it. -/
theorem closeGroup_eq_ok {frame : RecordFrame} {r : Status × Parsing σ} {q : Parsing σ}
    (hok : closeGroup frame r = (.ok, q)) :
    r = (.ok, q) := by
  by_cases hne : r.1 = .truncated
  · rcases r with ⟨st, q'⟩
    subst hne
    cases congrArg Prod.fst hok
  · rwa [closeGroup_of_ne hne] at hok

/-- **A record that is processed with `OK`** passes its check, and if it is a group, then its
children are parsed with `OK`. -/
theorem processRecord_ok {parse : ParseRecords σ} {depth : ℕ} {q : Parsing σ}
    (hf : Found data p.limits offset size offset h payload)
    (hok : processRecord parse data (h.frameAt offset payload.length (UInt8.ofNat depth)) p =
      (.ok, q)) :
    Checked p.limits offset h payload ∧ (h.type = RecordType.group.code →
      ∃ m children, payload = groupPayload m children ∧
      (p.notify (headEvent h payload.length offset depth)).1 = .ok ∧
      parse (offset + h.headerSize payload.length + 20)
        (offset + h.headerSize payload.length + payload.length)
        (UInt8.ofNat (depth + 1)) (p.notify (headEvent h payload.length offset depth)).2 =
          (.ok, q)) := by
  -- a type that has no check of its own passes
  have hplain : simpleRecordChecks p.limits p.tracks (h.frameAt offset payload.length
      (UInt8.ofNat depth)) data = pure () → Checked p.limits offset h payload := by
    intro hpure
    have hemit : emitSimpleRecord p.limits p.tracks (h.frameAt offset payload.length
        (UInt8.ofNat depth)) data payload = .ok () := by
      rw [emitSimpleRecord, hpure]
      rfl
    exact checked_of_ok hf.head hemit
  have htyped : ∀ {t : RecordType}, h.type = t.code →
      recordTypeOf (h.frameAt offset payload.length (UInt8.ofNat depth)).type = some t :=
    fun ht => (recordTypeOf_eq_some_iff ..).mpr ht
  have hprocessed := hf.processed parse depth p
  generalize processRecord parse data (h.frameAt offset payload.length (UInt8.ofNat depth)) p =
    r at hprocessed hok
  cases hprocessed with
  | unanswered hne => exact absurd (congrArg Prod.fst hok) hne
  | skipped _ hskip =>
    refine ⟨hplain (by rw [simpleRecordChecks, recordTypeOf_of_skippable hskip]), fun ht => ?_⟩
    rw [show (h.frameAt offset payload.length (UInt8.ofNat depth)).type = RecordType.group.code
      from ht, skippable_code] at hskip
    cases hskip
  | stream _ ht =>
    refine ⟨hplain (by rw [simpleRecordChecks, htyped ht]), fun hg => ?_⟩
    cases hg.symm.trans ht
  | packet _ ht =>
    refine ⟨hplain (by rw [simpleRecordChecks, htyped ht]), fun hg => ?_⟩
    cases hg.symm.trans ht
  | opened hannounced ht hm =>
    obtain ⟨m, children, hm⟩ := hm
    refine ⟨hplain (by rw [simpleRecordChecks, htyped ht]),
      fun _ => ⟨m, children, hm, hannounced, ?_⟩⟩
    rw [show (h.frameAt offset payload.length (UInt8.ofNat depth)).depth + 1 =
      UInt8.ofNat (depth + 1) from depth_succ depth] at hok
    exact closeGroup_eq_ok hok
  | checked _ ht hcheck => exact ⟨checked_of_ok hf.head hcheck, fun hg => absurd hg ht⟩
  | refused _ e he => exact absurd (congrArg Prod.fst hok) he.1

end

/-! ### Runs over records -/

/-- A relation between the state before a run over records, the records, and the state behind
it, which holds of every record that is processed with `OK`. -/
structure Tracked (data : Bytes) (K : Parsing σ → Forest → Parsing σ → Prop) : Prop where
  nil : ∀ p, K p .nil p
  append : ∀ {p q r f g} (v : ℕ), K p f q → K { q with validPrefix := v } g r → K p (f.append g) r
  leaf : ∀ {p q : Parsing σ} {h payload offset depth} {parse : ParseRecords σ}, p.error.code = .ok →
    Found data p.limits offset (offset + h.size payload.length) offset h payload →
      h.type ≠ RecordType.group.code →
    processRecord parse data (h.frameAt offset payload.length (UInt8.ofNat depth)) p = (.ok, q) →
      K p (.leaf h payload .nil) q
  group : ∀ {p q : Parsing σ} {h m} {children : Forest} {offset depth},
    (p.notify (headEvent h (groupPayload m children.bytes).length offset depth)).1 = .ok →
    K (p.notify (headEvent h (groupPayload m children.bytes).length offset depth)).2 children q →
      K p (.group h m children .nil) q

/-- How a run over a range that comes to `place` in the state `q` ends, with `OK` or
`TRUNCATED`: at the end of the range, at a record that is not complete, or at one that is
processed with `TRUNCATED`. -/
inductive RunEnds (data : Bytes) (size depth place : ℕ) (q : Parsing σ) : Status × Parsing σ → Prop
  | done (hend : place = size) : RunEnds data size depth place q (.ok, q)
  | waits : RunEnds data size depth place q (.truncated, { q with validPrefix := place })
  | answered {h : RecordHead} {payload : Bytes} {r : Status × Parsing σ}
      (hf : Found data q.limits place (place + h.size payload.length) place h payload)
        (hle : place + h.size payload.length ≤ size)
      (hr : processRecord (parseRecords data) data
        (h.frameAt place payload.length (UInt8.ofNat depth)) q = r)
      (hst : r.1 = .truncated) : RunEnds data size depth place q r

section

variable {data payload : Bytes} {size offset : ℕ} {h : RecordHead} {p : Parsing σ} {K : Parsing σ →
    Forest → Parsing σ → Prop}

/-- A record that is processed with `OK`, as a forest, if its children are one. -/
theorem record_of_ok (hK : Tracked data K) {parse : ParseRecords σ} {depth : ℕ} {q : Parsing σ}
    (herr : p.error.code = .ok)
    (hf : Found data p.limits offset (offset + h.size payload.length) offset h payload)
    (hok : processRecord parse data (h.frameAt offset payload.length (UInt8.ofNat depth)) p =
      (.ok, q))
    (hparse : ∀ {m children}, payload = groupPayload m children →
      parse (offset + h.headerSize payload.length + 20)
        (offset + h.headerSize payload.length + payload.length) (UInt8.ofNat (depth + 1))
          (p.notify (headEvent h payload.length offset depth)).2 = (.ok, q) →
            ∃ f : Forest, f.Each (Checked p.limits) (offset + h.headerSize payload.length + 20) ∧
              Lies data (offset + h.headerSize payload.length + 20) f.bytes ∧
                20 + f.bytes.length = payload.length ∧
                  K (p.notify (headEvent h payload.length offset depth)).2 f q) :
    ∃ r : Forest, r.Each (Checked p.limits) offset ∧ r.bytes = h.bytes payload ∧ K p r q := by
  obtain ⟨hchecked, hgroup⟩ := processRecord_ok hf hok
  by_cases ht : h.type = RecordType.group.code
  swap
  · exact ⟨.leaf h payload .nil, ⟨ht, hchecked, trivial⟩, List.append_nil _, hK.leaf herr hf ht hok⟩
  obtain ⟨m, children, rfl, hannounced, hchildren⟩ := hgroup ht
  obtain ⟨inner, heach, hlinner, hend, hrel⟩ := hparse rfl hchildren
  have hlen := length_groupPayload m children
  -- the children that were accepted are all of the group's payload
  obtain rfl : inner.bytes = children := by
    have hco := (lies_group hf.lies).1
    rw [Forest.childOffset, ← hlen] at hco
    rw [Lies, show inner.bytes.length = children.length by omega] at hlinner
    exact hlinner.symm.trans hco
  refine ⟨.group h m inner .nil, ⟨ht, hchecked, ?_, trivial⟩, List.append_nil _,
    hK.group hannounced hrel⟩
  rw [Forest.childOffset, ← hlen]
  exact heach

/-- **A run over a range that is accepted, or waited for**, by any client: it goes over a forest
of records that pass their checks, and ends there. -/
theorem run_of_parse (hK : Tracked data K) {depth : ℕ} (herr : p.error.code = .ok)
    (hle : offset ≤ size) (hsize : size ≤ data.length) (hmax : size ≤ sizeMax) (hoff : 72 ≤ offset)
    {r : Status × Parsing σ} (hr : parseRecords data offset size (UInt8.ofNat depth) p = r)
    (hst : r.1 = .ok ∨ r.1 = .truncated) :
    ∃ (f : Forest) (q : Parsing σ), f.Each (Checked p.limits) offset ∧ Lies data offset f.bytes ∧
      offset + f.bytes.length ≤ size ∧
      K p f q ∧ q.limits = p.limits ∧ q.error = p.error ∧
        (p.validPrefix = offset → q.validPrefix = offset + f.bytes.length) ∧
      RunEnds data size depth (offset + f.bytes.length) q r := by
  induction hn : size - offset using Nat.strongRecOn generalizing size offset depth p r with
  | ind n ih =>
    subst hn
    -- where the loop stops it has come to `offset`
    have hstops : RunEnds data size depth offset p r →
        ∃ (f : Forest) (q : Parsing σ), f.Each (Checked p.limits) offset ∧
          Lies data offset f.bytes ∧ offset + f.bytes.length ≤ size ∧
          K p f q ∧ q.limits = p.limits ∧ q.error = p.error ∧
            (p.validPrefix = offset → q.validPrefix = offset + f.bytes.length) ∧
          RunEnds data size depth (offset + f.bytes.length) q r :=
      fun hends => ⟨.nil, p, trivial, rfl, hle, hK.nil p, rfl, rfl, fun hv => hv, hends⟩
    by_cases hlt : offset < size
    swap
    · rw [parseRecords_eq data hmax, if_neg hlt, if_neg (by omega)] at hr
      exact hstops (hr ▸ .done (by omega))
    obtain hmore | ⟨e, he, hstop⟩ | ⟨h, payload, hhead, hl, hend, -, -⟩ :=
      recordStep_cases (parseRecords data) (UInt8.ofNat depth) p hsize hmax
    · rw [parseRecords_eq data hmax, if_pos hlt, hmore] at hr
      exact hstops (hr ▸ .waits)
    · rw [parseRecords_eq data hmax, if_pos hlt, hstop] at hr
      subst hr
      exact absurd hst (not_or.mpr ⟨he.1, he.2.2⟩)
    have hge := h.size_ge payload.length
    have hf : Found data p.limits offset (offset + h.size payload.length) offset h payload :=
      ⟨Nat.le_refl _, Nat.le_refl _, hhead, hl⟩
    obtain ⟨tail, hrec⟩ := visits_record depth herr (hend.trans hsize) (hend.trans hmax) hf
    obtain ⟨hne, -, hstop⟩ | ⟨hrok, -, hloop⟩ :=
      parseRecords_framed depth hsize hmax hoff hhead hl hend rfl
    · rw [hr] at hstop
      exact hstops (.answered hf hend hstop.symm (hst.resolve_left (hstop ▸ hne)))
    generalize hproc : processRecord (parseRecords data) data (h.frameAt offset payload.length
      (UInt8.ofNat depth)) p = r₁
      at hrec hrok hloop
    rcases r₁ with ⟨st, q₁⟩
    subst hrok
    obtain ⟨record, heach, hbytes, hrel⟩ :=
      record_of_ok hK herr hf hproc fun {m children} hm hchildren => by
      have hlen := congrArg List.length hm
      have hinner := hf.children_le
      rw [length_groupPayload] at hlen
      obtain ⟨inner, q, heach, hlinner, -, hrel, -, -, -, hends⟩ :=
        ih (payload.length - 20) (by omega)
        (p := (p.notify (headEvent h payload.length offset depth)).2) herr
        (show offset + h.headerSize payload.length + 20 ≤ offset + h.headerSize payload.length +
          payload.length by omega) (by omega)
        (by omega) (by omega) hchildren (.inl rfl) (by omega)
      cases hends with
      | done hall => exact ⟨inner, heach, hlinner, by omega, hrel⟩
      | answered _ _ _ hst => cases hst
    rw [hr] at hloop
    have hlimits : ({ q₁ with validPrefix := offset + h.size payload.length } : Parsing σ).limits =
      p.limits := hrec.limits
    obtain ⟨next, q, hnext, hlnext, hlenext, hrelnext, hlim, herror, hvnext, hends⟩ :=
      ih (size - (offset + h.size payload.length)) (by omega)
      (p := { q₁ with validPrefix := offset + h.size payload.length })
      ((congrArg Error.code (hrec.allOk rfl).2).trans herr) hend hsize hmax
        (by omega) hloop.symm hst rfl
    rw [hlimits] at hnext
    have hlen : offset + (record.append next).bytes.length = offset + h.size payload.length +
        next.bytes.length := by
      rw [Forest.bytes_append, List.length_append, hbytes, h.length_bytes, Nat.add_assoc]
    refine ⟨record.append next, q, Forest.each_append_iff.mpr ⟨heach, ?_⟩, ?_,
      by omega, hK.append _ hrel hrelnext, hlim.trans hlimits,
      herror.trans (hrec.allOk rfl).2, fun _ => (hvnext rfl).trans hlen.symm, hlen ▸ hends⟩
    · rwa [hbytes, h.length_bytes]
    · rw [Forest.bytes_append, lies_append_iff, hbytes, h.length_bytes]
      exact ⟨hl, hlnext⟩

/-- **A range that is accepted, or waited for**, by any client: up to its end, or up to the
valid prefix, it is a forest of records that pass their checks. -/
theorem forest_of_parse {depth : ℕ} (herr : p.error.code = .ok) (hle : offset ≤ size)
    (hsize : size ≤ data.length) (hmax : size ≤ sizeMax) (hoff : 72 ≤ offset)
    {r : Status × Parsing σ} (hr : parseRecords data offset size (UInt8.ofNat depth) p = r)
    (hst : r.1 = .ok ∨ r.1 = .truncated) :
    ∃ f : Forest, f.Each (Checked p.limits) offset ∧ Lies data offset f.bytes ∧
      offset + f.bytes.length ≤ size ∧
      (r.1 = .ok → offset + f.bytes.length = size) ∧
        (p.validPrefix = offset → offset + f.bytes.length = r.2.validPrefix) := by
  have hK : Tracked data fun _ _ (_ : Parsing σ) => True :=
    ⟨fun _ => trivial, fun _ _ _ => trivial, fun _ _ _ _ => trivial, fun _ _ => trivial⟩
  obtain ⟨f, q, heach, hl, hend, -, -, herror, hv, hends⟩ :=
    run_of_parse hK herr hle hsize hmax hoff hr hst
  refine ⟨f, heach, hl, hend, ?_, fun hvp => ?_⟩
  · cases hends with
    | done hall => exact fun _ => hall
    | waits => exact nofun
    | answered _ _ _ hst =>
      intro hok
      rw [hok] at hst
      cases hst
  · cases hends with
    | done => exact (hv hvp).symm
    | waits => rfl
    | answered hf _ hr hst =>
      rw [hf.validPrefix ((congrArg Error.code herror).trans herr) (hr.trans (Prod.ext hst rfl)),
        hv hvp]

end

/-- **Bytes that are accepted**, by any client and whichever allocations succeed: a forest of
records that pass their checks, behind a header. -/
theorem run_of_parseTideBytes {L : Limits} {callbacks : Callbacks σ} {user : σ}
    {allocs : Stream' Bool} {B : Bytes} {finish : Bool} {K : Parsing σ → Forest → Parsing σ → Prop}
    (hK : Tracked B K) (hB : B.length ≤ sizeMax)
    (hok : (parseTideBytes B finish (some L) callbacks user allocs).1 = .ok) :
    ∃ f : Forest, f.Each (Checked L) 72 ∧ Lies B 72 f.bytes ∧ 72 + f.bytes.length = B.length ∧
      K (Parsing.start (some L) callbacks user allocs) f
        (parseTideBytes B finish (some L) callbacks user allocs).2 := by
  cases hval : validateHeader B L with
  | error e =>
    rw [parseTideBytes_of_error hval, atEnd_eq_ok_iff] at hok
    exact absurd hok (validateHeader_error hval).1
  | ok u =>
    rw [parseTideBytes_of_ok hval] at hok ⊢
    rw [atEnd_eq_ok_iff] at hok
    have hparse : parseRecords B 72 B.length (UInt8.ofNat 0)
        { Parsing.start (some L) callbacks user allocs with validPrefix := 72 } = (.ok, _) :=
          Prod.ext hok rfl
    obtain ⟨f, q, heach, hl, -, hrel, -, -, -, hends⟩ :=
      run_of_parse hK rfl (length_of_validateHeader hval) (Nat.le_refl _) hB
      (Nat.le_refl _) hparse (.inl rfl)
    cases hends with
    | done hend => exact ⟨f, heach, hl, hend, hK.append 72 (hK.nil _) hrel⟩
    | answered _ _ _ hst => cases hst

end Tide
