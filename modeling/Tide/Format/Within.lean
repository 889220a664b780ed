import Tide.Format.Records

/-!
# Other limits

A file that is well formed under one set of limits, read under another. The limits come
in where sizes, depths and counts are compared with them and nowhere else, so the file is
well formed again if and only if it keeps within the new limits
(`Forest.valid_within_iff`), and if it does not, it is refused for that and not taken
for incomplete (`parseTideBytes_within_iff`).
-/

namespace Tide

open Theory

variable {σ : Type}

/-- The reads of the number of descriptors of a checkpoint. -/
def readCheckpointCount : Reads UInt8 UInt64 := do
  let _groupSequence ← readerReadU64
  let _prefixOffset ← readerReadU64
  let _digest ← readerReadBytes 32
  readerReadUleb128

/-- The number of descriptors that a checkpoint gives. -/
def checkpointCount (payload : Bytes) : Option UInt64 :=
  (readCheckpointCount.run (readerInit payload)).map Prod.fst

/-- The number of entries of a table is within its limit. -/
structure TablesWithin (D : Limits) (h : RecordHead) (payload : Bytes) : Prop where
  packetTable : h.type = RecordType.packetTable.code → ∃ n, tableCount payload = some n ∧
    n.toNat ≤ D.maxPacketTableEntries.toNat
  editList : h.type = RecordType.editList.code → ∃ n, tableCount payload = some n ∧
    n.toNat ≤ D.maxEditEntries.toNat
  checkpoint : h.type = RecordType.checkpoint.code → ∃ n, checkpointCount payload = some n ∧
    n.toNat ≤ D.maxTracks.toNat

/-- **A forest within the limits** on sizes, depths and tables. -/
def Forest.Within (D : Limits) : ℕ → Forest → Prop
  | _, .nil => True
  | depth, .leaf h payload next =>
    payload.length ≤ D.maxPayloadSize.toNat ∧ h.size payload.length ≤ D.maxRecordSize.toNat ∧
      TablesWithin D h payload ∧
      next.Within D depth
  | depth, .group h _ children next =>
    20 + children.bytes.length ≤ D.maxPayloadSize.toNat ∧
      h.size (20 + children.bytes.length) ≤ D.maxRecordSize.toNat ∧
      depth < D.maxDepth.toNat ∧ children.Within D (depth + 1) ∧ next.Within D depth

/-! ### Tables -/

theorem type_ne_code {type : UInt16} {t : RecordType}
    (h : recordTypeOf type ≠ some t) : type ≠ t.code :=
  fun ht => h ((recordTypeOf_eq_some_iff ..).mpr ht)

/-- A record of a type that has no table is not limited. -/
theorem tablesWithin_of_type {D : Limits} {h : RecordHead} {payload : Bytes}
    (h₁ : recordTypeOf h.type ≠ some .packetTable) (h₂ : recordTypeOf h.type ≠ some .editList)
    (h₃ : recordTypeOf h.type ≠ some .checkpoint) : TablesWithin D h payload :=
  ⟨fun h => absurd h (type_ne_code h₁), fun h => absurd h (type_ne_code h₂),
    fun h => absurd h (type_ne_code h₃)⟩

/-- The head of a table under another limit. -/
theorem readTableHead_limit {tracks : List TrackSnapshot} {a : UInt32} {reader : Reader}
    {n : UInt64} {r : Reader} (h : (readTableHead tracks a).run reader = some (n, r)) (b : UInt32) :
    (readTableCount.run reader).map Prod.fst = some n ∧
      (readTableHead tracks b).run reader = if n.toNat ≤ b.toNat then some (n, r) else none := by
  unfold readTableHead at h ⊢
  unfold readTableCount
  simp only [StateT.run_bind, Option.bind_eq_bind, Option.bind_eq_some_iff] at h ⊢
  obtain ⟨⟨trackId, r₁⟩, h₁, ⟨generation, r₂⟩, h₂, ⟨count, r₃⟩, h₃, ⟨u, r₄⟩, h₄, ⟨v, r₅⟩, h₅,
      hpure⟩ := h
  obtain ⟨-, hr₄⟩ := run_guard_eq_some h₄
  cases hr₄
  obtain ⟨hfind, hr₅⟩ := run_guard_eq_some h₅
  cases hr₅
  cases hpure
  refine ⟨by simp only [h₁, h₂, h₃, Option.bind_some, Option.map_some], ?_⟩
  simp only [h₁, h₂, h₃, Option.bind_some, run_guard, not_gt_toUInt64_iff, if_pos hfind]
  split <;> rfl

/-- The head of a checkpoint. -/
def readCheckpointHead (frame : RecordFrame) (maxTracks : UInt32) : Reads UInt8 UInt64 := do
  let _groupSequence ← readerReadU64
  let prefixOffset ← readerReadU64
  let _digest ← readerReadBytes 32
  let count ← readerReadUleb128
  guard (¬ prefixOffset.toNat > frame.offset)
  guard (¬ count > maxTracks.toUInt64)
  return count

/-- The head of a checkpoint under another limit. -/
theorem readCheckpointHead_limit {frame : RecordFrame} {a : UInt32} {reader : Reader} {n : UInt64}
    {r : Reader} (h : (readCheckpointHead frame a).run reader = some (n, r)) (b : UInt32) :
    (readCheckpointCount.run reader).map Prod.fst = some n ∧
      (readCheckpointHead frame b).run reader = if n.toNat ≤ b.toNat then some (n, r)
        else none := by
  unfold readCheckpointHead at h ⊢
  unfold readCheckpointCount
  simp only [StateT.run_bind, Option.bind_eq_bind, Option.bind_eq_some_iff] at h ⊢
  obtain ⟨⟨sequence, r₁⟩, h₁, ⟨prefixOffset, r₂⟩, h₂, ⟨digest, r₃⟩, h₃, ⟨count, r₄⟩, h₄, ⟨u, r₅⟩,
      h₅, ⟨v, r₆⟩, h₆, hpure⟩ := h
  obtain ⟨hoffset, hr₅⟩ := run_guard_eq_some h₅
  cases hr₅
  obtain ⟨-, hr₆⟩ := run_guard_eq_some h₆
  cases hr₆
  cases hpure
  refine ⟨by simp only [h₁, h₂, h₃, h₄, Option.bind_some, Option.map_some], ?_⟩
  simp only [h₁, h₂, h₃, h₄, Option.bind_some, run_guard, not_gt_toUInt64_iff, if_pos hoffset]
  split <;> rfl

theorem orError_of_some {α : Type} {e : Error} {p : Reads UInt8 α} {reader : Reader}
    {x : α × Reader} (h : p.run reader = some x) :
    (orError e p).run reader = .ok x := by
  unfold orError
  rw [StateT.run, h]

/-- A check that begins with a head that is limited, under another limit. -/
theorem checks_limit {head : UInt32 → Reads UInt8 UInt64} {count : Reads UInt8 UInt64} {e : Error}
    {rest : UInt64 → Checks Unit} {a b : UInt32} {reader : Reader}
    (hlimit : ∀ {n r}, (head a).run reader = some (n, r) → (count.run reader).map Prod.fst =
      some n ∧ (head b).run reader = if n.toNat ≤ b.toNat then some (n, r) else none)
    (hok : ∃ x, (orError e (head a) >>= rest).run reader = .ok x) :
    (∃ x, (orError e (head b) >>= rest).run reader = .ok x) ↔
      ∃ n, (count.run reader).map Prod.fst = some n ∧ n.toNat ≤ b.toNat := by
  obtain ⟨x, hx⟩ := hok
  obtain ⟨n, r, hhead, hrest⟩ := Checks.bind_ok hx
  obtain ⟨hcount, hb⟩ := hlimit (orError_ok hhead)
  constructor
  · rintro ⟨y, hy⟩
    obtain ⟨n', r', hhead', -⟩ := Checks.bind_ok hy
    have hsome := orError_ok hhead'
    rw [hb] at hsome
    split at hsome
    · exact ⟨n, hcount, ‹_›⟩
    · cases hsome
  · rintro ⟨n', hn', hle⟩
    rw [hcount] at hn'
    cases hn'
    rw [if_pos hle] at hb
    refine ⟨x, ?_⟩
    rw [StateT.run_bind, orError_of_some hb]
    exact hrest

section

variable {L D : Limits} {tracks : List TrackSnapshot} {frame : RecordFrame}
    {fileData payload : Bytes}

/-- **The check of a record under other limits.** -/
theorem emitSimpleRecord_within_iff {h : RecordHead} (htype : frame.type = h.type)
    (hok : emitSimpleRecord L tracks frame fileData payload = .ok ()) :
    emitSimpleRecord D tracks frame fileData payload = .ok () ↔ TablesWithin D h payload := by
  rw [emitSimpleRecord_eq_ok_iff] at hok ⊢
  unfold simpleRecordChecks at hok ⊢
  rw [htype] at hok ⊢
  cases hrt : recordTypeOf h.type with
  | none =>
    rw [hrt] at hok
    exact iff_of_true hok (tablesWithin_of_type (by simp [hrt]) (by simp [hrt]) (by simp [hrt]))
  | some t =>
    have ht : h.type = t.code := (recordTypeOf_eq_some_iff ..).mp hrt
    rw [hrt] at hok
    cases t with
    | packetTable =>
      refine (checks_limit (b := D.maxPacketTableEntries) (fun h => readTableHead_limit h _)
        hok).trans ⟨fun hn => ?_, fun hw =>
        hw.packetTable ht⟩
      exact ⟨fun _ => hn, fun h => absurd h (type_ne_code (by simp [hrt])),
        fun h => absurd h (type_ne_code (by simp [hrt]))⟩
    | editList =>
      refine (checks_limit (b := D.maxEditEntries) (fun h => readTableHead_limit h _) hok).trans
        ⟨fun hn => ?_, fun hw =>
        hw.editList ht⟩
      exact ⟨fun h => absurd h (type_ne_code (by simp [hrt])), fun _ => hn,
        fun h => absurd h (type_ne_code (by simp [hrt]))⟩
    | checkpoint =>
      have hlimit : ∀ {n r}, (readCheckpointHead frame L.maxTracks).run (readerInit payload) =
          some (n, r) → (readCheckpointCount.run (readerInit payload)).map Prod.fst = some n ∧
            (readCheckpointHead frame D.maxTracks).run (readerInit payload) = if n.toNat ≤
              D.maxTracks.toNat then some (n, r) else none :=
        fun h => readCheckpointHead_limit h _
      refine (checks_limit hlimit hok).trans ⟨fun hn => ?_, fun hw => hw.checkpoint ht⟩
      exact ⟨fun h => absurd h (type_ne_code (by simp [hrt])),
        fun h => absurd h (type_ne_code (by simp [hrt])), fun _ => hn⟩
    | group | streamDesc | packet | discontinuity | seekIndex | indexDirectory | footer =>
      exact iff_of_true hok (tablesWithin_of_type (by simp [hrt]) (by simp [hrt]) (by simp [hrt]))

end

/-! ### Forests -/

section

variable {L D : Limits} {depth : ℕ} {pre : Bytes} {ts : List TrackSnapshot}

/-- A record that is not a group under other limits. -/
theorem leafOk_within_iff {h : RecordHead} {payload : Bytes} (hok : LeafOk L depth pre ts h payload)
    (hts : ts.length ≤ D.maxTracks.toNat) :
    LeafOk D depth pre ts h payload ↔ TablesWithin D h payload ∧
      ts.length + (leafTracks h payload).length ≤ D.maxTracks.toNat := by
  by_cases hskip : skippable h.type = true
  · have hrt := recordTypeOf_of_skippable hskip
    have htracks : leafTracks h payload = [] := by rw [leafTracks, hrt]
    rw [htracks]
    exact iff_of_true (.inl hskip) ⟨tablesWithin_of_type (by simp [hrt]) (by simp [hrt])
      (by simp [hrt]), hts⟩
  unfold LeafOk at hok ⊢
  rw [or_iff_right hskip] at hok ⊢
  cases hrt : recordTypeOf h.type with
  | none =>
    rw [hrt] at hok
    exact hok.elim
  | some t =>
    rw [hrt] at hok
    unfold leafTracks
    rw [hrt]
    cases t with
    | group => exact hok.elim
    | streamDesc =>
      obtain ⟨s, hread, hbase, hfind, -⟩ := hok
      have hw : TablesWithin D h payload := tablesWithin_of_type (by simp [hrt]) (by simp [hrt])
        (by simp [hrt])
      dsimp only
      rw [hread, and_iff_right hw]
      constructor
      · rintro ⟨s', hs', -, -, hroom⟩
        exact hroom
      · intro hroom
        exact ⟨s, rfl, hbase, hfind, hroom⟩
    | packet =>
        exact iff_of_true hok ⟨tablesWithin_of_type (by simp [hrt]) (by simp [hrt])
          (by simp [hrt]), hts⟩
    | packetTable | editList | discontinuity | seekIndex | checkpoint | indexDirectory | footer =>
      dsimp only at hok ⊢
      rw [emitSimpleRecord_within_iff (h := h) rfl hok]
      exact ⟨fun hw => ⟨hw, hts⟩, And.left⟩

theorem headOk_within_iff {h : RecordHead} {n : ℕ} (hok : HeadOk L h n) :
    HeadOk D h n ↔ n ≤ D.maxPayloadSize.toNat ∧ h.size n ≤ D.maxRecordSize.toNat :=
  ⟨fun h => ⟨h.payload, h.record⟩, fun ⟨hp, hr⟩ => ⟨hok.alignment, hp, hr⟩⟩

/-- **A well-formed forest under other limits** is well formed again if and only if it is within
them. -/
theorem Forest.valid_within_iff (hD : D.maxDepth ≤ 255) (hdepth : depth ≤ D.maxDepth.toNat)
    {f : Forest} (hv : f.Valid L (admits L) depth pre ts) (hts : ts.length ≤ D.maxTracks.toNat) :
    f.Valid D (admits D) depth pre ts ↔ f.Within D depth ∧
      ts.length + f.tracks.length ≤ D.maxTracks.toNat := by
  induction f generalizing depth pre ts with
  | nil => exact iff_of_true trivial ⟨trivial, hts⟩
  | leaf h payload next ih =>
    obtain ⟨hhead, hleaf, hnext⟩ := hv
    simp only [Forest.Valid, Forest.Within, Forest.tracks, List.length_append,
      headOk_within_iff hhead, leafOk_within_iff hleaf hts]
    constructor
    · rintro ⟨⟨hpayload, hrecord⟩, ⟨htables, hroom⟩, hnext'⟩
      obtain ⟨hwithin, htracks⟩ :=
        (ih hdepth hnext (by rw [List.length_append]; exact hroom)).mp hnext'
      rw [List.length_append] at htracks
      exact ⟨⟨hpayload, hrecord, htables, hwithin⟩, by omega⟩
    · rintro ⟨⟨hpayload, hrecord, htables, hwithin⟩, htracks⟩
      have hroom : (ts ++ leafTracks h payload).length ≤ D.maxTracks.toNat := by
        rw [List.length_append]; omega
      refine ⟨⟨hpayload, hrecord⟩, ⟨htables, by omega⟩, (ih hdepth hnext hroom).mpr ⟨hwithin, ?_⟩⟩
      rw [List.length_append]
      omega
  | group h m children next ihc ih =>
    obtain ⟨hhead, ht, -, hchildren, hnext⟩ := hv
    simp only [Forest.Valid, Forest.Within, Forest.tracks, List.length_append,
      headOk_within_iff hhead, admits_iff_lt hD hdepth]
    constructor
    · rintro ⟨⟨hpayload, hrecord⟩, -, hlt, hchildren', hnext'⟩
      obtain ⟨hwithin, htracks⟩ := (ihc hlt hchildren hts).mp hchildren'
      obtain ⟨hwithin', htracks'⟩ :=
        (ih hdepth hnext (by rw [List.length_append]; exact htracks)).mp hnext'
      rw [List.length_append] at htracks'
      exact ⟨⟨hpayload, hrecord, hlt, hwithin, hwithin'⟩, by omega⟩
    · rintro ⟨⟨hpayload, hrecord, hlt, hwithin, hwithin'⟩, htracks⟩
      have hroom : (ts ++ children.tracks).length ≤ D.maxTracks.toNat := by
        rw [List.length_append]; omega
      refine ⟨⟨hpayload, hrecord⟩, ht, hlt, (ihc hlt hchildren hts).mpr ⟨hwithin, by omega⟩,
        (ih hdepth hnext hroom).mpr ⟨hwithin', ?_⟩⟩
      rw [List.length_append]
      omega

end

/-! ### The parser -/

/-- The statuses from which `OK` or `PARTIAL` comes at the end. -/
theorem status_of_atEnd {status : Status}
    (h : atEnd true status = .ok ∨ atEnd true status = .partialTail) :
    status = .ok ∨ status = .truncated ∨ status = .partialTail := by
  cases status <;> simp [atEnd] at h ⊢

/-- The records of a well-formed forest have alignments that are allowed. -/
theorem Forest.Valid.each {L : Limits} {opens : ℕ → Prop} {depth : ℕ} {pre : Bytes}
    {ts : List TrackSnapshot} {f : Forest} (hv : f.Valid L opens depth pre ts) (offset : ℕ) :
    f.Each (fun _ h _ => h.alignmentLog2 ≤ 4) offset := by
  induction f generalizing depth pre ts offset with
  | nil => trivial
  | leaf h payload next ih => exact ⟨hv.2.1.type_ne, hv.1.alignment, ih hv.2.2 _⟩
  | group h m children next ihc ih =>
      exact ⟨hv.2.1, hv.1.alignment, ihc hv.2.2.2.1 _, ih hv.2.2.2.2 _⟩

section

variable {I : σ → Prop} {L D : Limits} {callbacks : Callbacks σ} {user : σ} {B : Bytes}
    {hd : Header} {f : Forest}

/-- A header that is refused is not the beginning of one. -/
theorem parseTideBytes_refused {e : Error} (hlen : 72 ≤ B.length)
    (hval : validateHeader B D = .error e) :
    ¬((parseTideBytes B true (some D) callbacks user (Stream'.const true)).1 = .ok ∨
      (parseTideBytes B true (some D) callbacks user (Stream'.const true)).1 = .partialTail) := by
  obtain ⟨hok, hpart, htrunc⟩ := validateHeader_error hval
  rw [parseTideBytes_of_error hval]
  intro hst
  rcases status_of_atEnd hst with h | h | h
  · exact hok h
  · have hlt := htrunc.mp h
    omega
  · exact hpart h

/-- What is passed over in a file is its header and the records of its forest, from the first on. -/
theorem FileOk.passed {opens opens' : ℕ → Prop} (hfile : FileOk L opens B hd f)
    (hB : B.length ≤ sizeMax) {hd' : Header} {g : Forest} (hhd' : hd'.Valid D)
    (hg : g.Valid D opens' 0 hd'.bytes []) (hpre : hd'.bytes ++ g.bytes <+: B) :
    hd'.bytes = hd.bytes ∧ ∃ rest, f = g.append rest := by
  have hlen := hd.length_bytes hfile.header.uuid_length
  have hBlen := hfile.length
  have hlen' := hd'.length_bytes hhd'.uuid_length
  have hle := hpre.length_le
  rw [List.length_append, hlen'] at hle
  obtain ⟨tail, htail⟩ := hpre
  have hl' : Lies B 72 g.bytes := by
    rw [← htail, List.append_assoc, ← hlen']
    exact lies_mid ..
  refine ⟨?_, (hfile.forest.each 72).prefix_unique id id hfile.lies (hg.each 72) hl'
    (by omega) hBlen.symm (Nat.le_refl _) hB (Nat.le_refl _)⟩
  have htake := congrArg (List.take 72) (htail.trans hfile.bytes)
  rwa [List.append_assoc, ← hlen', List.take_left, hlen', ← hlen, List.take_left] at htake

/-- A record of a file is not taken for incomplete, where it begins. -/
theorem FileOk.not_truncated {opens : ℕ → Prop} {g rest : Forest}
    (hfile : FileOk L opens B hd (g.append rest)) (hB : B.length ≤ sizeMax) (hne : rest ≠ .nil)
    (depth : UInt8) : decodeRecordPrefix B B.length (72 + g.bytes.length) depth ≠ .truncated := by
  have hl := hfile.lies
  have hBlen := hfile.length
  rw [Forest.bytes_append, List.length_append] at hBlen
  rw [Forest.bytes_append, lies_append_iff] at hl
  obtain ⟨h, payload, hfr⟩ := (Forest.each_append_iff.mp (hfile.forest.each 72)).2.first id hl.2
    (show 72 + g.bytes.length + rest.bytes.length ≤ B.length by omega) hne
  rw [hfr.frame_eq (Nat.le_refl _) hB (by omega) depth]
  simp

/-- **A file read under other limits**: it is accepted, or taken for incomplete, if and only if
it is within them. -/
theorem parseTideBytes_within_iff
    (hc : (Parsing.start (some D) callbacks user (Stream'.const true)).Calm I)
    (hB : B.length ≤ sizeMax) (hfile : FileOk L (admits L) B hd f) (hD : D.maxDepth ≤ 255)
    {r : Status × Parsing σ}
    (hr : parseTideBytes B true (some D) callbacks user (Stream'.const true) = r) :
    r.1 = .ok ∨ r.1 = .partialTail ↔
      hd.maxRecordHint ≤ D.maxRecordSize ∧ f.Within D 0 ∧ f.tracks.length ≤ D.maxTracks.toNat := by
  have hBlen := hfile.length
  have hwithin := Forest.valid_within_iff hD (Nat.zero_le _) hfile.forest
    (show ([] : List TrackSnapshot).length ≤ _ from Nat.zero_le _)
  rw [List.length_nil, Nat.zero_add] at hwithin
  rw [← hwithin]
  by_cases hhint : hd.maxRecordHint ≤ D.maxRecordSize
  swap
  · rw [iff_false_intro hhint, false_and, iff_false]
    have hno : ¬ hd.Valid D := fun h => hhint h.hint
    rw [← validateHeader_bytes_iff hfile.header.uuid_length f.bytes, ← hfile.bytes] at hno
    cases hval : validateHeader B D with
    | ok u => exact absurd hval hno
    | error e =>
      rw [← hr]
      exact parseTideBytes_refused (by omega) hval
  rw [iff_true_intro hhint, true_and]
  have hhd : hd.Valid D := ⟨hfile.header.uuid_length, hfile.header.uuid_ne, hfile.header.movieBase,
    hhint⟩
  constructor
  · intro hst
    obtain ⟨e, hval, -⟩ | ⟨hd', f', p, r', hhd', hf', hpre, -, -, hends, hparse⟩ :=
      parseTideBytes_cases hc hB true
    · rw [hfile.bytes, (validateHeader_bytes_iff hfile.header.uuid_length f.bytes D).mpr
        hhd] at hval
      cases hval
    rw [hparse] at hr
    subst hr
    obtain ⟨hbytes, rest, rfl⟩ := hfile.passed hB hhd' hf' hpre
    rw [hbytes] at hf'
    rw [Forest.bytes_append, List.length_append] at hBlen
    cases hends with
    | done hend =>
      have hrest : rest.bytes.length = 0 := by omega
      rwa [Forest.eq_nil_of_bytes (List.length_eq_zero_iff.mp hrest), Forest.append_nil]
    | more hlt hstep =>
      have hne : rest ≠ .nil := by
        rintro rfl
        simp only [Forest.bytes, List.length_nil] at hBlen
        omega
      exact absurd ((recordStep_eq_more_iff ..).mp hstep) (hfile.not_truncated hB hne _)
    | refused _ _ hrej =>
      rcases status_of_atEnd hst with h | h | h
      · exact absurd h hrej.1
      · exact absurd h hrej.2.2
      · exact absurd h hrej.2.1
  · intro hv
    obtain ⟨p, hparse, -⟩ := parseTideBytes_file hc hB ⟨hhd, hv, hfile.bytes⟩ true
    rw [hparse] at hr
    subst hr
    exact .inl rfl

end

end Tide
