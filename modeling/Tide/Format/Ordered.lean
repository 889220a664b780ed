import Mathlib
import Tide.Model.Edit
import Tide.Format.SeekIndex

/-!
# Tables in order

What a decoder accepts as a packet table, an edit list and an index directory. The loops over
entries compare each with the one before it. Since an entry that passes its own check does
not end before it begins, this puts all pairs of entries in order (`tables_accepted_iff`).
-/

namespace Tide

open Theory

/-! ### Packet tables -/

/-- An entry of a packet table. -/
structure PacketTableEntry where
  packetSeq : UInt64
  dts : Int64
  pts : Int64
  duration : Int64
  flags : UInt32
  rangeOffset : UInt64
  rangeSize : UInt64

namespace PacketTableEntry

/-- An entry as it is written. -/
def bytes (entry : PacketTableEntry) : Bytes :=
  writeU64 entry.packetSeq ++ (writeI64 entry.dts ++
    (writeI64 entry.pts ++ (writeI64 entry.duration ++ (writeU32 entry.flags ++
    (writeU64 entry.rangeOffset ++ writeU64 entry.rangeSize)))))

/-- The end of the range. -/
def rangeEnd (entry : PacketTableEntry) : ℕ := entry.rangeOffset.toNat + entry.rangeSize.toNat

/-- The duration is not negative, and the range ends within 64 bits. -/
def Ok (entry : PacketTableEntry) : Prop := 0 ≤ entry.duration.toInt ∧ entry.rangeEnd < 2 ^ 64

/-- One entry lies before another: its number is smaller, and its range ends where the other
begins or before. -/
def Before (a b : PacketTableEntry) : Prop :=
  a.packetSeq.toNat < b.packetSeq.toNat ∧ a.rangeEnd ≤ b.rangeOffset.toNat

theorem Before.trans {a b c : PacketTableEntry} (h : a.Before b) (h' : b.Before c) : a.Before c :=
  ⟨h.1.trans h'.1, h.2.trans ((Nat.le_add_right _ _).trans h'.2)⟩

/-- What the loop compares. -/
theorem before_iff {a b : PacketTableEntry} (ha : a.Ok) :
    (¬b.packetSeq ≤ a.packetSeq ∧ ¬b.rangeOffset < a.rangeOffset + a.rangeSize) ↔ a.Before b := by
  have hend : (a.rangeOffset + a.rangeSize).toNat = a.rangeEnd := by
    rw [UInt64.toNat_add]
    exact Nat.mod_eq_of_lt ha.2
  rw [UInt64.not_le, UInt64.not_lt, UInt64.lt_iff_toNat_lt, UInt64.le_iff_toNat_le, hend]
  rfl

end PacketTableEntry

/-- The payload of a packet table. -/
def packetTablePayload (trackId generation : UInt32) (entries : List PacketTableEntry) : Bytes :=
  writeU32 trackId ++ (writeU32 generation ++ (writeUleb128 (UInt64.ofNat entries.length) ++
    (entries.map PacketTableEntry.bytes).flatten))

/-- A duration that passes its test. -/
theorem not_neg_iff (x : Int64) : ¬x < 0 ↔ 0 ≤ x.toInt := by
  rw [Int64.lt_iff_toInt_lt, Int64.toInt_zero, not_lt]

/-- The end of a range, if it does not overflow. -/
theorem checkedAddU64_eq (a b : UInt64) :
    checkedAddU64 a b = if a.toNat + b.toNat < 2 ^ 64 then some (a + b) else none := by
  cases hsum : checkedAddU64 a b with
  | none =>
    rw [if_neg fun hlt => ?_]
    rw [(checkedAddU64_eq_some_iff a b (a + b)).mpr
      (by rw [UInt64.toNat_add, Nat.mod_eq_of_lt hlt])] at hsum
    cases hsum
  | some c =>
    have hnat := (checkedAddU64_eq_some_iff a b c).mp hsum
    have hlt := c.toNat_lt
    rw [if_pos (by omega), ← UInt64.toNat_inj.mp (show c.toNat = (a + b).toNat by
      rw [UInt64.toNat_add, Nat.mod_eq_of_lt (by omega), hnat])]

/-- What the tests behind the reads of an entry compare with `previous_end` and
`previous_seq`. -/
def PacketTableEntry.After (i : ℕ) (previous : UInt64 × UInt64) (entry : PacketTableEntry) : Prop :=
  ¬(i ≠ 0 ∧ entry.packetSeq ≤ previous.2) ∧ ¬entry.rangeOffset < previous.1

/-- What an entry leaves in the two. -/
def PacketTableEntry.leaves (entry : PacketTableEntry) : UInt64 × UInt64 :=
  (entry.rangeOffset + entry.rangeSize, entry.packetSeq)

theorem decodes_packetTableEntry (i : ℕ) (previous : UInt64 × UInt64) :
    Decodes (readPacketTableEntry i previous.1 previous.2) fun x bs => ∃ entry : PacketTableEntry,
      bs = entry.bytes ∧
      (entry.Ok ∧ PacketTableEntry.After i previous entry) ∧ x = entry.leaves := by
  refine (decodes_u64.bind fun seq => decodes_i64.bind fun _ => decodes_i64.bind fun _ =>
    decodes_i64.bind fun duration =>
    decodes_u32.bind fun _ => decodes_u64.bind fun offset => decodes_u64.bind fun size =>
      (decodes_guard _).bind
    (H := fun _ x bs => offset.toNat + size.toNat < 2 ^ 64 ∧ ¬(i ≠ 0 ∧ seq ≤ previous.2) ∧
      ¬offset < previous.1 ∧
      x = (offset + size, seq) ∧ bs = []) fun _ => ?_).congr fun x bs => ?_
  · rw [checkedAddU64_eq]
    by_cases hlt : offset.toNat + size.toNat < 2 ^ 64
    · rw [if_pos hlt]
      refine ((decodes_guard _).bind fun _ => (decodes_guard _).bind fun _ => decodes_pure _).congr
        fun x bs => ?_
      constructor
      · rintro ⟨_, _, _, ⟨hseq, rfl⟩, ⟨_, _, _, ⟨hoffset, rfl⟩, ⟨rfl, rfl⟩, rfl⟩, rfl⟩
        exact ⟨hlt, hseq, hoffset, rfl, rfl⟩
      · rintro ⟨-, hseq, hoffset, rfl, rfl⟩
        exact ⟨(), _, _, ⟨hseq, rfl⟩, ⟨(), _, _, ⟨hoffset, rfl⟩, ⟨rfl, rfl⟩, rfl⟩, rfl⟩
    · rw [if_neg hlt]
      exact decodes_failure.congr fun x bs => ⟨False.elim, fun h => hlt h.1⟩
  constructor
  · rintro ⟨seq, _, _, rfl,
      ⟨dts, _, _, rfl, ⟨pts, _, _, rfl,
        ⟨duration, _, _, rfl,
          ⟨flags, _, _, rfl, ⟨offset, _, _, rfl,
            ⟨size, _, _, rfl, ⟨_, _, _, ⟨hnn, rfl⟩, ⟨hlt, hseq, hoffset, rfl, rfl⟩, rfl⟩, rfl⟩,
              rfl⟩, rfl⟩, rfl⟩, rfl⟩, rfl⟩, rfl⟩
    exact ⟨⟨seq, dts, pts, duration, flags, offset, size⟩, by simp [PacketTableEntry.bytes],
      ⟨⟨(not_neg_iff duration).mp hnn, hlt⟩, hseq, hoffset⟩, rfl⟩
  · rintro ⟨⟨seq, dts, pts, duration, flags, offset, size⟩, rfl, ⟨⟨hnn, hlt⟩, hseq, hoffset⟩, rfl⟩
    exact ⟨seq, _, _, rfl,
      ⟨dts, _, _, rfl, ⟨pts, _, _, rfl,
        ⟨duration, _, _, rfl,
          ⟨flags, _, _, rfl, ⟨offset, _, _, rfl,
            ⟨size, _, _, rfl, ⟨(), _, _, ⟨(not_neg_iff duration).mpr hnn, rfl⟩, ⟨hlt, hseq, hoffset,
              rfl, rfl⟩, rfl⟩, (List.append_nil _).symm⟩, rfl⟩, rfl⟩, rfl⟩, rfl⟩, rfl⟩, rfl⟩

section

variable {limits : Limits} {tracks : List TrackSnapshot} {frame : RecordFrame}
    {fileData payload : Bytes}

/-- **The packet tables that a decoder accepts.** -/
theorem emitSimpleRecord_packetTable_iff (ht : frame.type = RecordType.packetTable.code) :
    emitSimpleRecord limits tracks frame fileData payload = .ok () ↔
      ∃ trackId generation entries, payload = packetTablePayload trackId generation entries ∧
        entries.length ≤ limits.maxPacketTableEntries.toNat ∧
          (findTrack tracks trackId generation).isSome ∧
        (∀ entry ∈ entries, entry.Ok) ∧ entries.Pairwise PacketTableEntry.Before := by
  have hchecks : simpleRecordChecks limits tracks frame fileData =
      checkPacketTable limits tracks frame := by
    rw [simpleRecordChecks, ht, recordTypeOf_code]
  have hnext : ∀ (i : ℕ) (a b : PacketTableEntry), PacketTableEntry.After (i + 1) a.leaves b ↔
      ¬b.packetSeq ≤ a.packetSeq ∧ ¬b.rangeOffset < a.rangeOffset + a.rangeSize := fun i a b => by
    simp [PacketTableEntry.After, PacketTableEntry.leaves]
  have hfirst : ∀ entry : PacketTableEntry, PacketTableEntry.After 0 (0, 0) entry := fun entry =>
    by simp [PacketTableEntry.After]
  have horder : ∀ entries : List PacketTableEntry, (∀ entry ∈ entries, entry.Ok) →
      ((entries.IsChain fun a b => ¬b.packetSeq ≤ a.packetSeq ∧
        ¬b.rangeOffset < a.rangeOffset + a.rangeSize) ↔
        entries.Pairwise PacketTableEntry.Before) := fun entries hok =>
    (List.IsChain.iff_of_mem_imp fun a b ha _ => PacketTableEntry.before_iff (hok a ha)).trans
      (isChain_iff_pairwise_of_own hok fun a b c _ => PacketTableEntry.Before.trans)
  rw [emitSimpleRecord, hchecks]
  refine (chained_accepted_iff
    (accepts_orError (decodes_tableHead tracks limits.maxPacketTableEntries) _)
    (fun i s => accepts_orError (decodes_packetTableEntry i s) _) hnext hfirst _ payload).trans ?_
  constructor
  · rintro ⟨_, entries, ⟨trackId, generation, rfl, hle, hfind⟩, hlt, rfl, hok, hchain⟩
    rw [UInt64.toNat_ofNat_of_lt' hlt] at hle
    exact ⟨trackId, generation, entries,
      by simp [packetTablePayload], hle, hfind, hok, (horder entries hok).mp hchain⟩
  · rintro ⟨trackId, generation, entries, rfl, hle, hfind, hok, hpair⟩
    have hmax := limits.maxPacketTableEntries.toNat_lt
    have hlt : entries.length < 2 ^ 64 := by omega
    refine ⟨_, entries, ⟨trackId, generation, rfl, ?_, hfind⟩, hlt,
      by simp [packetTablePayload], hok, (horder entries hok).mpr hpair⟩
    rwa [UInt64.toNat_ofNat_of_lt' hlt]

end

/-! ### Edit lists -/

/-- The rate is a reduced positive fraction, the duration is not negative and the output ends
in 64 bits. -/
structure EditEntry.Lawful (edit : EditEntry) : Prop where
  numerator : 0 < edit.rate.numerator.toNat
  denominator : 0 < edit.rate.denominator.toNat
  reduced : Nat.gcd edit.rate.numerator.toNat edit.rate.denominator.toNat = 1
  duration : 0 ≤ edit.outputDuration.toInt
  ends : edit.outputStart.toInt + edit.outputDuration.toInt < 2 ^ 63

/-- The output of one entry ends where that of the other begins or before. -/
def EditEntry.Before (a b : EditEntry) : Prop :=
  a.outputStart.toInt + a.outputDuration.toInt ≤ b.outputStart.toInt

theorem EditEntry.ok_iff (edit : EditEntry) : edit.Ok ↔ edit.Lawful := by
  rw [EditEntry.Ok, rationalIsValid_iff]
  constructor
  · rintro ⟨hduration, hends, hnum, hden, hgcd⟩
    exact ⟨hnum, hden, hgcd, hduration, hends⟩
  · rintro ⟨hnum, hden, hgcd, hduration, hends⟩
    exact ⟨hduration, hends, hnum, hden, hgcd⟩

/-- All pairs of entries of an accepted edit list are in order. -/
theorem editsOk_iff (edits : List EditEntry) :
    EditsOk edits ↔ (∀ edit ∈ edits, edit.Lawful) ∧ edits.Pairwise EditEntry.Before := by
  unfold EditsOk
  simp only [EditEntry.ok_iff]
  refine and_congr_right fun hok => ?_
  have hcompare : ∀ a b, a ∈ edits → b ∈ edits → (a.outputEnd ≤ b.outputStart ↔ a.Before b) := by
    intro a b ha _
    rw [Int64.le_iff_toInt_le, ((EditEntry.ok_iff a).mpr (hok a ha)).toInt_outputEnd]
    rfl
  refine (List.IsChain.iff_of_mem_imp hcompare).trans
    (isChain_iff_pairwise_of_own hok fun a b c hb hab hbc => ?_)
  have hduration := hb.duration
  unfold EditEntry.Before at hab hbc ⊢
  omega

/-! ### Index directories -/

/-- An entry of an index directory. -/
structure DirectoryEntry where
  generation : UInt64
  startTime : Int64
  endTime : Int64
  offset : UInt64

namespace DirectoryEntry

/-- An entry as it is written. -/
def bytes (entry : DirectoryEntry) : Bytes :=
  writeU64 entry.generation ++
    (writeI64 entry.startTime ++ (writeI64 entry.endTime ++ writeU64 entry.offset))

/-- The times are in order and not negative, and the index lies behind the header and before
the byte `place`. -/
structure Ok (place : ℕ) (entry : DirectoryEntry) : Prop where
  startTime : 0 ≤ entry.startTime.toInt
  endTime : entry.startTime.toInt ≤ entry.endTime.toInt
  header : 72 ≤ entry.offset.toNat
  offset : entry.offset.toNat < place

/-- One entry is older than another, and its times end where the other's begin or before. -/
def Before (a b : DirectoryEntry) : Prop :=
  a.generation.toNat < b.generation.toNat ∧ a.endTime.toInt ≤ b.startTime.toInt

theorem Before.trans {place : ℕ} {a b c : DirectoryEntry} (hb : b.Ok place) (h : a.Before b)
    (h' : b.Before c) : a.Before c :=
  ⟨h.1.trans h'.1, h.2.trans (hb.endTime.trans h'.2)⟩

/-- What the loop compares. -/
theorem before_iff {place : ℕ} {a b : DirectoryEntry} (ha : a.Ok place) (hb : b.Ok place) :
    (¬b.generation ≤ a.generation ∧ ¬b.startTime.toUInt64 < a.endTime.toUInt64) ↔ a.Before b := by
  have hend := Int64.toNat_toUInt64_of_le
    (Int64.le_iff_toInt_le.mpr (ha.startTime.trans ha.endTime))
  have hstart := Int64.toNat_toUInt64_of_le (Int64.le_iff_toInt_le.mpr hb.startTime)
  have hae := ha.startTime.trans ha.endTime
  have hbs := hb.startTime
  rw [UInt64.not_le, UInt64.not_lt, UInt64.lt_iff_toNat_lt, UInt64.le_iff_toNat_le, hend, hstart]
  unfold Before Int64.toNatClampNeg
  omega

/-- What the tests behind the reads of an entry compare with `previous_end` and
`previous_generation`. -/
def After (i : ℕ) (previous : UInt64 × UInt64) (entry : DirectoryEntry) : Prop :=
  ¬(i ≠ 0 ∧ entry.generation ≤ previous.2) ∧ ¬(i ≠ 0 ∧ entry.startTime.toUInt64 < previous.1)

/-- What an entry leaves in the two. -/
def leaves (entry : DirectoryEntry) : UInt64 × UInt64 := (entry.endTime.toUInt64, entry.generation)

end DirectoryEntry

/-- The payload of an index directory. -/
def indexDirectoryPayload (entries : List DirectoryEntry) : Bytes :=
  writeUleb128 (UInt64.ofNat entries.length) ++ (entries.map DirectoryEntry.bytes).flatten

theorem decodes_directoryEntry (frame : RecordFrame) (i : ℕ) (previous : UInt64 × UInt64) :
    Decodes (readDirectoryEntry frame i previous.1 previous.2) fun x bs => ∃ entry : DirectoryEntry,
      bs = entry.bytes ∧
      (entry.Ok frame.offset ∧ DirectoryEntry.After i previous entry) ∧ x = entry.leaves := by
  refine (decodes_u64.bind fun generation => decodes_i64.bind fun start =>
    decodes_i64.bind fun stop => decodes_u64.bind fun offset =>
    (decodes_guard _).bind fun _ => (decodes_guard _).bind fun _ => (decodes_guard _).bind fun _ =>
      (decodes_guard _).bind fun _ =>
    (decodes_guard _).bind fun _ => (decodes_guard _).bind fun _ => decodes_pure _).congr
      fun x bs => ?_
  constructor
  · rintro ⟨generation, _, _, rfl,
      ⟨start, _, _, rfl, ⟨stop, _, _, rfl,
        ⟨offset, _, _, rfl, ⟨_, _, _, ⟨hnn, rfl⟩,
          ⟨_, _, _, ⟨hle, rfl⟩,
            ⟨_, _, _, ⟨h72, rfl⟩,
              ⟨_, _, _, ⟨hlt, rfl⟩, ⟨_, _, _, ⟨hgen, rfl⟩, ⟨_, _, _, ⟨htime, rfl⟩, ⟨rfl, rfl⟩, rfl⟩,
                rfl⟩, rfl⟩, rfl⟩, rfl⟩, rfl⟩, rfl⟩, rfl⟩, rfl⟩, rfl⟩
    rw [Int64.not_lt, Int64.le_iff_toInt_le] at hle
    rw [UInt64.not_lt, UInt64.le_iff_toNat_le] at h72
    exact ⟨⟨generation, start, stop, offset⟩,
      by simp [DirectoryEntry.bytes], ⟨⟨(not_neg_iff start).mp hnn, hle, h72, Nat.not_le.mp hlt⟩,
      hgen, htime⟩, rfl⟩
  · rintro ⟨⟨generation, start, stop, offset⟩, rfl, ⟨⟨hnn, hle, h72, hlt⟩, hgen, htime⟩, rfl⟩
    exact ⟨generation, _, _, rfl,
      ⟨start, _, _, rfl, ⟨stop, _, _, rfl,
        ⟨offset, _, _, rfl, ⟨(), _, _, ⟨(not_neg_iff start).mpr hnn, rfl⟩,
          ⟨(), _, _, ⟨Int64.not_lt.mpr (Int64.le_iff_toInt_le.mpr hle), rfl⟩,
            ⟨(), _, _, ⟨UInt64.not_lt.mpr (UInt64.le_iff_toNat_le.mpr h72), rfl⟩,
              ⟨(), _, _, ⟨Nat.not_le.mpr hlt, rfl⟩,
                ⟨(), _, _, ⟨hgen, rfl⟩, ⟨(), _, _, ⟨htime, rfl⟩, ⟨rfl, rfl⟩, rfl⟩, rfl⟩, rfl⟩, rfl⟩,
                  rfl⟩, rfl⟩, (List.append_nil _).symm⟩, rfl⟩, rfl⟩, rfl⟩

section

variable {limits : Limits} {tracks : List TrackSnapshot} {frame : RecordFrame}
    {fileData payload : Bytes}

/-- **The index directories that a decoder accepts.** -/
theorem emitSimpleRecord_indexDirectory_iff (ht : frame.type = RecordType.indexDirectory.code) :
    emitSimpleRecord limits tracks frame fileData payload = .ok () ↔
      ∃ entries, payload = indexDirectoryPayload entries ∧ entries.length < 2 ^ 64 ∧
        (∀ entry ∈ entries, entry.Ok frame.offset) ∧ entries.Pairwise DirectoryEntry.Before := by
  have hchecks : simpleRecordChecks limits tracks frame fileData = checkIndexDirectory frame := by
    rw [simpleRecordChecks, ht, recordTypeOf_code]
  have hnext : ∀ (i : ℕ) (a b : DirectoryEntry), DirectoryEntry.After (i + 1) a.leaves b ↔
      ¬b.generation ≤ a.generation ∧ ¬b.startTime.toUInt64 < a.endTime.toUInt64 := fun i a b => by
    simp [DirectoryEntry.After, DirectoryEntry.leaves]
  have hfirst : ∀ entry : DirectoryEntry, DirectoryEntry.After 0 (0, 0) entry := fun entry =>
    by simp [DirectoryEntry.After]
  have horder : ∀ entries : List DirectoryEntry, (∀ entry ∈ entries, entry.Ok frame.offset) →
      ((entries.IsChain fun a b => ¬b.generation ≤ a.generation ∧
        ¬b.startTime.toUInt64 < a.endTime.toUInt64) ↔
        entries.Pairwise DirectoryEntry.Before) := fun entries hok =>
    (List.IsChain.iff_of_mem_imp fun a b ha hb => DirectoryEntry.before_iff (hok a ha)
      (hok b hb)).trans
      (isChain_iff_pairwise_of_own hok fun a b c hb => DirectoryEntry.Before.trans hb)
  rw [emitSimpleRecord, hchecks]
  refine (chained_accepted_iff (accepts_orError decodes_uleb128 _)
    (fun i s => accepts_orError (decodes_directoryEntry frame i s) _) hnext hfirst
      _ payload).trans ?_
  constructor
  · rintro ⟨_, entries, rfl, hlt, rfl, hok, hchain⟩
    exact ⟨entries, rfl, hlt, hok, (horder entries hok).mp hchain⟩
  · rintro ⟨entries, rfl, hlt, hok, hpair⟩
    exact ⟨_, entries, rfl, hlt, rfl, hok, (horder entries hok).mpr hpair⟩

end

/-- **The tables that a decoder accepts** are the encodings of known tracks and of entries that
are lawful and all in order. -/
theorem tables_accepted_iff (limits : Limits) (tracks : List TrackSnapshot) (frame : RecordFrame)
    (fileData payload : Bytes) :
    (frame.type = RecordType.packetTable.code →
      (emitSimpleRecord limits tracks frame fileData payload = .ok () ↔
      ∃ trackId generation entries, payload = packetTablePayload trackId generation entries ∧
        entries.length ≤ limits.maxPacketTableEntries.toNat ∧
          (findTrack tracks trackId generation).isSome ∧
        (∀ entry ∈ entries, entry.Ok) ∧ entries.Pairwise PacketTableEntry.Before)) ∧
    (frame.type = RecordType.editList.code →
      (emitSimpleRecord limits tracks frame fileData payload = .ok () ↔
      ∃ trackId generation edits, payload = editListPayload trackId generation edits ∧
        edits.length ≤ limits.maxEditEntries.toNat ∧ (findTrack tracks trackId generation).isSome ∧
        (∀ edit ∈ edits, edit.Lawful) ∧ edits.Pairwise EditEntry.Before)) ∧
    (frame.type = RecordType.indexDirectory.code →
      (emitSimpleRecord limits tracks frame fileData payload = .ok () ↔
      ∃ entries, payload = indexDirectoryPayload entries ∧ entries.length < 2 ^ 64 ∧
        (∀ entry ∈ entries, entry.Ok frame.offset) ∧ entries.Pairwise DirectoryEntry.Before)) := by
  refine ⟨emitSimpleRecord_packetTable_iff, fun ht => ?_, emitSimpleRecord_indexDirectory_iff⟩
  simp only [emitSimpleRecord_editList_iff ht, editsOk_iff]

/-- One table of each type, with two entries in order. -/
theorem sampleTables_accepted :
    emitSimpleRecord limitsDefault sampleTracks
      { seekFrame with type := RecordType.packetTable.code } []
        (packetTablePayload 1 1 [⟨0, 0, 0, 5, 0, 100, 20⟩, ⟨1, 0, 0, 5, 0, 120, 0⟩]) = .ok () ∧
      emitSimpleRecord limitsDefault sampleTracks
        { seekFrame with type := RecordType.editList.code } []
        (editListPayload 1 1 [⟨0, 10, 100, ⟨1, 1⟩⟩, ⟨10, 30, 90, ⟨2, 3⟩⟩]) = .ok () ∧
      emitSimpleRecord limitsDefault sampleTracks
        { seekFrame with type := RecordType.indexDirectory.code } []
        (indexDirectoryPayload [⟨1, 0, 10, 72⟩, ⟨2, 10, 10, 72⟩]) = .ok () := by
  refine ⟨((tables_accepted_iff limitsDefault sampleTracks _ [] _).1 rfl).mpr ?_,
    ((tables_accepted_iff limitsDefault sampleTracks _ [] _).2.1 rfl).mpr ?_,
    ((tables_accepted_iff limitsDefault sampleTracks _ [] _).2.2 rfl).mpr ?_⟩
  · refine ⟨1, 1, _, rfl, by decide, by decide, ?_, ?_⟩
    · simp [PacketTableEntry.Ok, PacketTableEntry.rangeEnd]
    · simp [PacketTableEntry.Before, PacketTableEntry.rangeEnd]
  · refine ⟨1, 1, _, rfl, by decide, by decide, ?_, ?_⟩
    · simp only [List.forall_mem_cons]
      exact ⟨⟨by decide, by decide, by decide, by decide, by decide⟩,
        ⟨by decide, by decide, by decide, by decide, by decide⟩, by simp⟩
    · simp [EditEntry.Before]
  · refine ⟨_, rfl, by decide, ?_, ?_⟩
    · simp only [List.forall_mem_cons]
      exact ⟨⟨by decide, by decide, by decide, by decide⟩,
        ⟨by decide, by decide, by decide, by decide⟩, by simp⟩
    · simp [DirectoryEntry.Before]

end Tide
