import Tide.Format.Tables
import Mathlib.Data.List.Chain
import Mathlib.Data.Nat.Bitwise
import Mathlib.Tactic.Ring

/-!
# The order of a seek index

The entries of a seek index are to be sorted by track and time. A decoder compares keys of
64 bits: the track in the high half, and the time combined by exclusive or with the whole
key. A time that does not fit the low half changes the track in the key, and a negative one
counts as zero, so the keys are in order for some lists that are not, and the other way
round.
-/

namespace Tide

open Theory

/-- An entry of a seek index. -/
structure SeekEntry where
  trackId : UInt32
  generation : UInt32
  packetSeq : UInt64
  pts : Int64
  groupOffset : UInt64
  recordOffset : UInt64
  deriving DecidableEq

/-- An entry as it is written. -/
def SeekEntry.bytes (entry : SeekEntry) : Bytes :=
  writeU32 entry.trackId ++
    (writeU32 entry.generation ++ (writeU64 entry.packetSeq ++ (writeI64 entry.pts ++
    (writeU64 entry.groupOffset ++ writeU64 entry.recordOffset))))

/-- The payload of a seek index. -/
def seekIndexPayload (indexGeneration : UInt64) (entries : List SeekEntry) : Bytes :=
  writeU64 indexGeneration ++ (writeUleb128 (UInt64.ofNat entries.length) ++
    (entries.map SeekEntry.bytes).flatten)

theorem SeekEntry.length_bytes (entry : SeekEntry) :
    entry.bytes.length = 40 := by simp [SeekEntry.bytes]

theorem SeekEntry.bytes_injective : Function.Injective SeekEntry.bytes := by
  rintro ⟨track, generation, seq, pts, group, record⟩ ⟨track', generation', seq', pts',
    group', record'⟩ h
  obtain ⟨htrack, h⟩ := List.append_inj h rfl
  obtain ⟨hgeneration, h⟩ := List.append_inj h rfl
  obtain ⟨hseq, h⟩ := List.append_inj h rfl
  obtain ⟨hpts, h⟩ := List.append_inj h rfl
  obtain ⟨hgroup, hrecord⟩ := List.append_inj h rfl
  simp only [SeekEntry.mk.injEq]
  exact ⟨writeU32_inj htrack, writeU32_inj hgeneration, writeU64_inj hseq, writeI64_inj hpts,
    writeU64_inj hgroup, writeU64_inj hrecord⟩

/-- The entry names a known track, and its record lies in its group and before the index. -/
def SeekEntry.Placed (tracks : List TrackSnapshot) (frame : RecordFrame)
    (entry : SeekEntry) : Prop :=
  (findTrack tracks entry.trackId entry.generation).isSome ∧ ¬entry.groupOffset < 72 ∧
    ¬entry.recordOffset < entry.groupOffset ∧
    ¬entry.recordOffset.toNat ≥ frame.offset

/-- The key that a decoder compares. -/
def SeekEntry.sortKey (entry : SeekEntry) : UInt64 :=
  (entry.trackId.toUInt64 <<< 32) ^^^ (if entry.pts < 0 then 0 else entry.pts).toUInt64

theorem decodes_seekEntry (tracks : List TrackSnapshot) (frame : RecordFrame) :
    Decodes (readSeekEntry tracks frame) fun key bs =>
    ∃ entry : SeekEntry, bs = entry.bytes ∧ entry.Placed tracks frame ∧ key = entry.sortKey := by
  refine (decodes_u32.bind fun track => decodes_u32.bind fun generation => decodes_u64.bind fun _ =>
    decodes_i64.bind fun pts =>
    decodes_u64.bind fun group => decodes_u64.bind fun record => (decodes_guard _).bind fun _ =>
      (decodes_guard _).bind fun _ =>
    (decodes_guard _).bind fun _ => (decodes_guard _).bind fun _ => decodes_pure _).congr
      fun key bs => ?_
  constructor
  · rintro ⟨track, _, _, rfl,
      ⟨generation, _, _, rfl,
        ⟨seq, _, _, rfl, ⟨pts, _, _, rfl,
          ⟨group, _, _, rfl, ⟨record, _, _, rfl,
            ⟨_, _, _, ⟨hfind, rfl⟩,
              ⟨_, _, _, ⟨hgroup, rfl⟩, ⟨_, _, _, ⟨hrecord, rfl⟩, ⟨_, _, _, ⟨hframe, rfl⟩,
                ⟨rfl, rfl⟩, rfl⟩, rfl⟩, rfl⟩, rfl⟩, rfl⟩, rfl⟩, rfl⟩, rfl⟩, rfl⟩, rfl⟩
    exact ⟨⟨track, generation, seq, pts, group, record⟩,
      by simp [SeekEntry.bytes], ⟨hfind, hgroup, hrecord, hframe⟩, rfl⟩
  · rintro ⟨⟨track, generation, seq, pts, group, record⟩, rfl,
      ⟨hfind, hgroup, hrecord, hframe⟩, rfl⟩
    exact ⟨track, _, _, rfl,
      ⟨generation, _, _, rfl,
        ⟨seq, _, _, rfl, ⟨pts, _, _, rfl,
          ⟨group, _, _, rfl, ⟨record, _, _, rfl,
            ⟨(), _, _, ⟨hfind, rfl⟩,
              ⟨(), _, _, ⟨hgroup, rfl⟩,
                ⟨(), _, _, ⟨hrecord, rfl⟩, ⟨(), _, _, ⟨hframe, rfl⟩, ⟨rfl, rfl⟩, rfl⟩, rfl⟩, rfl⟩,
                  rfl⟩, (List.append_nil _).symm⟩, rfl⟩, rfl⟩, rfl⟩, rfl⟩, rfl⟩

/-- **The seek indexes that a decoder accepts**: each entry is placed, and the keys never
decrease. -/
theorem emitSimpleRecord_seekIndex_iff {limits : Limits} {tracks : List TrackSnapshot}
    {frame : RecordFrame} {fileData : Bytes} {indexGeneration : UInt64} {entries : List SeekEntry}
    (ht : frame.type = RecordType.seekIndex.code) (hlt : entries.length < 2 ^ 64) :
    emitSimpleRecord limits tracks frame fileData (seekIndexPayload indexGeneration entries) =
      .ok () ↔
      (∀ entry ∈ entries, entry.Placed tracks frame) ∧
        entries.IsChain fun a b => a.sortKey ≤ b.sortKey := by
  have hhead : Decodes (do let _indexGeneration ← readerReadU64; readerReadUleb128 :
      Reads UInt8 UInt64) fun count bs => ∃ generation, bs = writeU64 generation ++
        writeUleb128 count := by
    refine (decodes_u64.bind fun _ => decodes_uleb128).congr fun count bs => ?_
    constructor
    · rintro ⟨generation, _, _, rfl, rfl, rfl⟩
      exact ⟨generation, rfl⟩
    · rintro ⟨generation, rfl⟩
      exact ⟨generation, _, _, rfl, rfl, rfl⟩
  have hchecks : simpleRecordChecks limits tracks frame fileData = checkSeekIndex tracks frame := by
    rw [simpleRecordChecks, ht, recordTypeOf_code]
  rw [emitSimpleRecord, hchecks]
  refine (table_accepted_iff (accepts_orError hhead _)
    (accepts_row (decodes_seekEntry tracks frame) id id _ _) _ _ _).trans ?_
  constructor
  · rintro ⟨_, entries', ⟨generation, rfl⟩, hlt', hpayload, hplaced, hchain⟩
    rw [seekIndexPayload, List.append_assoc] at hpayload
    obtain rfl := table_inj SeekEntry.length_bytes SeekEntry.bytes_injective (by omega)
      (by simp) hpayload
    exact ⟨hplaced, hchain.imp fun a b => UInt64.not_lt.mp⟩
  · rintro ⟨hplaced, hchain⟩
    exact ⟨_, entries, ⟨indexGeneration, rfl⟩, hlt,
      by simp [seekIndexPayload], hplaced, hchain.imp fun a b => UInt64.not_lt.mpr⟩

/-! ### The order of the keys and the order of the entries -/

/-- The order by track and time. -/
def SeekEntry.TimeLe (a b : SeekEntry) : Prop :=
  a.trackId.toNat < b.trackId.toNat ∨ a.trackId.toNat = b.trackId.toNat ∧ a.pts.toInt ≤ b.pts.toInt

/-- The time as a natural number; a negative one counts as zero. -/
def SeekEntry.ticks (entry : SeekEntry) : ℕ := entry.pts.toInt.toNat

/-- The track after an exclusive or with the high word of the time. -/
def SeekEntry.mixedTrack (entry : SeekEntry) : ℕ := entry.trackId.toNat ^^^ entry.ticks / 2 ^ 32

/-- The order by mixed track and the low word of the time. -/
def SeekEntry.MixedLe (a b : SeekEntry) : Prop :=
  a.mixedTrack < b.mixedTrack ∨ a.mixedTrack = b.mixedTrack ∧ a.ticks % 2 ^ 32 ≤ b.ticks % 2 ^ 32

theorem SeekEntry.toNat_sortKey (entry : SeekEntry) :
    entry.sortKey.toNat = entry.mixedTrack * 2 ^ 32 + entry.ticks % 2 ^ 32 := by
  have hticks : (if entry.pts < 0 then 0 else entry.pts).toUInt64.toNat = entry.ticks := by
    rw [SeekEntry.ticks]
    split
    · rename_i hneg
      rw [Int64.lt_iff_toInt_lt, Int64.toInt_zero] at hneg
      rw [Int.toNat_of_nonpos hneg.le]
      rfl
    · rename_i hnn
      rw [Int64.toNat_toUInt64_of_le (Int64.not_lt.mp hnn)]
      rfl
  have hshift : (entry.trackId.toUInt64 <<< 32).toNat = entry.trackId.toNat * 2 ^ 32 := by
    have hlt := entry.trackId.toNat_lt
    rw [UInt64.toNat_shiftLeft, UInt32.toNat_toUInt64]
    change entry.trackId.toNat <<< 32 % 2 ^ 64 = _
    rw [Nat.shiftLeft_eq, Nat.mod_eq_of_lt (by omega)]
  rw [SeekEntry.sortKey, UInt64.toNat_xor, hticks, hshift, SeekEntry.mixedTrack]
  -- the high word and the low word of the exclusive or
  have hhigh : (entry.trackId.toNat * 2 ^ 32 ^^^ entry.ticks) / 2 ^ 32 =
      entry.trackId.toNat ^^^ entry.ticks / 2 ^ 32 := by
    rw [Nat.xor_div_two_pow, Nat.mul_div_cancel _ (by norm_num)]
  have hlow : (entry.trackId.toNat * 2 ^ 32 ^^^ entry.ticks) % 2 ^ 32 = entry.ticks % 2 ^ 32 := by
    rw [Nat.xor_mod_two_pow, Nat.mul_mod_left, Nat.zero_xor]
  rw [← hhigh, ← hlow, Nat.div_add_mod']

/-- The keys are in the order by mixed track. -/
theorem SeekEntry.sortKey_le_iff (a b : SeekEntry) : a.sortKey ≤ b.sortKey ↔ a.MixedLe b := by
  have ha := Nat.mod_lt a.ticks (y := 2 ^ 32) (by norm_num)
  have hb := Nat.mod_lt b.ticks (y := 2 ^ 32) (by norm_num)
  rw [UInt64.le_iff_toNat_le, SeekEntry.toNat_sortKey, SeekEntry.toNat_sortKey, SeekEntry.MixedLe]
  omega

/-- Times that fit a word leave the track alone. -/
theorem SeekEntry.mixedLe_iff {a b : SeekEntry} (ha : 0 ≤ a.pts.toInt ∧ a.pts.toInt < 2 ^ 32)
    (hb : 0 ≤ b.pts.toInt ∧ b.pts.toInt < 2 ^ 32) : a.MixedLe b ↔ a.TimeLe b := by
  have hword : ∀ e : SeekEntry, 0 ≤ e.pts.toInt ∧ e.pts.toInt < 2 ^ 32 →
      e.mixedTrack = e.trackId.toNat ∧ (e.ticks % 2 ^ 32 : ℕ) = e.pts.toInt := by
    intro e he
    have hlt : e.ticks < 2 ^ 32 := by rw [SeekEntry.ticks]; omega
    rw [SeekEntry.mixedTrack, Nat.div_eq_of_lt hlt, Nat.xor_zero, Nat.mod_eq_of_lt hlt,
      SeekEntry.ticks]
    omega
  obtain ⟨hmixed, hticks⟩ := hword a ha
  obtain ⟨hmixed', hticks'⟩ := hword b hb
  rw [SeekEntry.MixedLe, SeekEntry.TimeLe, hmixed, hmixed', ← hticks, ← hticks']
  omega

theorem SeekEntry.isChain_timeLe_iff (entries : List SeekEntry) :
    entries.IsChain SeekEntry.TimeLe ↔ entries.Pairwise SeekEntry.TimeLe := by
  have : Trans SeekEntry.TimeLe SeekEntry.TimeLe SeekEntry.TimeLe := ⟨by
    intro a b c hab hbc
    unfold SeekEntry.TimeLe at *
    omega⟩
  exact List.isChain_iff_pairwise

/-- The decoder accepts a seek index exactly if its entries are sorted by track and time. -/
def AcceptedIfSorted (limits : Limits) (tracks : List TrackSnapshot) (frame : RecordFrame)
    (fileData : Bytes) (indexGeneration : UInt64) (entries : List SeekEntry) : Prop :=
  emitSimpleRecord limits tracks frame fileData (seekIndexPayload indexGeneration entries) =
    .ok () ↔ entries.Pairwise SeekEntry.TimeLe

/-- **When a seek index of placed entries is accepted exactly if it is sorted**: if and only
if mixing the high words of the times into the tracks does not change whether neighbours
are all in order. Times that fit a word never change it. -/
theorem acceptedIfSorted_iff (limits : Limits) (tracks : List TrackSnapshot) (frame : RecordFrame)
    (fileData : Bytes) (indexGeneration : UInt64) (entries : List SeekEntry)
    (ht : frame.type = RecordType.seekIndex.code) (hlt : entries.length < 2 ^ 64)
    (hplaced : ∀ entry ∈ entries, entry.Placed tracks frame) :
    (AcceptedIfSorted limits tracks frame fileData indexGeneration entries ↔
      (entries.IsChain SeekEntry.MixedLe ↔ entries.IsChain SeekEntry.TimeLe)) ∧
    ((∀ entry ∈ entries, 0 ≤ entry.pts.toInt ∧ entry.pts.toInt < 2 ^ 32) →
      AcceptedIfSorted limits tracks frame fileData indexGeneration entries) := by
  have haccept : emitSimpleRecord limits tracks frame fileData
      (seekIndexPayload indexGeneration entries) = .ok () ↔ entries.IsChain SeekEntry.MixedLe := by
    rw [emitSimpleRecord_seekIndex_iff ht hlt]
    simp only [SeekEntry.sortKey_le_iff]
    exact and_iff_right hplaced
  have hexact : AcceptedIfSorted limits tracks frame fileData indexGeneration entries ↔
      (entries.IsChain SeekEntry.MixedLe ↔ entries.IsChain SeekEntry.TimeLe) := by
    rw [AcceptedIfSorted, haccept, SeekEntry.isChain_timeLe_iff]
  refine ⟨hexact, fun hword => hexact.mpr ?_⟩
  apply List.IsChain.iff_of_mem_imp
  intro a b ha hb
  exact SeekEntry.mixedLe_iff (hword a ha) (hword b hb)

/-- The tracks and the frame of a seek index behind 128 bytes. -/
def sampleTracks : List TrackSnapshot := [⟨1, 1, 1, 0, ⟨1, 1⟩⟩, ⟨2, 1, 1, 0, ⟨1, 1⟩⟩]

def seekFrame : RecordFrame := RecordHead.frameAt ⟨RecordType.seekIndex.code, 0, 0, 0, 3⟩ 200 0 0

/-- Two tracks, and times in a word. -/
theorem sampleSeekIndex_acceptedIfSorted :
    AcceptedIfSorted limitsDefault sampleTracks seekFrame [] 1 [⟨1, 1, 0, 4294967295, 72, 72⟩,
      ⟨2, 1, 0, 7, 72, 100⟩] := by
  have hplaced : ∀ entry ∈ [(⟨1, 1, 0, 4294967295, 72, 72⟩ : SeekEntry), ⟨2, 1, 0, 7, 72, 100⟩],
      entry.Placed sampleTracks seekFrame := by
    simp only [List.forall_mem_cons, SeekEntry.Placed]
    exact ⟨by decide, by decide, by simp⟩
  apply (acceptedIfSorted_iff limitsDefault sampleTracks seekFrame [] 1 _ rfl (by decide) hplaced).2
  simp only [List.forall_mem_cons]
  exact ⟨by decide, by decide, by simp⟩

/-- Two entries of one track, the second 2 ^ 32 ticks later: sorted, and refused. -/
theorem longSeekIndex_refused :
    (∀ entry ∈ [(⟨1, 1, 0, 0, 72, 72⟩ : SeekEntry), ⟨1, 1, 1, 4294967296, 72, 100⟩],
      entry.Placed sampleTracks seekFrame) ∧
      ¬AcceptedIfSorted limitsDefault sampleTracks seekFrame [] 1 [⟨1, 1, 0, 0, 72, 72⟩,
        ⟨1, 1, 1, 4294967296, 72, 100⟩] := by
  have hplaced : ∀ entry ∈ [(⟨1, 1, 0, 0, 72, 72⟩ : SeekEntry), ⟨1, 1, 1, 4294967296, 72, 100⟩],
      entry.Placed sampleTracks seekFrame := by
    simp only [List.forall_mem_cons, SeekEntry.Placed]
    exact ⟨by decide, by decide, by simp⟩
  refine ⟨hplaced, fun h => ?_⟩
  rw [AcceptedIfSorted, emitSimpleRecord_seekIndex_iff rfl (by decide)] at h
  have hsorted : [(⟨1, 1, 0, 0, 72, 72⟩ : SeekEntry), ⟨1, 1, 1, 4294967296, 72, 100⟩].Pairwise
      SeekEntry.TimeLe := by
    simp [SeekEntry.TimeLe]
  have hkeys := (h.mpr hsorted).2
  simp only [List.isChain_cons_cons] at hkeys
  exact absurd hkeys.1 (by decide)

end Tide
