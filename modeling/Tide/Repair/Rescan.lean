import Tide.Repair
import Tide.Format.Within

/-!
# The two passes of a repair

`tide_repair_scan` parses the source under the limits of its options, and
`tide_repair_write` parses the valid prefix under the default limits: the plan does not keep
the ones it was made with. What the scan passes over is a file under the limits of the
scan (`fileOk_of_scan`), so the second pass accepts it if and only if it is also within the
default ones (`demuxOpen_scanned_iff`).
-/

namespace Tide

variable {source : Bytes} {options : Option RepairOptions}

/-- The valid prefix of a scan that ends with `OK` or `PARTIAL` is a file. -/
theorem fileOk_of_scan (hsource : source.length ≤ sizeMax)
    (hscan : (repairScan source options (Stream'.const true)).1 = .ok ∨
      (repairScan source options (Stream'.const true)).1 = .partialTail)
    (hnonzero : (repairScan source options (Stream'.const true)).2.validPrefix ≠ 0) :
    ∃ hd f, FileOk (repairLimits options) (admits (repairLimits options))
      (source.take (repairScan source options (Stream'.const true)).2.validPrefix) hd f := by
  unfold repairScan at *
  dsimp only at *
  obtain ⟨e, -, hparse⟩ | ⟨hd, f, p, r, hhd, hf, hbytes, -, hvp, hends, hparse⟩ :=
    parseTideBytes_cases (calm_scan (repairLimits options)) hsource true
  · rw [hparse] at hnonzero
    exact absurd rfl hnonzero
  rw [hparse] at hscan ⊢
  have hlen : (hd.bytes ++ f.bytes).length = 72 + f.bytes.length := by
    rw [List.length_append, hd.length_bytes hhd.uuid_length]
  -- neither status is that of a record that was refused
  have hvalid : r.2.validPrefix = (hd.bytes ++ f.bytes).length := by
    rw [hlen]
    cases hends with
    | done => exact hvp
    | more => rfl
    | refused _ _ hrej =>
      rcases status_of_atEnd hscan with h | h | h
      · exact absurd h hrej.1
      · exact absurd h hrej.2.2
      · exact absurd h hrej.2.1
  refine ⟨hd, f, hhd, hf, ?_⟩
  dsimp only
  rw [hvalid]
  exact (List.prefix_iff_eq_take.mp hbytes).symm

/-- **What a scan accepts, the second pass accepts within the default limits.** If a scan ends
with `OK` or `PARTIAL` and its valid prefix is not empty, the prefix is a file under the
limits of the scan, and opening it succeeds if and only if the record size its header
announces, its records, its groups, its tables and its tracks are within the default ones. -/
theorem demuxOpen_scanned_iff (source : Bytes) (hsource : source.length ≤ sizeMax)
    (options : Option RepairOptions) {status : Status} {plan : RepairPlan}
    (hscan : repairScan source options (Stream'.const true) = (status, plan))
    (hstatus : status = .ok ∨ status = .partialTail) (hnonzero : plan.validPrefix ≠ 0) :
    (∃ hd f, FileOk (repairLimits options) (admits (repairLimits options))
      (source.take plan.validPrefix) hd f) ∧
      ∀ hd f, FileOk (repairLimits options) (admits (repairLimits options))
        (source.take plan.validPrefix) hd f →
        ((demuxOpen (plan.source.take plan.validPrefix) (some repairDemuxOptions)
          (Stream'.const true) (Stream'.const true)).1 = .ok ∨
          (demuxOpen (plan.source.take plan.validPrefix) (some repairDemuxOptions)
            (Stream'.const true) (Stream'.const true)).1 =
            .partialTail ↔
          hd.maxRecordHint ≤ limitsDefault.maxRecordSize ∧ f.Within limitsDefault 0 ∧
            f.tracks.length ≤ limitsDefault.maxTracks.toNat) := by
  have hplan : plan = (repairScan source options (Stream'.const true)).2 := by rw [hscan]
  have hfst : status = (repairScan source options (Stream'.const true)).1 := by rw [hscan]
  have hsrc : plan.source = source := by rw [hplan]; rfl
  have hfile := fileOk_of_scan hsource (hfst ▸ hstatus) (hplan ▸ hnonzero)
  rw [← hplan] at hfile
  refine ⟨hfile, ?_⟩
  intro hd f hf
  have hle : (source.take plan.validPrefix).length ≤ sizeMax := by
    rw [List.length_take]
    omega
  rw [hsrc, demuxOpen_fst]
  exact parseTideBytes_within_iff (calm_demux limitsDefault (some repairDemuxOptions)) hle hf
    (by decide) rfl

/-- The small file is scanned and opened. -/
theorem sampleFile_scanned : (repairScan sampleFile none (Stream'.const true)).1 = .ok ∧
    ∃ hd f, FileOk limitsDefault (admits limitsDefault)
    (sampleFile.take (repairScan sampleFile none (Stream'.const true)).2.validPrefix) hd f ∧
      hd.maxRecordHint ≤ limitsDefault.maxRecordSize ∧ f.Within limitsDefault 0 ∧
        f.tracks.length ≤ limitsDefault.maxTracks.toNat := by
  have hok : (repairScan sampleFile none (Stream'.const true)).1 = .ok := by decide +kernel
  obtain ⟨⟨hd, f, hf⟩, hiff⟩ := demuxOpen_scanned_iff sampleFile (by decide +kernel) none rfl
    (.inl hok) (by decide +kernel)
  exact ⟨hok, hd, f, hf, (hiff hd f hf).mp (.inl (by decide +kernel))⟩

/-- A header that announces records of up to 128 MiB. -/
def largeHeader : Header := { sampleHeader with maxRecordHint := 128 * 1024 * 1024 }

/-- Options under which they are allowed. -/
def largeOptions : RepairOptions := ⟨{ limitsDefault with maxRecordSize := 128 * 1024 * 1024 }⟩

/-- A scan that is `OK` does not mean that the prefix can be opened. -/
theorem largeHeader_not_opened :
    ¬ ∀ (source : Bytes) (options : Option RepairOptions), source.length ≤ sizeMax →
      ((repairScan source options (Stream'.const true)).1 = .ok ∨
        (repairScan source options (Stream'.const true)).1 = .partialTail) →
      (repairScan source options (Stream'.const true)).2.validPrefix ≠ 0 →
      (demuxOpen (source.take (repairScan source options (Stream'.const true)).2.validPrefix)
        (some repairDemuxOptions)
          (Stream'.const true) (Stream'.const true)).1 = .ok ∨
        (demuxOpen (source.take (repairScan source options (Stream'.const true)).2.validPrefix)
          (some repairDemuxOptions)
          (Stream'.const true) (Stream'.const true)).1 = .partialTail := by
  intro h
  have hopened := h largeHeader.bytes (some largeOptions) (by decide +kernel) (by decide +kernel)
    (by decide +kernel)
  have hres : (demuxOpen (largeHeader.bytes.take (repairScan largeHeader.bytes (some largeOptions)
      (Stream'.const true)).2.validPrefix) (some repairDemuxOptions) (Stream'.const true)
        (Stream'.const true)).1 = .resource :=
        by decide +kernel
  rw [hres] at hopened
  rcases hopened with h | h <;> cases h

end Tide
