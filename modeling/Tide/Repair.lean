import Tide.Remux

/-!
# Repair

The model of `src/repair/scanner.c` and of `repair_cmd` in `src/cli/main.c`. A scan parses the
source without callbacks and keeps the valid prefix; writing parses that prefix once more,
as a demux, and copies what it holds to a fresh mux.

The valid prefix is not always the end of a top-level record: a scan that stops among the
children of a group leaves it behind the last good child. The second pass then finds a group
that is cut short, and answers `PARTIAL` with the records before the group.

* `repairScan_stops`: what the scan has passed over when it stops is a valid header and a
  well-formed forest, and the next record is not a complete and well-formed one.
* `demuxOpen_salvage`: the second pass holds what that forest tells, and nothing else.
* `repair_salvages`: so does the file that is written.
-/

namespace Tide

/-- `tide_repair_options`; `require_checkpoint` is read by no function. -/
structure RepairOptions where
  limits : Limits

/-- `struct tide_repair_plan`. -/
structure RepairPlan where
  source : Bytes
  validPrefix : ℕ
  error : Error

/-- The limits the options give, if they give any. -/
def repairLimits : Option RepairOptions → Limits
  | none => limitsDefault
  | some options => if options.limits.maxRecordSize = 0 then limitsDefault else options.limits

/-- `tide_repair_scan`, unless the plan itself cannot be allocated. There is a plan whatever
the status. -/
def repairScan (source : Bytes) (options : Option RepairOptions)
    (trackAllocs : Stream' Bool) : Status × RepairPlan :=
  let r := parseTideBytes source true (some (repairLimits options)) Callbacks.null () trackAllocs
  (r.1, ⟨source, r.2.validPrefix, r.2.error⟩)

/-- The `demux_options` of `tide_repair_write`. -/
def repairDemuxOptions : DemuxOptions := ⟨limitsDefault, 0, false⟩

/-- `tide_repair_write`, unless the source of the prefix cannot be allocated: the status, and
the bytes that are handed to `fwrite`. If a call to the mux fails, it is aborted. -/
def repairWrite (plan : RepairPlan) (trackAllocs allocs : Stream' Bool)
    (env : MuxEnv) : Status × Option Bytes :=
  if plan.validPrefix = 0 then (.invalidArgument, none)
  else
    let opened :=
      demuxOpen (plan.source.take plan.validPrefix) (some repairDemuxOptions) trackAllocs allocs
    match if opened.1 = .partialTail then .ok else opened.1, opened.2 with
    | .ok, some demux =>
      match muxCreate none env.opened env.allocs env.scratch with
      | (.ok, some mux) =>
        match copyAll demux mux with
        | (.ok, mux) => muxClose mux env.written env.flushed
        | (status, _) => (status, none)
      | (status, _) => (status, none)
    | status, _ => (status, none)

/-- `repair_cmd` on a source that could be read. -/
def repairCmd (source : Bytes) (scanAllocs trackAllocs allocs : Stream' Bool)
    (env : MuxEnv) : ℕ × Option Bytes :=
  let scanned := repairScan source none scanAllocs
  if scanned.1 = .ok ∨ scanned.1 = .partialTail then
    let written := repairWrite scanned.2 trackAllocs allocs env
    (statusToExit written.1, written.2)
  else (statusToExit scanned.1, none)

/-! ### Where a scan stops -/

/-- The parser of a scan is calm under any limits. -/
theorem calm_scan (L : Limits) :
    (Parsing.start (some L) Callbacks.null () (Stream'.const true)).Calm fun _ => True := by
  refine ⟨fun user event _ => ?_, trivial, rfl⟩
  cases event <;> exact ⟨rfl, trivial⟩

/-- The parser of a scan before the first byte. -/
def Parsing.scanning : Parsing Unit :=
  Parsing.start (some limitsDefault) Callbacks.null () (Stream'.const true)

theorem calm_scanning : Parsing.scanning.Calm fun _ => True := calm_scan limitsDefault

/-- The scan of the source passes over the header `hd` and the top-level records of `f`, and
stops in the next one if there is more. -/
structure ScanStops (source : Bytes) (hd : Header) (f : Forest) : Prop where
  header : hd.Valid limitsDefault
  forest : f.Valid limitsDefault (admits limitsDefault) 0 hd.bytes []
  bytes : hd.bytes ++ f.bytes <+: source
  /-- A scan that does not stop has passed over all of the source. -/
  whole : (repairScan source none (Stream'.const true)).1 = .ok → source = hd.bytes ++ f.bytes
  /-- A scan that stops does so at the record behind `f`. -/
  stopped : (repairScan source none (Stream'.const true)).1 ≠ .ok →
    72 + f.bytes.length < source.length ∧
    ∃ p, Parsing.scanning.Follows p (f.events 72 0) f.tracks ∧
      ∀ next q, recordStep (parseRecords source) source source.length (72 + f.bytes.length) 0 p ≠
        .go next q
  /-- The record behind `f` is not a complete and well-formed one. -/
  last : ∀ r : Forest, r.IsRecord →
    r.Valid limitsDefault (admits limitsDefault) 0 (hd.bytes ++ f.bytes) f.tracks →
    ¬ hd.bytes ++ f.bytes ++ r.bytes <+: source

/-- The valid prefix is the end of the last record before the stop, or lies within the record
in which the scan stopped. -/
def PrefixWithin (source : Bytes) (offset validPrefix : ℕ) : Prop :=
  validPrefix = offset ∨ ∃ frame, decodeRecordPrefix source source.length offset 0 = .frame frame ∧
    offset < validPrefix ∧ validPrefix < frame.crcEnd

/-- Where the loop ends before its range does, no round goes on. -/
theorem Ends.no_go {σ : Type} {data : Bytes} {size offset : ℕ} {depth : UInt8} {p : Parsing σ}
    {r : Status × Parsing σ} (h : Ends data size offset depth p r) (hlt : offset < size) (next : ℕ)
    (q : Parsing σ) :
    recordStep (parseRecords data) data size offset depth p ≠ .go next q := by
  cases h with
  | done hend => exact absurd hend (Nat.ne_of_lt hlt)
  | more _ hstep => rw [hstep]; nofun
  | refused _ hstep => rw [hstep]; nofun

/-- The loop is `OK` only at the end of its range. -/
theorem Ends.ok_iff {σ : Type} {data : Bytes} {size offset : ℕ} {depth : UInt8} {p : Parsing σ}
    {r : Status × Parsing σ} (h : Ends data size offset depth p r) : r.1 = .ok ↔ offset = size := by
  cases h with
  | done hend => exact ⟨fun _ => hend, fun _ => rfl⟩
  | more hlt => exact ⟨nofun, fun h => absurd h (Nat.ne_of_lt hlt)⟩
  | refused hlt _ hrej => exact ⟨fun h => absurd h hrej.1, fun h => absurd h (Nat.ne_of_lt hlt)⟩

/-- Where the loop leaves the valid prefix, if it was at the offset. -/
theorem Ends.prefixWithin {σ : Type} {data : Bytes} {offset : ℕ} {p : Parsing σ}
    {r : Status × Parsing σ} (h : Ends data data.length offset 0 p r)
    (hp : p.validPrefix = offset) : PrefixWithin data offset r.2.validPrefix := by
  cases h with
  | done => exact .inl hp
  | more => exact .inl rfl
  | refused _ _ _ hvp => exact hvp.imp (·.trans hp) id

/-- **Where a scan stops**, and where it leaves the valid prefix. -/
theorem repairScan_stops {source : Bytes} (hsource : source.length ≤ sizeMax)
    (hnonzero : (repairScan source none (Stream'.const true)).2.validPrefix ≠ 0) :
    ∃ hd f, ScanStops source hd f ∧
      PrefixWithin source (72 + f.bytes.length)
        (repairScan source none (Stream'.const true)).2.validPrefix := by
  obtain ⟨e, -, hparse⟩ | ⟨hd, f, p, r, hhd, hf, hbytes, hfol, hvp, hends, hparse⟩ :=
    parseTideBytes_cases calm_scanning hsource true
  · have hzero : (repairScan source none (Stream'.const true)).2.validPrefix = 0 := by
      unfold repairScan
      dsimp only [repairLimits]
      rw [hparse]
      rfl
    exact absurd hzero hnonzero
  have hstatus : (repairScan source none (Stream'.const true)).1 = atEnd true r.1 :=
    congrArg Prod.fst hparse
  have hvalid : (repairScan source none (Stream'.const true)).2.validPrefix = r.2.validPrefix :=
    congrArg (fun r => r.2.validPrefix) hparse
  have hlen : (hd.bytes ++ f.bytes).length = 72 + f.bytes.length := by
    rw [List.length_append, hd.length_bytes hhd.uuid_length]
  have hle := hbytes.length_le
  have htake : source.take (72 + f.bytes.length) = hd.bytes ++ f.bytes := by
    rw [← hlen]
    exact (List.prefix_iff_eq_take.mp hbytes).symm
  have hok : (repairScan source none (Stream'.const true)).1 = .ok ↔
      72 + f.bytes.length = source.length := by
    rw [hstatus, atEnd_eq_ok_iff, hends.ok_iff]
  refine ⟨hd, f, ⟨hhd, hf, hbytes, ?_, ?_, ?_⟩, ?_⟩
  · intro h
    rw [← htake, List.take_of_length_le (by have := hok.mp h; omega)]
  · intro h
    have hlt : 72 + f.bytes.length < source.length := by have := mt hok.mpr h; omega
    exact ⟨hlt, p, hfol, hends.no_go hlt⟩
  · rintro record hrecord hvrecord ⟨rest, hrest⟩
    have hl : Lies source (72 + f.bytes.length) record.bytes := by
      rw [← hlen, ← hrest, List.append_assoc]
      exact lies_mid ..
    have hend := congrArg List.length hrest
    rw [List.length_append, List.length_append, hlen] at hend
    have hpos := hrecord.length_pos
    have hlimits : p.limits = limitsDefault := hfol.limits
    have htracks : p.tracks = f.tracks := hfol.tracks
    rw [← htake, ← htracks, ← hlimits] at hvrecord
    obtain ⟨q, -, hgo⟩ := recordStep_record hrecord (Nat.le_refl source.length) hsource
      (hfol.calm calm_scanning) (by omega) hvrecord hl
      (by omega)
    exact hends.no_go (by omega) _ _ hgo
  · rw [hvalid]
    exact hends.prefixWithin hvp

/-! ### The second pass and the file -/

/-- **What the second pass holds**: it accepts the prefix, if with a partial tail, and holds
what the forest before the stop tells. -/
theorem demuxOpen_salvage {source : Bytes} {hd : Header} {f : Forest} {n : ℕ}
    (hsource : source.length ≤ sizeMax) (hstops : ScanStops source hd f)
    (hn : PrefixWithin source (72 + f.bytes.length) n) :
    ∃ status demux,
      demuxOpen (source.take n) (some repairDemuxOptions) (Stream'.const true)
        (Stream'.const true) = (status, some demux) ∧ (status = .ok ∨ status = .partialTail) ∧
      demux.Holds (some repairDemuxOptions) (f.events 72 0) := by
  have hlen : (hd.bytes ++ f.bytes).length = 72 + f.bytes.length := by
    rw [List.length_append, hd.length_bytes hstops.header.uuid_length]
  have htake : source.take (72 + f.bytes.length) = hd.bytes ++ f.bytes := by
    rw [← hlen]
    exact (List.prefix_iff_eq_take.mp hstops.bytes).symm
  have hhd := hstops.header
  have hf := hstops.forest
  rw [← show demuxLimits (some repairDemuxOptions) = limitsDefault from rfl] at hhd hf
  rcases hn with rfl | ⟨frame, hframe, hlt, hcut⟩
  · have hle : (source.take (72 + f.bytes.length)).length ≤ sizeMax := by
      rw [List.length_take]
      omega
    obtain ⟨demux, hopen, hholds⟩ := demuxOpen_file hle ⟨hhd, hf, htake⟩
    exact ⟨.ok, demux, hopen, .inl rfl, hholds⟩
  -- the prefix ends within a record, which the loop takes for incomplete
  have hend := (ends_le_of_frame hframe).2
  have hnlen : (source.take n).length = n := List.length_take_of_le (by omega)
  have hpre : hd.bytes ++ f.bytes <+: source.take n := by
    rw [List.prefix_take_iff]
    exact ⟨hstops.bytes, by omega⟩
  have htrunc : decodeRecordPrefix (source.take n) n (72 + f.bytes.length) 0 = .truncated := by
    rw [decodeRecordPrefix_congr (show (source.take n).take n =
      source.take n by rw [List.take_take, Nat.min_self])]
    exact decodeRecordPrefix_cut hframe (by omega) hcut
  obtain ⟨p, hfol, -, hparse⟩ :=
    parseTideBytes_forest (calm_demux (demuxLimits (some repairDemuxOptions))
      (some repairDemuxOptions)) (by omega) hhd hf hpre true
  have hloop : parseRecords (source.take n) (72 + f.bytes.length) (source.take n).length 0 p =
      (.truncated, { p with validPrefix := 72 + f.bytes.length }) := by
    rw [hnlen, parseRecords_eq _ (by omega), if_pos hlt, recordStep, htrunc]
  rw [hloop] at hparse
  obtain ⟨demux, hopen, hholds⟩ := demuxOpen_follows hparse (hfol.withPrefix _) (.inr ⟨rfl, rfl⟩)
  exact ⟨.partialTail, demux, hopen, .inr rfl, hholds⟩

/-- Writing the repaired file is a session with a mux. -/
theorem repairWrite_session {plan : RepairPlan} {trackAllocs allocs : Stream' Bool}
    {status : Status} {demux : Demux} (env : MuxEnv) (hnonzero : plan.validPrefix ≠ 0)
    (hopen : demuxOpen (plan.source.take plan.validPrefix) (some repairDemuxOptions) trackAllocs
      allocs = (status, some demux))
    (hstatus : status = .ok ∨ status = .partialTail) (hcursor : demux.cursor = 0) :
    repairWrite plan trackAllocs allocs env = muxSession none env
      (copies demux.streams demux.packets) := by
  have hok : (if status = .partialTail then Status.ok else status) = .ok := by
    rcases hstatus with rfl | rfl <;> rfl
  have hcopy : copyAll demux = fun mux => mux.calls (copies demux.streams demux.packets) :=
    funext (copyAll_eq_calls hcursor)
  rw [repairWrite, if_neg hnonzero, hopen]
  dsimp only
  rw [hok]
  dsimp only
  rw [hcopy]
  rfl

/-- **Repair salvages exactly the complete top-level records before the stop.** Whatever the
scan answers, if its valid prefix is not empty then the second pass accepts the prefix and
yields the streams and the packets of the records before the one in which the scan
stopped, and if the repair returns `OK` there is a file, which is accepted and yields the same. -/
theorem repair_salvages (source : Bytes) (hsource : source.length ≤ sizeMax)
    (hnonzero : (repairScan source none (Stream'.const true)).2.validPrefix ≠ 0) :
    ∃ hd f, ScanStops source hd f ∧
      (∃ status demux,
        demuxOpen (source.take (repairScan source none (Stream'.const true)).2.validPrefix)
          (some repairDemuxOptions) (Stream'.const true) (Stream'.const true) =
            (status, some demux) ∧ (status = .ok ∨ status = .partialTail) ∧
        demux.Yields (streamsOf (f.events 72 0)) (packetsOf (f.events 72 0))) ∧
      ∀ env : MuxEnv,
        (repairWrite (repairScan source none (Stream'.const true)).2 (Stream'.const true)
          (Stream'.const true) env).1 = .ok →
        ∃ bytes, repairWrite (repairScan source none (Stream'.const true)).2 (Stream'.const true)
            (Stream'.const true) env = (.ok, some bytes) ∧
          ∀ options : Option DemuxOptions, demuxLimits options = limitsDefault →
            options.elim 0 DemuxOptions.selectedTrack = 0 →
            ∃ demux, demuxOpen bytes options (Stream'.const true) (Stream'.const true) =
              (.ok, some demux) ∧
              demux.Yields (streamsOf (f.events 72 0)) (packetsOf (f.events 72 0)) := by
  obtain ⟨hd, f, hstops, hwithin⟩ := repairScan_stops hsource hnonzero
  obtain ⟨status, demux, hopen, hstatus, hholds⟩ := demuxOpen_salvage hsource hstops hwithin
  refine ⟨hd, f, hstops, ⟨status, demux, hopen, hstatus, hholds.yields rfl⟩, ?_⟩
  intro env hok
  rw [repairWrite_session env hnonzero hopen hstatus hholds.cursor, hholds.streams,
    hholds.all rfl] at hok ⊢
  obtain ⟨bytes, hwrite⟩ := muxSession_of_ok hok
  refine ⟨bytes, hwrite, fun options hlimits hselect => ?_⟩
  obtain ⟨demux', hopen', hstreams, hpackets, hcursor⟩ :=
    demuxOpen_copies rfl hstops.forest (congrArg Prod.snd hwrite) options hlimits hselect
  refine ⟨demux', hopen', ?_⟩
  rw [← hstreams, ← hpackets]
  exact demux'.yields hcursor

/-- A stream, a packet of it, and a group in which a good packet is followed by one with a
negative duration. -/
def damagedFile : Bytes :=
  sampleHeader.bytes ++ Forest.bytes
    (.leaf ⟨RecordType.streamDesc.code, 0, 3, 0, 0⟩
      (StreamInfo.bytes ⟨1, 0, 2, 7, ⟨1, 1000⟩, [0xca, 0xfe]⟩)
      (.leaf ⟨RecordType.packet.code, 0, 3, 0, 1⟩ (PacketInfo.bytes ⟨1, 0, 0, 0, 0, 40, 1, [0x2a]⟩)
        (.group ⟨RecordType.group.code, 0, 3, 0, 2⟩ ⟨1, 0, 0⟩
          (.leaf ⟨RecordType.packet.code, 0, 3, 0, 3⟩
            (PacketInfo.bytes ⟨1, 0, 1, 40, 40, 40, 1, [0x2b]⟩)
            (.leaf ⟨RecordType.packet.code, 0, 3, 0, 4⟩
              (PacketInfo.bytes ⟨1, 0, 2, 80, 80, -40, 1, [0x2c]⟩) .nil))
          .nil)))

/-- The scan stops inside the group. Neither the second pass nor the file that is written brings
back the packet before the bad one. -/
theorem damagedFile_salvaged :
    let plan := (repairScan damagedFile none (Stream'.const true)).2
    let stream : StreamInfo := ⟨1, 0, 2, 7, ⟨1, 1000⟩, [0xca, 0xfe]⟩
    let packet : PacketInfo := ⟨1, 0, 0, 0, 0, 40, 1, [0x2a]⟩
    (repairScan damagedFile none (Stream'.const true)).1 = .timeline ∧
      (∃ status demux,
        demuxOpen (damagedFile.take plan.validPrefix) (some repairDemuxOptions) (Stream'.const true)
          (Stream'.const true) = (status, some demux) ∧ (status = .ok ∨ status = .partialTail) ∧
        demux.Yields [stream] [packet]) ∧
      ∃ bytes, repairWrite plan (Stream'.const true) (Stream'.const true) .calm =
        (.ok, some bytes) ∧
        ∃ demux, demuxOpen bytes none (Stream'.const true) (Stream'.const true) =
          (.ok, some demux) ∧
          demux.Yields [stream] [packet] := by
  intro plan stream packet
  obtain ⟨hd, f, -, ⟨status, demux, hopen, hstatus, hyields⟩, hwritten⟩ :=
    repair_salvages damagedFile (by decide +kernel) (by decide +kernel)
  have hholds : (demuxOpen (damagedFile.take plan.validPrefix) (some repairDemuxOptions)
      (Stream'.const true) (Stream'.const true)).2.map
        (fun demux => (demux.streams, demux.packets, demux.cursor)) =
          some ([stream], [packet], 0) := by
    decide +kernel
  rw [hopen] at hholds
  obtain ⟨hstreams, hpackets, hcursor⟩ : demux.streams = [stream] ∧ demux.packets = [packet] ∧
      demux.cursor = 0 := by
    simpa using hholds
  have hdemux := demux.yields hcursor
  rw [hstreams, hpackets] at hdemux
  obtain ⟨hss, hps⟩ := hyields.unique hdemux
  rw [hss, hps] at hwritten
  obtain ⟨bytes, hwrite, hreopen⟩ := hwritten .calm (by decide +kernel)
  exact ⟨by decide +kernel, ⟨status, demux, hopen, hstatus, hdemux⟩, bytes, hwrite,
    hreopen none rfl rfl⟩

end Tide
