import Mathlib
import Tide.Format.Tables

/-!
# Edit lists

The model of `edit.c` and the meaning of the edit lists that a decoder accepts. An entry
shows the part of a track from `source_start` on at `output_start`; what a packet shows is
the part of it in the first entry that it meets. Integers are exact here: `i64` is the result
of an operation on `int64_t`, `none` if it overflows.
-/

namespace Tide

open Theory

/-- `tide_edit_entry`. -/
structure EditEntry where
  outputStart : Int64
  outputDuration : Int64
  sourceStart : Int64
  rate : Rational
  deriving DecidableEq

/-- The result of an operation on `int64_t`. -/
def i64 (x : ℤ) : Option ℤ := if -2 ^ 63 ≤ x ∧ x < 2 ^ 63 then some x else none

/-- The loop of `tide_edit_project_one`, for a packet from `packetPts` on. -/
def editProjectLoop (packetPts packetDuration : ℤ) :
    List EditEntry → Option (Status × Option (Int64 × Int64))
  | [] => some (.partialTail, none)
  | edit :: edits =>
    if !rationalIsValid edit.rate || edit.outputDuration < 0 then some (.timeline, none)
    else do
      let latest ← i64 (Int64.maxValue.toInt - edit.outputDuration.toInt)
      let latestPts ← i64 (Int64.maxValue.toInt - packetDuration)
      if edit.sourceStart.toInt > latest ∨ packetPts > latestPts then some (.timeline, none)
      else do
        let editSrcEnd ← i64 (edit.sourceStart.toInt + edit.outputDuration.toInt)
        let pktEnd ← i64 (packetPts + packetDuration)
        let start := if packetPts > edit.sourceStart.toInt then packetPts
          else edit.sourceStart.toInt
        let stop := if pktEnd < editSrcEnd then pktEnd else editSrcEnd
        if start < stop then do
          let shift ← i64 (start - edit.sourceStart.toInt)
          let latestStart ← i64 (Int64.maxValue.toInt - shift)
          if edit.outputStart.toInt > latestStart then some (.timeline, none)
          else do
            let outPts ← i64 (edit.outputStart.toInt + shift)
            let outDuration ← i64 (stop - start)
            some (.ok, some (Int64.ofInt outPts, Int64.ofInt outDuration))
        else editProjectLoop packetPts packetDuration edits

/-- `tide_edit_project_one`. The packet's place in the output, if it has one. -/
def editProjectOne (edits : List EditEntry) (packetPts packetDuration : Int64) :
    Option (Status × Option (Int64 × Int64)) :=
  if packetDuration < 0 then some (.invalidArgument, none)
  else editProjectLoop packetPts.toInt packetDuration.toInt edits

/-! ### The edit lists that a decoder accepts -/

/-- An entry as it is written. -/
def EditEntry.bytes (edit : EditEntry) : Bytes :=
  writeI64 edit.outputStart ++ (writeI64 edit.outputDuration ++ (writeI64 edit.sourceStart ++
    (writeU32 edit.rate.numerator ++ writeU32 edit.rate.denominator)))

/-- The payload of an edit list. -/
def editListPayload (trackId generation : UInt32) (edits : List EditEntry) : Bytes :=
  writeU32 trackId ++ (writeU32 generation ++ (writeUleb128 (UInt64.ofNat edits.length) ++
    (edits.map EditEntry.bytes).flatten))

/-- An entry that is in order: its rate is a reduced fraction, and its output interval ends
in 64 bits. -/
def EditEntry.Ok (edit : EditEntry) : Prop :=
  0 ≤ edit.outputDuration.toInt ∧ edit.outputStart.toInt + edit.outputDuration.toInt < 2 ^ 63 ∧
    rationalIsValid edit.rate = true

/-- The end of the output interval. -/
def EditEntry.outputEnd (edit : EditEntry) : Int64 := edit.outputStart + edit.outputDuration

/-- **The entries of an accepted edit list** are in order, and none begins in the output
before the one before it ends. -/
def EditsOk (edits : List EditEntry) : Prop :=
  (∀ edit ∈ edits, edit.Ok) ∧ edits.IsChain fun a b => a.outputEnd ≤ b.outputStart

/-- The test for the end of an output interval. -/
theorem le_maxValue_sub_iff {start duration : Int64} (h : 0 ≤ duration.toInt) :
    ¬start > Int64.maxValue - duration ↔ start.toInt + duration.toInt < 2 ^ 63 := by
  have hlt := duration.toInt_lt
  have hroom : (Int64.maxValue - duration).toInt = 2 ^ 63 - 1 - duration.toInt := by
    rw [Int64.toInt_sub, Int.bmod_eq_of_le]
    · rfl
    · rw [Int64.toInt_maxValue]; omega
    · rw [Int64.toInt_maxValue]; omega
  rw [gt_iff_lt, Int64.lt_iff_toInt_lt, hroom]
  omega

theorem decodes_editEntry : Decodes readEditEntry fun interval bs =>
    ∃ edit : EditEntry, bs = edit.bytes ∧ edit.Ok ∧
      interval = (edit.outputStart, edit.outputDuration) := by
  have hnonneg : ∀ duration : Int64, ¬duration < 0 ↔ 0 ≤ duration.toInt := fun duration => by
    rw [Int64.lt_iff_toInt_lt, Int64.toInt_zero, not_lt]
  refine (decodes_i64.bind fun start => decodes_i64.bind fun duration => decodes_i64.bind fun _ =>
    decodes_u32.bind fun num =>
    decodes_u32.bind fun den => (decodes_guard _).bind fun _ => (decodes_guard _).bind fun _ =>
      (decodes_guard _).bind fun _ =>
    decodes_pure _).congr fun interval bs => ?_
  constructor
  · rintro ⟨start, _, _, rfl,
      ⟨duration, _, _, rfl,
        ⟨source, _, _, rfl, ⟨num, _, _, rfl,
          ⟨den, _, _, rfl, ⟨_, _, _, ⟨hnn, rfl⟩, ⟨_, _, _, ⟨hend, rfl⟩,
            ⟨_, _, _, ⟨hrate, rfl⟩, ⟨rfl, rfl⟩, rfl⟩, rfl⟩, rfl⟩, rfl⟩, rfl⟩, rfl⟩, rfl⟩, rfl⟩
    rw [hnonneg] at hnn
    exact ⟨⟨start, duration, source, num, den⟩,
      by simp [EditEntry.bytes], ⟨hnn, (le_maxValue_sub_iff hnn).mp hend, hrate⟩, rfl⟩
  · rintro ⟨⟨start, duration, source, num, den⟩, rfl, ⟨hnn, hend, hrate⟩, rfl⟩
    exact ⟨start, _, _, rfl,
      ⟨duration, _, _, rfl,
        ⟨source, _, _, rfl, ⟨num, _, _, rfl,
          ⟨den, _, _, rfl, ⟨(), _, _, ⟨(hnonneg duration).mpr hnn, rfl⟩,
            ⟨(), _, _, ⟨(le_maxValue_sub_iff hnn).mpr hend, rfl⟩, ⟨(), _, _, ⟨hrate, rfl⟩,
              ⟨rfl, rfl⟩, rfl⟩, rfl⟩, rfl⟩, (List.append_nil _).symm⟩, rfl⟩, rfl⟩, rfl⟩, rfl⟩

/-- **The edit lists that a decoder accepts.** -/
theorem emitSimpleRecord_editList_iff {limits : Limits} {tracks : List TrackSnapshot}
    {frame : RecordFrame} {fileData payload : Bytes} (ht : frame.type = RecordType.editList.code) :
    emitSimpleRecord limits tracks frame fileData payload = .ok () ↔
      ∃ trackId generation edits, payload = editListPayload trackId generation edits ∧
        edits.length ≤ limits.maxEditEntries.toNat ∧ (findTrack tracks trackId generation).isSome ∧
          EditsOk edits := by
  have hchecks : simpleRecordChecks limits tracks frame fileData =
      checkEditList limits tracks frame := by
    rw [simpleRecordChecks, ht, recordTypeOf_code]
  rw [emitSimpleRecord, hchecks]
  refine (table_accepted_iff (accepts_orError (decodes_tableHead tracks limits.maxEditEntries) _)
    (accepts_row decodes_editEntry Prod.fst (fun interval => interval.1 + interval.2) _ _)
      _ _ _).trans ?_
  constructor
  · rintro ⟨_, edits, ⟨trackId, generation, rfl, hle, hfind⟩, hlt, rfl, hok, hchain⟩
    rw [UInt64.toNat_ofNat_of_lt' hlt] at hle
    exact ⟨trackId, generation, edits,
      by simp [editListPayload], hle, hfind, hok, hchain.imp fun a b => Int64.not_lt.mp⟩
  · rintro ⟨trackId, generation, edits, rfl, hle, hfind, hok, hchain⟩
    have hmax := limits.maxEditEntries.toNat_lt
    have hlt : edits.length < 2 ^ 64 := by omega
    refine ⟨_, edits, ⟨trackId, generation, rfl, ?_, hfind⟩, hlt,
      by simp [editListPayload], hok, hchain.imp fun a b => Int64.not_lt.mpr⟩
    rwa [UInt64.toNat_ofNat_of_lt' hlt]

theorem EditEntry.length_bytes (edit : EditEntry) :
    edit.bytes.length = 32 := by simp [EditEntry.bytes]

theorem EditEntry.bytes_injective : Function.Injective EditEntry.bytes := by
  rintro ⟨start, duration, source, num, den⟩ ⟨start', duration', source', num', den'⟩ h
  obtain ⟨hstart, h⟩ := List.append_inj h rfl
  obtain ⟨hduration, h⟩ := List.append_inj h rfl
  obtain ⟨hsource, h⟩ := List.append_inj h rfl
  obtain ⟨hnum, hden⟩ := List.append_inj h rfl
  simp only [EditEntry.mk.injEq, Rational.mk.injEq]
  exact ⟨writeI64_inj hstart, writeI64_inj hduration, writeI64_inj hsource, writeU32_inj hnum,
    writeU32_inj hden⟩

/-- The entries that a decoder accepts are in order. -/
theorem editsOk_of_accepted {limits : Limits} {tracks : List TrackSnapshot} {frame : RecordFrame}
    {fileData : Bytes} {trackId generation : UInt32} {edits : List EditEntry}
    (ht : frame.type = RecordType.editList.code)
    (hok : emitSimpleRecord limits tracks frame fileData
      (editListPayload trackId generation edits) = .ok ()) :
    EditsOk edits := by
  obtain ⟨trackId', generation', edits', hpayload, -, -, hedits⟩ :=
    (emitSimpleRecord_editList_iff ht).mp hok
  simp only [editListPayload, ← List.append_assoc] at hpayload
  rw [List.append_assoc, List.append_assoc _ _ (edits'.map _).flatten] at hpayload
  rwa [table_inj EditEntry.length_bytes EditEntry.bytes_injective (by omega) (by simp) hpayload]

/-! ### What an entry shows of a packet -/

/-- The part of the track that an entry shows. -/
def EditEntry.source (edit : EditEntry) : Set ℤ :=
  Set.Ico edit.sourceStart.toInt (edit.sourceStart.toInt + edit.outputDuration.toInt)

/-- Where it shows it. -/
def EditEntry.output (edit : EditEntry) : Set ℤ :=
  Set.Ico edit.outputStart.toInt (edit.outputStart.toInt + edit.outputDuration.toInt)

/-- The times of a packet. -/
def packetSpan (pts duration : Int64) : Set ℤ := Set.Ico pts.toInt (pts.toInt + duration.toInt)

/-- The entry shows something of the packet. -/
def EditEntry.Meets (edit : EditEntry) (pts duration : Int64) : Prop :=
  (edit.source ∩ packetSpan pts duration).Nonempty

theorem EditEntry.inter_eq (edit : EditEntry) (pts duration : Int64) :
    edit.source ∩ packetSpan pts duration =
    Set.Ico (max edit.sourceStart.toInt pts.toInt)
      (min (edit.sourceStart.toInt + edit.outputDuration.toInt) (pts.toInt + duration.toInt)) :=
  Set.Ico_inter_Ico

theorem EditEntry.meets_iff (edit : EditEntry) (pts duration : Int64) : edit.Meets pts duration ↔
    max edit.sourceStart.toInt pts.toInt <
      min (edit.sourceStart.toInt + edit.outputDuration.toInt) (pts.toInt + duration.toInt) := by
  rw [EditEntry.Meets, EditEntry.inter_eq, Set.nonempty_Ico]

instance (edit : EditEntry) (pts duration : Int64) : Decidable (edit.Meets pts duration) :=
  decidable_of_iff _ (edit.meets_iff pts duration).symm

/-- The source of the entry ends beyond 64 bits. -/
def EditEntry.Overflows (edit : EditEntry) : Prop :=
  2 ^ 63 ≤ edit.sourceStart.toInt + edit.outputDuration.toInt

instance (edit : EditEntry) : Decidable edit.Overflows := inferInstanceAs (Decidable (_ ≤ _))

theorem i64_of_le {x : ℤ} (hlo : -2 ^ 63 ≤ x) (hhi : x < 2 ^ 63) : i64 x = some x :=
  if_pos ⟨hlo, hhi⟩

/-- What the entry shows of the packet, in the output. -/
def EditEntry.shown (edit : EditEntry) (pts duration : Int64) : Int64 × Int64 :=
  (Int64.ofInt (edit.outputStart.toInt + (max edit.sourceStart.toInt pts.toInt -
    edit.sourceStart.toInt)), Int64.ofInt (min (edit.sourceStart.toInt + edit.outputDuration.toInt)
      (pts.toInt + duration.toInt) -
      max edit.sourceStart.toInt pts.toInt))

/-- **One round of the loop.** -/
theorem editProjectLoop_cons {edit : EditEntry} {pts duration : Int64} (hok : edit.Ok)
    (hd : 0 ≤ duration.toInt) (hend : pts.toInt + duration.toInt < 2 ^ 63)
    (edits : List EditEntry) :
    editProjectLoop pts.toInt duration.toInt (edit :: edits) =
      if edit.Overflows then some (.timeline, none)
      else if edit.Meets pts duration then some (.ok, some (edit.shown pts duration))
      else editProjectLoop pts.toInt duration.toInt edits := by
  obtain ⟨hnn, houtput, hrate⟩ := hok
  have hsrc := edit.sourceStart.le_toInt
  have hpts := pts.le_toInt
  have hout := edit.outputStart.le_toInt
  have hdur := edit.outputDuration.toInt_lt
  have hneg : ¬edit.outputDuration < 0 := by rw [Int64.lt_iff_toInt_lt, Int64.toInt_zero]; omega
  have hmax : Int64.maxValue.toInt = 2 ^ 63 - 1 := rfl
  rw [editProjectLoop, hrate, if_neg (by simp [hneg]), hmax, i64_of_le (by omega) (by omega),
    i64_of_le (by omega) (by omega)]
  simp only [Option.bind_eq_bind, Option.bind_some, EditEntry.Overflows, EditEntry.meets_iff,
    EditEntry.shown]
  by_cases hover : 2 ^ 63 ≤ edit.sourceStart.toInt + edit.outputDuration.toInt
  · rw [if_pos hover, if_pos (by omega)]
  rw [if_neg hover, if_neg (by omega), i64_of_le (by omega) (by omega),
    i64_of_le (by omega) (by omega)]
  have hstart : (if pts.toInt > edit.sourceStart.toInt then pts.toInt else edit.sourceStart.toInt) =
      max edit.sourceStart.toInt pts.toInt := by split <;> omega
  have hstop : (if pts.toInt + duration.toInt < edit.sourceStart.toInt + edit.outputDuration.toInt
      then pts.toInt + duration.toInt else edit.sourceStart.toInt + edit.outputDuration.toInt) =
        min (edit.sourceStart.toInt + edit.outputDuration.toInt) (pts.toInt + duration.toInt) := by
        split <;> omega
  simp only [Option.bind_some, hstart, hstop]
  split
  · -- what is shown lies in the output interval, which ends in 64 bits
    rw [i64_of_le (by omega) (by omega), Option.bind_some, i64_of_le (by omega) (by omega),
      Option.bind_some, if_neg (by omega), i64_of_le (by omega) (by omega), Option.bind_some,
        i64_of_le (by omega) (by omega), Option.bind_some]
  · rfl

/-- The entry that the loop stops at. -/
theorem editProjectLoop_eq {edits : List EditEntry} (hok : ∀ edit ∈ edits, edit.Ok)
    {pts duration : Int64} (hd : 0 ≤ duration.toInt) (hend : pts.toInt + duration.toInt < 2 ^ 63) :
    editProjectLoop pts.toInt duration.toInt edits =
      match edits.find? fun edit => decide (edit.Overflows ∨ edit.Meets pts duration) with
      | none => some (.partialTail, none)
      | some edit => if edit.Overflows then some (.timeline, none)
          else some (.ok, some (edit.shown pts duration)) := by
  induction edits with
  | nil => rfl
  | cons edit edits ih =>
    rw [editProjectLoop_cons (hok edit List.mem_cons_self) hd hend,
      ih fun e he => hok e (List.mem_cons_of_mem _ he), List.find?_cons]
    by_cases hover : edit.Overflows
    · simp [hover]
    by_cases hmeets : edit.Meets pts duration
    · simp [hover, hmeets]
    · simp [hover, hmeets]

theorem editProjectOne_eq (edits : List EditEntry) {pts duration : Int64}
    (hd : 0 ≤ duration.toInt) :
    editProjectOne edits pts duration = editProjectLoop pts.toInt duration.toInt edits := by
  apply if_neg
  rw [Int64.lt_iff_toInt_lt, Int64.toInt_zero]
  omega

/-- What is shown is the part of the packet that the entry meets, moved to the output. -/
theorem EditEntry.Ok.shown {edit : EditEntry} (hok : edit.Ok) {pts duration : Int64}
    (hmeets : edit.Meets pts duration) :
    packetSpan (edit.shown pts duration).1 (edit.shown pts duration).2 =
        (fun t => t + (edit.outputStart.toInt - edit.sourceStart.toInt)) ''
          (edit.source ∩ packetSpan pts duration) ∧
      packetSpan (edit.shown pts duration).1 (edit.shown pts duration).2 ⊆ edit.output ∧
      (edit.shown pts duration).1.toInt + (edit.shown pts duration).2.toInt < 2 ^ 63 := by
  obtain ⟨hnn, houtput, -⟩ := hok
  have hout := edit.outputStart.le_toInt
  have hdur := edit.outputDuration.toInt_lt
  rw [EditEntry.meets_iff] at hmeets
  have hstart : (edit.shown pts duration).1.toInt =
      edit.outputStart.toInt + (max edit.sourceStart.toInt pts.toInt - edit.sourceStart.toInt) :=
    Int64.toInt_ofInt_of_le (by omega) (by omega)
  have hlength : (edit.shown pts duration).2.toInt =
      min (edit.sourceStart.toInt + edit.outputDuration.toInt) (pts.toInt + duration.toInt) -
        max edit.sourceStart.toInt pts.toInt :=
        Int64.toInt_ofInt_of_le (by omega) (by omega)
  refine ⟨?_, ?_, by omega⟩
  · rw [EditEntry.inter_eq, Set.image_add_const_Ico, packetSpan, hstart, hlength]
    congr 1 <;> omega
  · apply Set.Ico_subset_Ico <;> omega

theorem EditEntry.Ok.toInt_outputEnd {edit : EditEntry} (hok : edit.Ok) :
    edit.outputEnd.toInt = edit.outputStart.toInt + edit.outputDuration.toInt := by
  obtain ⟨hnn, hend, -⟩ := hok
  have hout := edit.outputStart.le_toInt
  rw [EditEntry.outputEnd, Int64.toInt_add, Int.bmod_eq_of_le] <;> omega

/-- Behind an entry, all begin at its end or later. -/
theorem EditsOk.outputEnd_le {edit : EditEntry} {edits : List EditEntry}
    (h : EditsOk (edit :: edits)) {e : EditEntry} (he : e ∈ edits) :
    edit.outputEnd.toInt ≤ e.outputStart.toInt := by
  induction edits generalizing edit with
  | nil => cases he
  | cons next edits ih =>
    obtain ⟨hok, hchain⟩ := h
    rw [List.isChain_cons_cons, Int64.le_iff_toInt_le] at hchain
    rw [List.forall_mem_cons] at hok
    obtain rfl | he := List.mem_cons.mp he
    · exact hchain.1
    · have hnext := hok.2 next List.mem_cons_self
      have hlater := ih ⟨hok.2, hchain.2⟩ he
      rw [hnext.toInt_outputEnd] at hlater
      have := hnext.1
      omega

/-- The entries of an edit list show their parts apart. -/
theorem EditsOk.disjoint {edits : List EditEntry} (h : EditsOk edits) {a b : EditEntry}
    (ha : a ∈ edits) (hb : b ∈ edits) (hne : a ≠ b) :
    Disjoint a.output b.output := by
  have hpair : edits.Pairwise fun a b => Disjoint a.output b.output := by
    clear ha hb
    induction edits with
    | nil => exact .nil
    | cons edit edits ih =>
      obtain ⟨hok, hchain⟩ := h
      refine .cons (fun e he => ?_) (ih ⟨fun e he => hok e (List.mem_cons_of_mem _ he),
        List.isChain_of_isChain_cons hchain⟩)
      have hle := EditsOk.outputEnd_le ⟨hok, hchain⟩ he
      rw [(hok edit List.mem_cons_self).toInt_outputEnd] at hle
      exact Set.Ico_disjoint_Ico.mpr ((min_le_left _ _).trans (hle.trans (le_max_right _ _)))
  have : Std.Symm fun a b : EditEntry => Disjoint a.output b.output := ⟨fun _ _ h => h.symm⟩
  exact hpair.forall ha hb hne

/-- A decoder accepts a record with these entries. -/
def EditsAccepted (edits : List EditEntry) : Prop :=
  ∃ (limits : Limits) (tracks : List TrackSnapshot) (frame : RecordFrame) (fileData : Bytes)
    (trackId generation : UInt32),
    frame.type = RecordType.editList.code ∧ edits.length < 2 ^ 64 ∧
      emitSimpleRecord limits tracks frame fileData (editListPayload trackId generation edits) =
        .ok ()

theorem EditsAccepted.ok {edits : List EditEntry} (h : EditsAccepted edits) : EditsOk edits := by
  obtain ⟨limits, tracks, frame, fileData, trackId, generation, ht, -, hok⟩ := h
  exact editsOk_of_accepted ht hok

/-- A list whose sources end in 64 bits shows a packet in the first entry that meets it. -/
theorem editProjectOne_of_fits {edits : List EditEntry} (hok : ∀ edit ∈ edits, edit.Ok)
    (hsource : ∀ edit ∈ edits, ¬edit.Overflows) {pts duration : Int64} (hd : 0 ≤ duration.toInt)
    (hend : pts.toInt + duration.toInt < 2 ^ 63) :
    editProjectOne edits pts duration =
      match edits.find? fun edit => decide (edit.Meets pts duration) with
      | none => some (.partialTail, none)
      | some edit => some (.ok, some (edit.shown pts duration)) := by
  have hfind : edits.find? (fun edit => decide (edit.Overflows ∨ edit.Meets pts duration)) =
      edits.find? fun edit => decide (edit.Meets pts duration) := by
    apply List.find?_congr
    intro edit he
    simp [hsource edit he]
  rw [editProjectOne_eq edits hd, editProjectLoop_eq hok hd hend, hfind]
  cases hfound : edits.find? fun edit => decide (edit.Meets pts duration) with
  | none => rfl
  | some edit => simp [hsource edit (List.mem_of_find?_eq_some hfound)]

/-- **Edit lists clip exactly and keep packets apart.** Of an accepted list whose sources end
in 64 bits, the first entry that meets a packet shows the part of it that both have, in the
entry's own output interval; a packet that no entry meets is dropped. What is shown of
packets that do not overlap does not overlap. -/
theorem editProjectOne_clips {edits : List EditEntry} (haccept : EditsAccepted edits)
    (hsource : ∀ edit ∈ edits, ¬edit.Overflows) :
    (∀ pts duration : Int64, 0 ≤ duration.toInt → pts.toInt + duration.toInt < 2 ^ 63 →
      ((∃ out, editProjectOne edits pts duration = some (.ok, some out)) ↔
        ∃ edit ∈ edits, edit.Meets pts duration) ∧
      ((¬∃ edit ∈ edits, edit.Meets pts duration) →
        editProjectOne edits pts duration = some (.partialTail, none)) ∧
      ∀ out, editProjectOne edits pts duration = some (.ok, some out) → ∃ edit,
        edits.find? (fun edit => decide (edit.Meets pts duration)) = some edit ∧
        packetSpan out.1 out.2 = (fun t => t + (edit.outputStart.toInt - edit.sourceStart.toInt)) ''
          (edit.source ∩ packetSpan pts duration) ∧
        packetSpan out.1 out.2 ⊆ edit.output ∧ out.1.toInt + out.2.toInt < 2 ^ 63) ∧
    ∀ pts duration pts' duration' : Int64, 0 ≤ duration.toInt →
      pts.toInt + duration.toInt < 2 ^ 63 → 0 ≤ duration'.toInt →
      pts'.toInt + duration'.toInt < 2 ^ 63 → Disjoint (packetSpan pts duration)
        (packetSpan pts' duration') →
      ∀ out out', editProjectOne edits pts duration = some (.ok, some out) →
        editProjectOne edits pts' duration' = some (.ok, some out') →
        Disjoint (packetSpan out.1 out.2) (packetSpan out'.1 out'.2) := by
  have hok := haccept.ok
  have hproject : ∀ {pts duration : Int64}, 0 ≤ duration.toInt →
      pts.toInt + duration.toInt < 2 ^ 63 →
        ∀ out, editProjectOne edits pts duration = some (.ok, some out) ↔
          ∃ edit, edits.find? (fun edit => decide (edit.Meets pts duration)) = some edit ∧
            out = edit.shown pts duration := by
    intro pts duration hd hend out
    rw [editProjectOne_of_fits hok.1 hsource hd hend]
    cases edits.find? fun edit => decide (edit.Meets pts duration) with
    | none => simp
    | some edit => simp [eq_comm]
  have hfound : ∀ {pts duration : Int64} {edit : EditEntry},
      edits.find? (fun edit => decide (edit.Meets pts duration)) = some edit → edit ∈ edits ∧
        edit.Meets pts duration := fun h => ⟨List.mem_of_find?_eq_some h,
        by simpa using List.find?_some h⟩
  constructor
  · intro pts duration hd hend
    refine ⟨?_, ?_, ?_⟩
    · simp only [hproject hd hend]
      constructor
      · rintro ⟨_, edit, hfind, -⟩
        exact ⟨edit, hfound hfind⟩
      · rintro ⟨edit, he, hmeets⟩
        have hsome : (edits.find? fun edit => decide (edit.Meets pts duration)).isSome := by
          rw [List.find?_isSome]
          exact ⟨edit, he, by simpa using hmeets⟩
        obtain ⟨first, hfind⟩ := Option.isSome_iff_exists.mp hsome
        exact ⟨_, first, hfind, rfl⟩
    · intro hno
      rw [editProjectOne_of_fits hok.1 hsource hd hend, List.find?_eq_none.mpr]
      intro edit he hmeets
      exact hno ⟨edit, he, by simpa using hmeets⟩
    · intro out hout
      obtain ⟨edit, hfind, rfl⟩ := (hproject hd hend out).mp hout
      obtain ⟨he, hmeets⟩ := hfound hfind
      exact ⟨edit, hfind, (hok.1 edit he).shown hmeets⟩
  · intro pts duration pts' duration' hd hend hd' hend' hdisjoint out out' hout hout'
    obtain ⟨edit, hfind, rfl⟩ := (hproject hd hend out).mp hout
    obtain ⟨edit', hfind', rfl⟩ := (hproject hd' hend' out').mp hout'
    obtain ⟨he, hmeets⟩ := hfound hfind
    obtain ⟨he', hmeets'⟩ := hfound hfind'
    obtain ⟨himage, hsub, -⟩ := (hok.1 edit he).shown hmeets
    obtain ⟨himage', hsub', -⟩ := (hok.1 edit' he').shown hmeets'
    by_cases heq : edit = edit'
    · -- one entry moves both by the same time
      subst heq
      rw [himage, himage', Set.disjoint_image_iff (add_left_injective _)]
      exact hdisjoint.mono Set.inter_subset_right Set.inter_subset_right
    · exact (hok.disjoint he he' heq).mono hsub hsub'

/-- Two entries with overlapping sources. -/
def sampleEdits : List EditEntry := [⟨0, 10, 100, ⟨1, 1⟩⟩, ⟨20, 30, 90, ⟨1, 1⟩⟩]

theorem sampleEdits_ok : EditsOk sampleEdits := by
  have hrate : rationalIsValid ⟨1, 1⟩ = true := (rationalIsValid_iff _).mpr (by decide)
  constructor
  · simp only [sampleEdits, List.forall_mem_cons, EditEntry.Ok]
    exact ⟨⟨by decide, by decide, hrate⟩, ⟨by decide, by decide, hrate⟩, by simp⟩
  · simp only [sampleEdits, List.isChain_cons_cons]
    exact ⟨by decide, .singleton _⟩

theorem accepted_of_ok {edits : List EditEntry} (hok : EditsOk edits)
    (hle : edits.length ≤ limitsDefault.maxEditEntries.toNat) :
    EditsAccepted edits := by
  have hlt : edits.length < 2 ^ 64 := hle.trans_lt (by decide)
  refine ⟨limitsDefault, [⟨1, 1, 1, 0, ⟨1, 1⟩⟩], RecordHead.frameAt ⟨RecordType.editList.code, 0, 0,
    0, 1⟩ 72 0 0, [], 1, 1, rfl, hlt, ?_⟩
  rw [emitSimpleRecord_editList_iff rfl]
  exact ⟨1, 1, edits, rfl, hle, rfl, hok⟩

/-- A packet in both sources goes through the first entry, and one before it through the
second. -/
theorem sampleEdits_clip :
    editProjectOne sampleEdits 95 10 = some (.ok, some (0, 5)) ∧
      editProjectOne sampleEdits 90 5 = some (.ok, some (20, 5)) ∧
      (∃ edit ∈ sampleEdits, edit.Meets 95 10) ∧ Disjoint (packetSpan 0 5) (packetSpan 20 5) := by
  have hsource : ∀ edit ∈ sampleEdits, ¬edit.Overflows := by decide
  have hboth : editProjectOne sampleEdits 95 10 = some (.ok, some (0, 5)) := by
    rw [editProjectOne_of_fits sampleEdits_ok.1 hsource (by decide) (by decide)]
    rfl
  have hsecond : editProjectOne sampleEdits 90 5 = some (.ok, some (20, 5)) := by
    rw [editProjectOne_of_fits sampleEdits_ok.1 hsource (by decide) (by decide)]
    rfl
  obtain ⟨hclip, hapart⟩ := editProjectOne_clips (accepted_of_ok sampleEdits_ok (by decide)) hsource
  refine ⟨hboth, hsecond, (hclip 95 10 (by decide) (by decide)).1.mp ⟨_, hboth⟩, ?_⟩
  apply hapart 95 10 90 5 (by decide) (by decide) (by decide) (by decide) _ _ _ hboth hsecond
  rw [packetSpan, packetSpan, Set.Ico_disjoint_Ico]
  decide

/-! ### Sources that end beyond 64 bits -/

/-- The packet gets its place in the output, or is dropped. -/
def Projects (edits : List EditEntry) (pts duration : Int64) : Prop :=
  ∃ status out, editProjectOne edits pts duration = some (status, out) ∧
    (status = .ok ∨ status = .partialTail)

/-- **When an accepted edit list can be projected**: if and only if before every entry whose
source ends beyond 64 bits there is one that meets the packet. -/
theorem projects_iff {edits : List EditEntry} (haccept : EditsAccepted edits) {pts duration : Int64}
    (hd : 0 ≤ duration.toInt) (hend : pts.toInt + duration.toInt < 2 ^ 63) :
    Projects edits pts duration ↔
      ∀ before edit after, edits = before ++ edit :: after → edit.Overflows →
        ∃ e ∈ before, e.Meets pts duration := by
  rw [Projects, editProjectOne_eq edits hd, editProjectLoop_eq haccept.ok.1 hd hend]
  cases hfind : edits.find? fun edit => decide (edit.Overflows ∨ edit.Meets pts duration) with
  | none =>
    rw [List.find?_eq_none] at hfind
    refine ⟨fun _ before edit after heq hover => ?_, fun _ => ⟨_, _, rfl, .inr rfl⟩⟩
    exact absurd (decide_eq_true (.inl hover)) (hfind edit (by simp [heq]))
  | some first =>
    obtain ⟨hfirst, as, bs, heq, has⟩ := List.find?_eq_some_iff_append.mp hfind
    have hnone : ∀ e ∈ as, ¬(e.Overflows ∨ e.Meets pts duration) := fun e he =>
      by simpa using has e he
    dsimp only
    split
    · rename_i hover
      constructor
      · rintro ⟨status, out, hst, hor⟩
        obtain ⟨rfl, -⟩ := Prod.mk.inj (Option.some.inj hst)
        simp at hor
      · intro h
        obtain ⟨e, he, hmeets⟩ := h as first bs heq hover
        exact absurd (.inr hmeets) (hnone e he)
    · rename_i hfits
      refine ⟨fun _ before edit after hsplit hover => ?_, fun _ => ⟨_, _, rfl, .inl rfl⟩⟩
      have hmeets : first.Meets pts duration := (of_decide_eq_true hfirst).resolve_left hfits
      -- an entry that overflows is not among the first ones, nor is it the one that meets
      rw [heq] at hsplit
      obtain ⟨mid, rfl, hrest⟩ | ⟨mid, rfl, hrest⟩ := List.append_eq_append_iff.mp hsplit
      · cases mid with
        | nil =>
          obtain ⟨rfl, -⟩ := List.cons.inj hrest
          exact absurd hover hfits
        | cons e mid =>
          obtain ⟨rfl, -⟩ := List.cons.inj hrest
          exact ⟨first, by simp, hmeets⟩
      · cases mid with
        | nil =>
          obtain ⟨rfl, -⟩ := List.cons.inj hrest
          exact absurd hover hfits
        | cons e mid =>
          obtain ⟨rfl, -⟩ := List.cons.inj hrest
          exact absurd (.inl hover) (hnone edit (by simp))

/-- The sample list projects every packet that ends in 64 bits. -/
theorem sampleEdits_projects : Projects sampleEdits 9223372036854775806 1 :=
  (projects_iff (accepted_of_ok sampleEdits_ok (by decide)) (by decide) (by decide)).mpr
    fun before edit after heq hover => by
    have hnone : ∀ edit ∈ sampleEdits, ¬edit.Overflows := by decide
    exact absurd hover (hnone edit (by simp [heq]))

/-- An entry whose source ends beyond 64 bits. -/
def lateEdits : List EditEntry := [⟨0, 10, 9223372036854775803, ⟨1, 1⟩⟩]

theorem lateEdits_ok : EditsOk lateEdits := by
  have hrate : rationalIsValid ⟨1, 1⟩ = true := (rationalIsValid_iff _).mpr (by decide)
  constructor
  · simp only [lateEdits, List.forall_mem_cons, EditEntry.Ok]
    exact ⟨⟨by decide, by decide, hrate⟩, by simp⟩
  · exact .singleton _

/-- A decoder accepts the list, and it projects no packet. -/
theorem lateEdits_not_projected :
    EditsAccepted lateEdits ∧ editProjectOne lateEdits 0 1 = some (.timeline, none) ∧
      ¬Projects lateEdits 0 1 := by
  have hline : editProjectOne lateEdits 0 1 = some (.timeline, none) := by
    rw [editProjectOne_eq _ (by decide), editProjectLoop_eq lateEdits_ok.1 (by decide) (by decide)]
    rfl
  refine ⟨accepted_of_ok lateEdits_ok (by decide), hline, ?_⟩
  rintro ⟨status, out, hst, hor⟩
  rw [hline] at hst
  cases hst
  simp at hor

end Tide
