import Tide.Demux.Allocations
import Tide.Format.Within
import Tide.Repair

/-!
# What a file tells, and the file that is written of it

Remuxing and repairing both end with a file of what was read (`Media.bytes`), which is always the
same file, whatever the machine does on the way. From it the same is read again, so once a file
was written by one of them, either of them copies it byte by byte.

* `salvaged`: what is read of some bytes: all of a file, or what comes before a partial tail.
* `remux_copies`, `repairCmd_copies`: what is written is the file of what was salvaged, and it
  tells the same.
-/

namespace Tide

/-- The streams and the packets that bytes tell of. -/
structure Media where
  streams : List StreamInfo
  packets : List PacketInfo
  deriving DecidableEq

/-- What the events tell. -/
def Media.of (events : List Event) : Media := ⟨streamsOf events, packetsOf events⟩

/-- What is written of it. -/
def Media.contents (media : Media) : List Content := copies media.streams media.packets

/-- The file that is written of it. -/
def Media.bytes (media : Media) : Bytes :=
  (muxHeader none).bytes ++ (outputForest (muxHeader none).bytes true media.contents).bytes

/-- What is salvaged of bytes that are a file but for a partial tail. -/
def salvaged (B : Bytes) : Option Media :=
  let r := parseTideBytes B true (some limitsDefault) recorder [] (Stream'.const true)
  if (r.1 = .ok ∨ r.1 = .partialTail) ∧ r.2.validPrefix ≠ 0 then some (Media.of r.2.user) else none

/-! ### Salvaging -/

theorem calm_recorder :
    (Parsing.start (some limitsDefault) recorder [] (Stream'.const true)).Calm fun _ => True :=
  recorder_traces.calm (some limitsDefault) []

theorem recorder_deliver (events before : List Event) :
    recorder.deliver before events = before ++ events := by
  have h := recorder_traces.deliver before events
  rwa [List.filter_eq_self.mpr fun event _ => by cases event <;> rfl] at h

/-- The bytes are a file that tells so much. -/
structure Tells (B : Bytes) (media : Media) : Prop where
  length : B.length ≤ sizeMax
  file : ∃ hd f, FileOk limitsDefault (admits limitsDefault) B hd f ∧
    media = Media.of (f.events 72 0)

/-- All of a file is salvaged. -/
theorem Tells.salvaged {B : Bytes} {media : Media} (h : Tells B media) :
    salvaged B = some media := by
  obtain ⟨hB, hd, f, hfile, rfl⟩ := h
  obtain ⟨p, hparse, hfol, hvp⟩ := parseTideBytes_file calm_recorder hB hfile true
  have huser : p.user = f.events 72 0 := by
    rw [hfol.user]
    exact recorder_deliver _ _
  unfold Tide.salvaged
  rw [hparse]
  dsimp only
  rw [if_pos ⟨.inl rfl, by omega⟩, huser]

/-- **What is salvaged** is what the valid prefix tells, which is a file. -/
theorem salvaged_cases {B : Bytes} {media : Media} (hB : B.length ≤ sizeMax)
    (h : salvaged B = some media) :
    ∃ hd f, FileOk limitsDefault (admits limitsDefault)
        (B.take (parseTideBytes B true (some limitsDefault) recorder []
          (Stream'.const true)).2.validPrefix) hd f ∧
      media = Media.of (f.events 72 0) := by
  unfold salvaged at h
  obtain ⟨e, -, hparse⟩ | ⟨hd, f, p, r, hhd, hf, hbytes, hfol, hvp, hends, hparse⟩ :=
    parseTideBytes_cases calm_recorder hB true
  · rw [hparse] at h
    simp [Parsing.start] at h
  rw [hparse] at h ⊢
  dsimp only at h ⊢
  split_ifs at h with hok
  have hlen : (hd.bytes ++ f.bytes).length = 72 + f.bytes.length := by
    rw [List.length_append, hd.length_bytes hhd.uuid_length]
  -- neither status is that of a record that was refused
  have hstop : r.2.validPrefix = (hd.bytes ++ f.bytes).length ∧ r.2.user = p.user := by
    rw [hlen]
    cases hends with
    | done => exact ⟨hvp, rfl⟩
    | more => exact ⟨rfl, rfl⟩
    | refused _ _ hrej =>
      rcases status_of_atEnd hok.1 with h | h | h
      · exact absurd h hrej.1
      · exact absurd h hrej.2.2
      · exact absurd h hrej.2.1
  refine ⟨hd, f, ⟨hhd, hf, ?_⟩, ?_⟩
  · rw [hstop.1]
    exact (List.prefix_iff_eq_take.mp hbytes).symm
  · rw [← Option.some.inj h, hstop.2, hfol.user]
    exact congrArg Media.of (recorder_deliver _ _)

/-! ### Writing -/

/-- **What is written of what a file tells** is one file, which tells the same. -/
theorem Media.written {f : Forest} {pre bytes : Bytes} {options : Option MuxOptions} {env : MuxEnv}
    (hoptions : options = none ∨ options = some remuxMuxOptions)
    (hf : f.Valid limitsDefault (admits limitsDefault) 0 pre [])
    (hsession : (muxSession options env (Media.of (f.events 72 0)).contents).2 = some bytes) :
    bytes = (Media.of (f.events 72 0)).bytes ∧ Tells bytes (Media.of (f.events 72 0)) := by
  have hlimits : muxLimits options = limitsDefault := by rcases hoptions with rfl | rfl <;> rfl
  have hheader : muxHeader options = muxHeader none := by rcases hoptions with rfl | rfl <;> rfl
  have hfooter : muxWriteFooter options = true := by rcases hoptions with rfl | rfl <;> rfl
  obtain ⟨hbytes, -⟩ := muxSession_output hsession
  obtain ⟨g, hfile, hmax, hstreams, hpackets⟩ :=
    muxSession_file hlimits hsession (Forest.orderly hf 72)
  rw [hheader, hfooter] at hbytes
  refine ⟨hbytes, hmax, _, g, hfile, ?_⟩
  exact congrArg₂ Media.mk (hstreams.trans (contentStreams_copies ..)).symm
    (hpackets.trans (contentPackets_copies ..)).symm

section

variable {B bytes : Bytes} {allocs : Stream' Bool} {env : MuxEnv}

/-- A demux that could be opened on a file holds what the file tells. -/
theorem demuxOpen_told {hd : Header} {f : Forest} (hB : B.length ≤ sizeMax)
    (hfile : FileOk limitsDefault (admits limitsDefault) B hd f) {options : DemuxOptions}
    (hlimits : options.limits = limitsDefault) (hselect : options.selectedTrack = 0)
    {status : Status} {demux : Demux}
    (hopen : demuxOpen B (some options) (Stream'.const true) allocs = (status, some demux)) :
    status = .ok ∧ copies demux.streams demux.packets = (Media.of (f.events 72 0)).contents ∧
      demux.cursor = 0 := by
  obtain ⟨calm, hcalm, hstreams, hpackets, hcursor⟩ := demuxOpen_calm hopen
  have hdefault : demuxLimits (some options) = limitsDefault := by rw [demuxLimits, hlimits]; rfl
  rw [← hdefault] at hfile
  obtain ⟨demux', hopen', hholds⟩ := demuxOpen_file hB hfile
  rw [hopen', Prod.mk.injEq, Option.some.injEq] at hcalm
  obtain ⟨rfl, rfl⟩ := hcalm
  refine ⟨rfl, ?_, hcursor⟩
  rw [← hstreams, ← hpackets, hholds.streams, hholds.all hselect]
  rfl

/-- **Remuxing copies**: what it writes is the file of what the source tells. -/
theorem remux_copies (hB : B.length ≤ sizeMax)
    (h : remux B (Stream'.const true) allocs env = (.ok, some bytes)) :
    ∃ media, salvaged B = some media ∧ bytes = media.bytes ∧ Tells bytes media := by
  obtain ⟨demux, hopen⟩ := demuxOpen_of_ok (demuxOpen_of_remux (congrArg Prod.fst h))
  obtain ⟨calm, hcalm, -⟩ := demuxOpen_calm hopen
  obtain ⟨hd, f, hfile⟩ := fileOk_of_demuxOpen hB (congrArg Prod.fst hcalm)
  obtain ⟨-, hcopies, hcursor⟩ := demuxOpen_told hB hfile rfl rfl hopen
  refine ⟨Media.of (f.events 72 0), Tells.salvaged ⟨hB, hd, f, hfile, rfl⟩, ?_⟩
  obtain heq | ⟨hne, -⟩ := remux_session env hopen hcursor
  · rw [h, hcopies] at heq
    exact Media.written (.inr rfl) hfile.forest (congrArg Prod.snd heq.symm)
  · exact absurd (congrArg Prod.fst h) hne

/-- A scan answers what a recorder is answered. -/
theorem repairScan_recorder (B : Bytes) (scanAllocs : Stream' Bool) :
    let all := parseTideBytes B true (some limitsDefault) recorder [] scanAllocs
    (repairScan B none scanAllocs).1 = all.1 ∧ (repairScan B none scanAllocs).2.validPrefix =
      all.2.validPrefix := by
  have hnull : ∀ events, (Callbacks.null.hear () events).1 = .ok := by
    intro events
    induction events with
    | nil => rfl
    | cons event events ih => cases event <;> exact ih
  obtain ⟨r, r', hrun, hcallbacks, hall, hclient⟩ :=
    parseTideBytes_heardRun B true (some limitsDefault) Callbacks.null () scanAllocs
  obtain ⟨-, hok, -⟩ := hrun.heard true
  rw [hcallbacks] at hok
  obtain ⟨hstatus, -, -, hvp⟩ := hok (hnull _)
  unfold repairScan
  dsimp only [repairLimits]
  rw [hall, hclient]
  exact ⟨hstatus, hvp⟩

/-- Without a demux nothing is written. -/
theorem repairWrite_of_none {plan : RepairPlan} {trackAllocs : Stream' Bool}
    (h : (demuxOpen (plan.source.take plan.validPrefix) (some repairDemuxOptions) trackAllocs
      allocs).2 = none) :
    (repairWrite plan trackAllocs allocs env).2 = none := by
  unfold repairWrite
  dsimp only
  generalize demuxOpen (plan.source.take plan.validPrefix) (some repairDemuxOptions) trackAllocs
    allocs = r at h ⊢
  rcases r with ⟨status, demux⟩
  obtain rfl : demux = none := h
  by_cases hzero : plan.validPrefix = 0
  · rw [if_pos hzero]
  · rw [if_neg hzero]
    cases status <;> rfl

/-- **Repairing copies**: what it hands to `fwrite` is the file of what is salvaged of the
source. -/
theorem repairCmd_copies (hB : B.length ≤ sizeMax)
    (h : (repairCmd B (Stream'.const true) (Stream'.const true) allocs env).2 = some bytes) :
    ∃ media, salvaged B = some media ∧ bytes = media.bytes ∧ Tells bytes media := by
  obtain ⟨hstatus, hvalid⟩ := repairScan_recorder B (Stream'.const true)
  unfold repairCmd at h
  dsimp only at h
  split_ifs at h with hscan
  have hnonzero : (repairScan B none (Stream'.const true)).2.validPrefix ≠ 0 := by
    intro hzero
    rw [repairWrite, if_pos hzero] at h
    simp at h
  have hsalvaged : salvaged B =
      some (Media.of (parseTideBytes B true (some limitsDefault) recorder []
        (Stream'.const true)).2.user) := by
    unfold salvaged
    rw [hstatus] at hscan
    rw [hvalid] at hnonzero
    exact if_pos ⟨hscan, hnonzero⟩
  obtain ⟨hd, f, hfile, hmedia⟩ := salvaged_cases hB hsalvaged
  rw [← hvalid] at hfile
  have htake : (B.take (repairScan B none (Stream'.const true)).2.validPrefix).length ≤
      sizeMax := by
    rw [List.length_take]
    omega
  rcases hopen : demuxOpen (B.take (repairScan B none (Stream'.const true)).2.validPrefix)
    (some repairDemuxOptions)
    (Stream'.const true) allocs with ⟨status, _ | demux⟩
  · have hnone := @repairWrite_of_none allocs env (repairScan B none (Stream'.const true)).2
      (Stream'.const true) (congrArg Prod.snd hopen)
    rw [hnone] at h
    cases h
  obtain ⟨rfl, hcopies, hcursor⟩ := demuxOpen_told htake hfile rfl rfl hopen
  rw [repairWrite_session env hnonzero hopen (.inl rfl) hcursor, hcopies] at h
  rw [hmedia] at hsalvaged
  exact ⟨_, hsalvaged, Media.written (.inl rfl) hfile.forest h⟩

end

end Tide
