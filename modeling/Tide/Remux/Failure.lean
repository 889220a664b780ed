import Tide.Mux.Fragment
import Tide.Remux

/-!
# Remuxing that fails

`remux_cmd` closes its mux even if a call to it has failed, where `tide_repair_write` aborts it.
What is published then is the header, the records of the calls before the one that failed,
what that call left, and the footer, if there is room for it.

* `orderly_of_demuxOpen`: the streams and packets of a demux are orderly whichever allocations
  succeeded when it was opened.
* `stopped_not_opened_iff`: no decoder accepts the output of calls that stop at one that fails if
  and only if a fragment was left, or the footer has no room.
* `remux_unpublished_iff` says so of `remux_cmd`.
-/

namespace Tide

/-! ### What is opened is orderly -/

/-- The parser of a demux whose streams are those of the track table, and whose packets have
their streams. -/
structure Consistent (L : Limits) (p : Parsing Demux) : Prop where
  limits : p.limits = L
  callbacks : p.callbacks = demuxCallbacks
  table : TableOk L p.tracks p.user.packets
  streams : p.tracks = p.user.streams.map StreamInfo.snapshot
  cursor : p.user.cursor = 0

theorem Demux.growStreams_snd (demux : Demux) : demux.growStreams.2.streams = demux.streams ∧
    demux.growStreams.2.packets = demux.packets ∧ demux.growStreams.2.cursor = demux.cursor := by
  unfold growStreams
  dsimp only
  split_ifs <;> exact ⟨rfl, rfl, rfl⟩

theorem Demux.growPackets_snd (demux : Demux) : demux.growPackets.2.streams = demux.streams ∧
    demux.growPackets.2.packets = demux.packets ∧ demux.growPackets.2.cursor = demux.cursor := by
  unfold growPackets
  dsimp only
  split_ifs <;> exact ⟨rfl, rfl, rfl⟩

/-- A stream that was added is the last one. -/
theorem demuxAddStream_ok {demux : Demux} {s : StreamInfo}
    (hok : (demuxAddStream demux s).1 = .ok) :
    (demuxAddStream demux s).2.streams = demux.streams ++ [s] ∧
      (demuxAddStream demux s).2.packets = demux.packets ∧
      (demuxAddStream demux s).2.cursor = demux.cursor := by
  obtain ⟨hs, hp, hc⟩ := demux.growStreams_snd
  unfold demuxAddStream at hok ⊢
  have hgrow : demux.growStreams = (.ok, demux.growStreams.2) :=
    Prod.ext ((andThen_fst_eq_ok_iff ..).mp hok).1 rfl
  rw [hgrow, andThen_ok] at hok ⊢
  split_ifs at hok ⊢
  · exact ⟨congrArg (· ++ [s]) hs, hp, hc⟩
  · exact ⟨congrArg (· ++ [s]) hs, hp, hc⟩

/-- A packet that was added is the last one, unless it is not selected. -/
theorem demuxAddPacket_ok {demux : Demux} {k : PacketInfo}
    (hok : (demuxAddPacket demux k).1 = .ok) :
    (demuxAddPacket demux k).2.streams = demux.streams ∧
      (demuxAddPacket demux k).2.cursor = demux.cursor ∧
      ∀ j ∈ (demuxAddPacket demux k).2.packets, j ∈ demux.packets ∨ j.key = k.key := by
  obtain ⟨hs, hp, hc⟩ := demux.growPackets_snd
  unfold demuxAddPacket at hok ⊢
  split_ifs at hok ⊢
  · exact ⟨rfl, rfl, fun j hj => .inl hj⟩
  have hgrow : demux.growPackets = (.ok, demux.growPackets.2) :=
    Prod.ext ((andThen_fst_eq_ok_iff ..).mp hok).1 rfl
  rw [hgrow, andThen_ok] at hok ⊢
  dsimp only at hok ⊢
  split_ifs at hok ⊢
  refine ⟨hs, hc, fun j hj => ?_⟩
  rw [hp] at hj
  rcases List.mem_append.mp hj with hj | hj
  · exact .inl hj
  · exact .inr (by rw [List.mem_singleton.mp hj]; rfl)

/-- The callbacks keep a demux consistent. -/
theorem Consistent.sequel {L : Limits} {p q : Parsing Demux} {h : RecordHead} {payload : Bytes}
    (hc : Consistent L p) (hs : Sequel p h payload (.ok, q)) : Consistent L q := by
  obtain ⟨hlimits, hcb, ⟨hdistinct, htracks, hdescribed⟩, hstreams, hcursor⟩ := hc
  cases hs with
  | none hkeeps =>
    refine ⟨hkeeps.limits.trans hlimits, hkeeps.callbacks.trans hcb, ?_, ?_, ?_⟩
    · rw [hkeeps.tracks, hkeeps.user]
      exact ⟨hdistinct, htracks, hdescribed⟩
    · rw [hkeeps.tracks, hkeeps.user]
      exact hstreams
    · rw [hkeeps.user]
      exact hcursor
  | stream s q' ht hread hok hkeeps herr hr =>
    obtain ⟨-, hfind, hroom⟩ := hok
    rw [hlimits] at hroom
    have hcall : q'.notify (.stream s) = ((demuxAddStream p.user s).1,
        { q' with user := (demuxAddStream p.user s).2 }) := by
      rw [Parsing.notify, hkeeps.callbacks, hkeeps.user, hcb]
      rfl
    rw [hcall] at hr
    obtain ⟨hok, rfl⟩ := Prod.mk.inj hr
    obtain ⟨hs', hp', hc'⟩ := demuxAddStream_ok hok.symm
    refine ⟨hkeeps.limits.trans hlimits, hkeeps.callbacks.trans hcb, ?_, ?_, hc'.trans hcursor⟩
    · dsimp only
      rw [hkeeps.tracks, hp']
      rw [findTrack_eq_none_iff] at hfind
      constructor
      · rw [List.map_append]
        exact List.Nodup.append hdistinct (List.nodup_singleton _)
          (List.disjoint_singleton.mpr hfind)
      · rw [List.length_append]
        exact hroom
      · intro k hk
        rw [List.map_append]
        exact List.mem_append_left _ (hdescribed k hk)
    · dsimp only
      rw [hkeeps.tracks, hs', List.map_append, ← hstreams]
      rfl
  | packet k ht hread hok hr =>
    obtain ⟨-, hfound⟩ := hok
    have hcall : p.notify (.packet k) = ((demuxAddPacket p.user k).1,
        { p with user := (demuxAddPacket p.user k).2 }) := by
      rw [Parsing.notify, hcb]
      rfl
    rw [hcall] at hr
    obtain ⟨hok, rfl⟩ := Prod.mk.inj hr
    obtain ⟨hs', hc', hp'⟩ := demuxAddPacket_ok hok.symm
    refine ⟨hlimits, hcb, ⟨hdistinct, htracks, fun j hj => ?_⟩, ?_, hc'.trans hcursor⟩
    · rcases hp' j hj with hj | hkey
      · exact hdescribed j hj
      · rw [hkey]
        exact (findTrack_isSome_iff ..).mp hfound
    · dsimp only
      rw [hs']
      exact hstreams

/-- A demux is not told of records. -/
theorem Consistent.notify {L : Limits} {p : Parsing Demux} (hc : Consistent L p)
    (event : RecordEvent) :
    Consistent L (p.notify (.record event)).2 := by
  rw [Parsing.notify, hc.callbacks]
  exact ⟨hc.limits, rfl, hc.table, hc.streams, hc.cursor⟩

/-- A record keeps a demux consistent. -/
theorem Consistent.processRecord {L : Limits} {data payload : Bytes} {limits : Limits}
    {lo hi offset depth : ℕ} {h : RecordHead} {parse : ParseRecords Demux} {p q : Parsing Demux}
    (hc : Consistent L p) (hf : Found data limits lo hi offset h payload)
    (herr : p.error.code = .ok) (ht : h.type ≠ RecordType.group.code)
    (hok : processRecord parse data (h.frameAt offset payload.length (UInt8.ofNat depth)) p =
      (.ok, q)) :
    Consistent L q := by
  have hannounced := hc.notify (h.frameAt offset payload.length (UInt8.ofNat depth)).event
  have hprocessed := hf.processed parse depth p
  rw [hok] at hprocessed
  generalize hr : ((.ok, q) : Status × Parsing Demux) = r at hprocessed
  have hq : q = r.2 := congrArg Prod.snd hr
  cases hprocessed with
  | unanswered =>
    rw [hq]
    exact hannounced
  | skipped | checked =>
    rw [hq]
    exact hannounced
  | stream _ ht' =>
    have hsequel := emitStream_sequel
      (show (p.notify (.record (h.frameAt offset payload.length
        (UInt8.ofNat depth)).event)).2.error.code =
      .ok from herr) ht' payload (h.frameAt offset payload.length (UInt8.ofNat depth))
    rw [← hr] at hsequel
    exact hannounced.sequel hsequel
  | packet _ ht' =>
    have hsequel := emitPacket_sequel
      (p.notify (.record (h.frameAt offset payload.length (UInt8.ofNat depth)).event)).2 ht' payload
      (h.frameAt offset payload.length (UInt8.ofNat depth))
    rw [← hr] at hsequel
    exact hannounced.sequel hsequel
  | opened _ ht' => exact absurd ht' ht
  | refused _ e he => exact absurd (congrArg Prod.fst hr).symm he.1

theorem tracked_consistent (L : Limits) (B : Bytes) :
    Tracked B fun p (_ : Forest) q => Consistent L p → Consistent L q where
  nil _ hc := hc
  append _ hpq hqr hc := hqr ⟨(hpq hc).limits, (hpq hc).callbacks, (hpq hc).table, (hpq hc).streams,
    (hpq hc).cursor⟩
  leaf herr hf ht hok hc := hc.processRecord hf herr ht hok
  group _ hpq hc := hpq (hc.notify _)

/-- **What is opened with `OK` is orderly**, whichever allocations succeed. -/
theorem orderly_of_demuxOpen {B : Bytes} {options : Option DemuxOptions}
    {trackAllocs allocs : Stream' Bool} {demux : Demux} (hB : B.length ≤ sizeMax)
    (hopen : demuxOpen B options trackAllocs allocs = (.ok, some demux)) :
    Orderly (demuxLimits options) (copies demux.streams demux.packets) ∧ demux.cursor = 0 := by
  have hok := congrArg Prod.fst hopen
  rw [demuxOpen_fst] at hok
  have hstart : Consistent (demuxLimits options)
      (Parsing.start (some (demuxLimits options)) demuxCallbacks (Demux.start options allocs)
        trackAllocs) :=
    ⟨rfl, rfl, ⟨List.nodup_nil, Nat.zero_le _, nofun⟩, rfl, rfl⟩
  obtain ⟨-, -, -, -, hkeeps⟩ := run_of_parseTideBytes (tracked_consistent _ B) hB hok
  obtain ⟨-, -, htable, hstreams, hcursor⟩ := hkeeps hstart
  rw [hstreams] at htable
  unfold demuxOpen at hopen
  dsimp only at hopen
  rw [if_neg (fun hnot => hnot.1 hok)] at hopen
  obtain rfl := Option.some.inj (Prod.mk.inj hopen).2
  exact ⟨copies_orderly htable, hcursor⟩

/-! ### The call that fails -/

/-- The call at which calls stop, and the mux in the state in which it is made. -/
def Mux.stop (mux : Mux) : List Content → Option (Mux × Content)
  | [] => none
  | c :: cs => if (mux.call c).1 = .ok then (mux.call c).2.stop cs else some (mux, c)

/-- Calls that do not all return `OK` stop behind some that did, with what the call returned
that failed. -/
theorem Mux.calls_stop (mux : Mux) (cs : List Content) :
    (mux.stop cs = none ∧ (mux.calls cs).1 = .ok) ∨
      ∃ done c rest, cs = done ++ c :: rest ∧ (mux.calls done).1 = .ok ∧
        mux.stop cs = some ((mux.calls done).2, c) ∧
        ((mux.calls done).2.call c).1 ≠ .ok ∧ mux.calls cs = (mux.calls done).2.call c := by
  induction cs generalizing mux with
  | nil => exact .inl ⟨rfl, rfl⟩
  | cons c cs ih =>
    rw [Mux.stop, Mux.calls]
    by_cases hok : (mux.call c).1 = .ok
    swap
    · rw [if_neg hok, andThen_of_ne hok]
      exact .inr ⟨[], c, cs, rfl, rfl, rfl, hok, rfl⟩
    have hcall : mux.call c = (.ok, (mux.call c).2) := Prod.ext hok rfl
    rw [if_pos hok, hcall, andThen_ok]
    obtain hall | ⟨done, d, rest, rfl, hdone, hstop, hfail, hcalls⟩ := ih (mux.call c).2
    · exact .inl hall
    · have hmore : mux.calls (c :: done) = (mux.call c).2.calls done := by
        rw [Mux.calls, hcall, andThen_ok]
      refine .inr ⟨c :: done, d, rest, rfl, ?_, ?_, ?_, ?_⟩
      · rw [hmore]
        exact hdone
      · rw [hmore]
        exact hstop
      · rw [hmore]
        exact hfail
      · rw [hmore]
        exact hcalls

/-- Each record takes 14 bytes or more. -/
theorem length_contentForest (sequence : UInt64) (cs : List Content) :
    14 * cs.length ≤ (contentForest sequence cs).bytes.length := by
  induction cs generalizing sequence with
  | nil => exact Nat.zero_le _
  | cons c cs ih =>
    have hrest := ih (sequence + 1)
    have hge := (c.head sequence).size_ge c.payload.length
    rw [contentForest, Forest.bytes, List.length_append, RecordHead.length_bytes, List.length_cons]
    omega

theorem contentForest_each (sequence : UInt64) (cs : List Content) (offset : ℕ) :
    (contentForest sequence cs).Each (fun _ h _ => h.alignmentLog2 ≤ 4) offset := by
  induction cs generalizing sequence offset with
  | nil => trivial
  | cons c cs ih =>
    refine ⟨?_, show (3 : UInt8) ≤ 4 by decide, ih _ _⟩
    cases c with
    | stream s => exact (by decide : RecordType.streamDesc.code ≠ RecordType.group.code)
    | packet k => exact (by decide : RecordType.packet.code ≠ RecordType.group.code)

/-- **With a fragment in it, an output is not opened**, with whatever options. -/
theorem fragment_not_opened {hd : Header} (hu : hd.uuid.length = 16) {done : List Content}
    {c : Content} (hc : c.payload.length ≤ sizeMax) {sequence : UInt64}
    (hseq : sequence.toNat < 2 ^ 28 - 1) {k : ℕ} (hk : 0 < k) (hk4 : k < 4) {data : Bytes}
    (hdata : data.length < 2 ^ 31) {bytes : Bytes}
    (hbytes : bytes = hd.bytes ++ ((contentForest 0 done).bytes ++
      (((recordPieces (c.head sequence) c.payload).take k).flatten ++
        (footerForest (sequence + 1) data).bytes)))
    (hmax : bytes.length ≤ sizeMax) (options : Option DemuxOptions)
    (trackAllocs allocs : Stream' Bool) :
    (demuxOpen bytes options trackAllocs allocs).1 ≠ .ok := by
  intro hok
  rw [demuxOpen_fst] at hok
  obtain ⟨f, heach, hl, hend, hrec⟩ := run_of_parseTideBytes (tracked_recognized bytes) hmax hok
  have hheader := hd.length_bytes hu
  have hlen := congrArg List.length hbytes
  rw [List.length_append, List.length_append, hheader] at hlen
  have hcontents : Lies bytes 72 (contentForest 0 done).bytes := by
    rw [hbytes, ← hheader]
    exact lies_mid ..
  obtain ⟨rest, rfl⟩ := heach.prefix_unique (fun hchecked => hchecked.head.alignment) id hl
    (contentForest_each 0 done 72) hcontents
    (by omega) hend (Nat.le_refl _) hmax (Nat.le_refl _)
  -- what is left of the file is the fragment and the footer
  rw [Forest.bytes_append] at hl hend
  have hrest := (lies_append_iff.mp hl).2
  have hlies : Lies bytes (72 + (contentForest 0 done).bytes.length)
      (((recordPieces (c.head sequence) c.payload).take k).flatten ++
        (footerForest (sequence + 1) data).bytes) := by
    have hafter := lies_after (hd.bytes ++ (contentForest 0 done).bytes)
      (((recordPieces (c.head sequence) c.payload).take k).flatten ++
        (footerForest (sequence + 1) data).bytes)
    rwa [List.length_append, hheader, List.append_assoc, ← hbytes] at hafter
  rw [List.length_append] at hend
  have hsame : rest.bytes.length =
      (((recordPieces (c.head sequence) c.payload).take k).flatten ++
        (footerForest (sequence + 1) data).bytes).length := by omega
  rw [Lies, hsame] at hrest
  exact fragment_refused hseq hdata hc hk hk4 (Forest.each_append_iff.mp heach).2
    ((Forest.recognized_append_iff ..).mp hrec).2 (by omega)
    (hrest.symm.trans hlies)

/-- **Without a fragment, an output is opened** with the default limits. -/
theorem complete_opened {options : Option MuxOptions}
    (hbase : rationalIsValid (muxTimeBase options) = true) {done : List Content}
    (hdone : ∀ c ∈ done, c.Accepted limitsDefault) (horderly : Orderly limitsDefault done)
    (sequence : UInt64) {bytes : Bytes}
    (hbytes : bytes = (muxHeader options).bytes ++ ((contentForest 0 done).bytes ++
      (footerForest sequence ((muxHeader options).bytes ++ (contentForest 0 done).bytes)).bytes))
    (hmax : bytes.length ≤ sizeMax) :
    (demuxOpen bytes none (Stream'.const true) (Stream'.const true)).1 = .ok := by
  have hfile : FileOk limitsDefault (admits limitsDefault) bytes (muxHeader options)
      ((contentForest 0 done).append (footerForest sequence ((muxHeader options).bytes ++
        (contentForest 0 done).bytes))) := by
    refine ⟨(muxHeader_valid_iff hbase limitsDefault).mpr (by decide), ?_,
      by rw [hbytes, Forest.bytes_append]⟩
    rw [Forest.valid_append_iff, contentForest_valid_iff hdone, allPlaced_nil_iff,
      footerForest_valid_iff (by
      rw [hbytes, ← List.append_assoc] at hmax
      exact hmax)]
    exact ⟨⟨sized_default hdone 0, horderly⟩,
      (footerHead_ok_iff (by decide) sequence).mpr (by decide)⟩
  obtain ⟨demux, hopen, -⟩ := @demuxOpen_file bytes none _ _ hmax hfile
  exact congrArg Prod.fst hopen

/-- No bytes at all are not opened. -/
theorem empty_not_opened (options : Option DemuxOptions) (trackAllocs allocs : Stream' Bool) :
    (demuxOpen [] options trackAllocs allocs).1 ≠ .ok := by
  intro hok
  rw [demuxOpen_fst] at hok
  obtain ⟨f, -, -, hend, -⟩ := run_of_parseTideBytes (tracked_recognized []) (Nat.zero_le _) hok
  rw [List.length_nil] at hend
  omega

/-- The first of some orderly contents are orderly. -/
theorem Orderly.of_append {limits : Limits} {cs ds : List Content}
    (h : Orderly limits (cs ++ ds)) : Orderly limits cs := by
  obtain ⟨hdistinct, htracks, hdescribed⟩ := h
  have hstreams : contentStreams (cs ++ ds) = contentStreams cs ++ contentStreams ds :=
    List.filterMap_append
  rw [streamKeys, hstreams, List.map_append] at hdistinct
  rw [hstreams, List.length_append] at htracks
  refine ⟨List.Nodup.of_append_left hdistinct, by omega, fun pre p post hcs => ?_⟩
  exact hdescribed pre p (post ++ ds) (by rw [hcs, List.append_assoc]; rfl)

/-- Closing a mux hands the output to `fwrite` if the footer could be appended. -/
theorem muxClose_of_finish {mux : Mux} (h : mux.finish.1 = .ok) :
    muxClose mux true true = (.ok, some mux.finish.2.buffer.data) := by
  unfold muxClose
  rw [show mux.finish = (.ok, mux.finish.2) from Prod.ext h rfl]
  rfl

/-- And nothing else. -/
theorem muxClose_of_ne {mux : Mux} (h : mux.finish.1 ≠ .ok) :
    (muxClose mux true true).2 = none := by
  unfold muxClose
  generalize mux.finish = r at h ⊢
  rcases r with ⟨status, mux'⟩
  cases status <;> first | exact absurd rfl h | rfl

/-- **A call that fails**, and then the mux is closed: no decoder accepts the output if and only
if the record was begun and had no room as a whole, or there is no room for the footer. -/
theorem stopped_not_opened_iff {options : Option MuxOptions} {env : MuxEnv} {mux : Mux}
    (hcreate : muxCreate options env.opened env.allocs env.scratch = (.ok, some mux))
    (hlimits : muxLimits options = limitsDefault) (hfooter : muxWriteFooter options = true)
    {done : List Content} (horderly : Orderly limitsDefault done) (hdone : (mux.calls done).1 = .ok)
    {c : Content} (hcall : ((mux.calls done).2.call c).1 ≠ .ok) :
    (∀ demuxOptions trackAllocs allocs,
      (demuxOpen ((muxClose ((mux.calls done).2.call c).2 true true).2.getD []) demuxOptions
        trackAllocs allocs).1 ≠ .ok) ↔
      ((mux.calls done).2.Whole c → ¬ ((mux.calls done).2.call c).2.FooterFits) := by
  obtain ⟨hbase, hdata, -, hmlimits, hmseq, hmclosed, hmfooter⟩ := muxCreate_ok hcreate
  rw [hlimits] at hmlimits
  obtain ⟨hext, haccepted⟩ := Mux.calls_ok hdone
  obtain ⟨hlimited, hlim⟩ := (Mux.limited_create hcreate).calls done
  rw [hmlimits] at haccepted hlim
  have hdata' := hext.data
  have hseq := hext.sequence
  rw [hdata, hmseq] at hdata'
  rw [hmseq, UInt64.zero_add] at hseq
  have hmclosed' := hext.closed.trans hmclosed
  have hmfooter' := hext.writeFooter.trans (hmfooter.trans hfooter)
  generalize (mux.calls done).2 = m at hcall hext hlimited hlim hdata' hseq hmclosed' hmfooter' ⊢
  obtain ⟨hclosed, hwrites⟩ := m.call_frame c
  obtain ⟨hlimited', hlim'⟩ := hlimited.call c
  have hfinish : (m.call c).2.finish = muxAppendFooter (m.call c).2 := by
    rw [Mux.finish, hclosed, hmclosed', hwrites, hmfooter']
    rfl
  have hiff := muxAppendFooter_eq_ok_iff (m.call c).2
  rw [← hfinish] at hiff
  by_cases hfits : (m.call c).2.FooterFits
  swap
  · rw [muxClose_of_ne (mt hiff.mp hfits)]
    exact iff_of_true empty_not_opened fun _ => hfits
  rw [muxClose_of_finish (hiff.mpr hfits), hfinish, Option.getD_some]
  have happended := muxAppendFooter_ok ((muxAppendFooter_eq_ok_iff _).mpr hfits)
  have hbounded := happended.bounded hlimited'.bounded
  have hbytes := happended.data
  by_cases hwhole : m.Whole c
  · have hkept := (m.keeps_iff_whole c).mpr hwhole hcall
    rw [hkept, hdata', List.append_assoc] at hbytes
    refine iff_of_false (fun hall => ?_) fun h => h hwhole hfits
    exact hall none _ _ (complete_opened hbase haccepted horderly _ hbytes hbounded.size)
  · refine iff_of_true (fun demuxOptions trackAllocs allocs => ?_) fun h => absurd h hwhole
    obtain ⟨k, hk, hk4, hsize, hsucc, hleft⟩ := Mux.call_fragment hwhole
    have hlimit := hlimited'.bounded.limit
    rw [hlimited'.limit, hlim', hlim, show limitsDefault.maxAggregateAlloc.toNat = 128 * 1024 * 1024
      from rfl] at hlimit
    have hcount := length_contentForest 0 done
    have hshort : done.length < 2 ^ 28 - 1 := by
      rw [hleft, hdata', List.length_append, List.length_append] at hlimit
      omega
    have hseq' : m.sequence.toNat < 2 ^ 28 - 1 := by
      rw [hseq, UInt64.toNat_ofNat_of_lt' (show done.length < 2 ^ 64 by omega)]
      exact hshort
    rw [hsucc] at hbytes
    have hbytes' : (muxAppendFooter (m.call c).2).2.buffer.data = (muxHeader options).bytes ++
        ((contentForest 0 done).bytes ++
          (((recordPieces (c.head m.sequence) c.payload).take k).flatten ++
            (footerForest (m.sequence + 1) (m.call c).2.buffer.data).bytes)) := by
      rw [hbytes, hleft, hdata', List.append_assoc, List.append_assoc]
    exact fragment_not_opened rfl hsize hseq' hk hk4 (by omega) hbytes' hbounded.size demuxOptions
      trackAllocs allocs

/-- **When remuxing that fails leaves nothing that looks complete**: no decoder accepts the file
if and only if the call that failed had begun its record, which had no room as a whole, or
there is no room for the footer. -/
theorem remux_unpublished_iff (source : Bytes) (hsource : source.length ≤ sizeMax)
    (trackAllocs allocs : Stream' Bool) (env : MuxEnv) (hwritten : env.written = true)
    (hflushed : env.flushed = true) (demux : Demux)
    (hopen : demuxOpen source (some remuxDemuxOptions) trackAllocs allocs = (.ok, some demux))
    (mux : Mux)
    (hcreate : muxCreate (some remuxMuxOptions) env.opened env.allocs env.scratch = (.ok, some mux))
    (hfail : (remux source trackAllocs allocs env).1 ≠ .ok) :
    (∀ options trackAllocs' allocs',
        (demuxOpen ((remux source trackAllocs allocs env).2.getD []) options trackAllocs'
          allocs').1 ≠ .ok) ↔
      ∀ m c, mux.stop (copies demux.streams demux.packets) = some (m, c) → m.Whole c →
        ¬ (m.call c).2.FooterFits := by
  obtain ⟨horderly, hcursor⟩ := orderly_of_demuxOpen hsource hopen
  have hlimits : muxLimits (some remuxMuxOptions) = limitsDefault := rfl
  have hremux : remux source trackAllocs allocs env =
      (if (mux.calls (copies demux.streams demux.packets)).1 = .ok then
          (muxClose (mux.calls (copies demux.streams demux.packets)).2 true true).1
        else (mux.calls (copies demux.streams demux.packets)).1,
        (muxClose (mux.calls (copies demux.streams demux.packets)).2 true true).2) := by
    unfold remux
    rw [hopen]
    dsimp only
    rw [hcreate]
    dsimp only
    rw [copyAll_eq_calls hcursor, hwritten, hflushed]
  rw [hremux] at hfail ⊢
  obtain ⟨hstop, hok⟩ | ⟨done, c, rest, hcopies, hdone, hstop, hcall, hcalls⟩ :=
    mux.calls_stop (copies demux.streams demux.packets)
  · -- every call returned `OK`, and closing failed
    rw [if_pos hok] at hfail
    have hfinish : (mux.calls (copies demux.streams demux.packets)).2.finish.1 ≠ .ok := by
      intro hfin
      rw [muxClose_of_finish hfin] at hfail
      exact hfail rfl
    rw [muxClose_of_ne hfinish, hstop]
    exact iff_of_true empty_not_opened fun m c hnone => absurd hnone (Option.some_ne_none _).symm
  · rw [hcopies] at horderly
    rw [hcalls, hstop]
    refine (stopped_not_opened_iff hcreate rfl rfl horderly.of_append hdone hcall).trans ?_
    constructor
    · intro h m c' heq
      cases heq
      exact h
    · exact fun h => h _ _ rfl

/-- A machine that has no memory for the `k`-th of the buffers that calls use for themselves. -/
def shortEnv (k : ℕ) : MuxEnv :=
  ⟨true, true, true, Stream'.const true, fun i => Stream'.const (i != k)⟩

/-- The small file, opened to be remuxed. -/
def sampleDemux : Demux :=
  (demuxOpen sampleFile (some remuxDemuxOptions) (Stream'.const true) (Stream'.const true)).2.get
    (by decide +kernel)

/-- A mux that has no memory for its footer. -/
def shortMux : Mux :=
  (muxCreate (some remuxMuxOptions) true (Stream'.const true) (shortEnv 2).scratch).2.get
    (by decide +kernel)

/-- Without the footer the file is not accepted. -/
theorem shortMux_unpublished :
    ¬ ∃ (options : Option DemuxOptions) (trackAllocs allocs : Stream' Bool),
    (demuxOpen ((remux sampleFile (Stream'.const true) (Stream'.const true) (shortEnv 2)).2.getD [])
      options trackAllocs allocs).1 = .ok := by
  rintro ⟨options, trackAllocs, allocs, hok⟩
  have hopen : (demuxOpen sampleFile (some remuxDemuxOptions) (Stream'.const true)
      (Stream'.const true)).1 = .ok := by decide +kernel
  have hcreate : (muxCreate (some remuxMuxOptions) true (Stream'.const true)
      (shortEnv 2).scratch).1 = .ok := by decide +kernel
  have hstop : (shortMux.stop (copies sampleDemux.streams sampleDemux.packets)).isNone = true := by
    decide +kernel
  refine (remux_unpublished_iff sampleFile (by decide +kernel) _ _ (shortEnv 2) rfl rfl sampleDemux
    (Prod.ext hopen (Option.some_get _).symm) shortMux (Prod.ext hcreate (Option.some_get _).symm)
      (by decide +kernel)).mpr ?_ options
    trackAllocs allocs hok
  intro m c hsome
  rw [hsome] at hstop
  cases hstop

/-- The small file without its packet is published. -/
theorem remux_published :
    ¬ ∀ (source : Bytes) (_ : source.length ≤ sizeMax) (trackAllocs allocs : Stream' Bool)
    (env : MuxEnv)
    (_ : env.written = true) (_ : env.flushed = true) (demux : Demux)
    (_ : demuxOpen source (some remuxDemuxOptions) trackAllocs allocs = (.ok, some demux))
    (mux : Mux)
    (_ : muxCreate (some remuxMuxOptions) env.opened env.allocs env.scratch = (.ok, some mux))
    (_ : (remux source trackAllocs allocs env).1 ≠ .ok) (options : Option DemuxOptions)
    (trackAllocs' allocs' : Stream' Bool),
    (demuxOpen ((remux source trackAllocs allocs env).2.getD []) options trackAllocs' allocs').1 ≠
      .ok := by
  intro hall
  have hopen : (demuxOpen sampleFile (some remuxDemuxOptions) (Stream'.const true)
      (Stream'.const true)).1 = .ok := by decide +kernel
  have hcreate : (muxCreate (some remuxMuxOptions) true (Stream'.const true)
      (shortEnv 1).scratch).1 = .ok := by decide +kernel
  have hsome : (muxCreate (some remuxMuxOptions) true (Stream'.const true)
      (shortEnv 1).scratch).2.isSome = true := by decide +kernel
  refine hall sampleFile (by decide +kernel) _ _ (shortEnv 1) rfl rfl sampleDemux
    (Prod.ext hopen (Option.some_get _).symm)
    ((muxCreate (some remuxMuxOptions) true (Stream'.const true) (shortEnv 1).scratch).2.get hsome)
    (Prod.ext hcreate (Option.some_get _).symm) (by decide +kernel) none (Stream'.const true)
      (Stream'.const true) ?_
  decide +kernel

end Tide
