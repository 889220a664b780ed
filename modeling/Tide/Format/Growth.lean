import Tide.Theory.Growing
import Tide.Format.Once
import Tide.Format.Records

/-!
# The track table when memory runs out

The track table is a table that is reallocated when it is full. When that fails,
`tide_add_track` sets no error, and `tide_emit_stream` returns the status of an error that is
clear: the descriptor is neither registered nor delivered, and the parser goes on. So of
bytes that are accepted no descriptor is lost if and only if the reallocations succeed
that so many descriptors need (`noneLost_iff`).

`Adds` says what becomes of the table and the client over some streams; of each record it
is shown once (`processRecord_adds`), of a run by `run_of_parse`. In a session there is
one more way: `on_stream` may return `TRUNCATED`, and then the descriptor, which is in the
table, is fetched again. Such a session does not end with `OK` (`Stuck`).
-/

namespace Tide

open Theory

variable {σ : Type}

/-- The track table. -/
def Parsing.table (p : Parsing σ) : Growing TrackSnapshot := ⟨p.tracks, p.trackCapacity, p.allocs⟩

/-- A client that has `on_stream`: `streams` are the streams delivered to it. What its callbacks
return is left open, and so is which others it has. -/
def Callbacks.Collects (callbacks : Callbacks σ) (streams : σ → List StreamInfo) : Prop :=
  ∀ user event, streams (callbacks.call user event).2 = streams user ++ streamsOf [event]

/-- The payloads of the descriptors of a forest, in order. -/
def Forest.descriptors : Forest → List Bytes
  | .nil => []
  | .leaf h payload next =>
      if h.type = RecordType.streamDesc.code then payload :: next.descriptors else next.descriptors
  | .group _ _ children next => children.descriptors ++ next.descriptors

@[simp] theorem Forest.descriptors_append (f g : Forest) :
    (f.append g).descriptors = f.descriptors ++ g.descriptors := by
  induction f with
  | nil => rfl
  | leaf h payload next ih =>
    simp only [Forest.append, Forest.descriptors, ih]
    split <;> simp
  | group h m children next _ ih => simp [Forest.append, Forest.descriptors, ih]

/-- The forest is that of the records of a file. -/
structure Forest.Fills (L : Limits) (B : Bytes) (f : Forest) : Prop where
  each : f.Each (Checked L) 72
  lies : Lies B 72 f.bytes
  ends : 72 + f.bytes.length = B.length

/-- **No descriptor is lost** of the bytes `B`, between two states: the streams that were delivered
are those of the descriptors, each once and in order, so are those in the track table, and
every reallocation that was made succeeded. -/
def NoneLost (L : Limits) (streams : σ → List StreamInfo) (B : Bytes) (p q : Parsing σ) : Prop :=
  ∃ (f : Forest) (delivered : List StreamInfo), f.Fills L B ∧
    delivered.map some = f.descriptors.map (wholePayload readStream) ∧
      streams q.user = streams p.user ++ delivered ∧
    q.tracks = p.tracks ++ delivered.map StreamInfo.snapshot ∧
    ∃ made, q.allocs = p.allocs.drop made ∧ ∀ i < made, p.allocs.get i = true

/-! ### Adding streams -/

/-- Between two states the streams `infos` come to the table: those that it keeps are
delivered. -/
structure Adds (streams : σ → List StreamInfo) (p : Parsing σ) (infos : List StreamInfo)
    (q : Parsing σ) : Prop where
  callbacks : q.callbacks = p.callbacks
  table : q.table = (p.table.addAll 8 StreamInfo.snapshot infos).2
  delivered : streams q.user = streams p.user ++ (p.table.addAll 8 StreamInfo.snapshot infos).1

section

variable {streams : σ → List StreamInfo} {p q r : Parsing σ} {infos infos' : List StreamInfo}

theorem Adds.refl (p : Parsing σ) : Adds streams p [] p := ⟨rfl, rfl, by simp⟩

theorem Adds.trans (h : Adds streams p infos q) (h' : Adds streams q infos' r) :
    Adds streams p (infos ++ infos') r := by
  refine ⟨h'.callbacks.trans h.callbacks, ?_, ?_⟩
  · rw [Growing.addAll_append, ← h.table, h'.table]
  · rw [Growing.addAll_append, ← h.table, h'.delivered, h.delivered, List.append_assoc]

/-- A callback that is not `on_stream`. -/
theorem Adds.notify (hcb : p.callbacks.Collects streams) {event : Event}
    (hnone : streamsOf [event] = []) : Adds streams p [] (p.notify event).2 :=
  ⟨rfl, rfl, (hcb p.user event).trans (by simp [hnone])⟩

/-- **`tide_add_track`** refuses a stream, or the table keeps it, or it is lost. -/
theorem addTrack_table (p : Parsing σ) (s : StreamInfo) (offset : ℕ) :
    (∃ e, e.code.Rejects ∧ addTrack p s offset = p.fail e) ∨
      ∃ q, addTrack p s offset = (if (p.table.add 8 s.snapshot).1 then .ok else .resource, q) ∧
        q.table = (p.table.add 8 s.snapshot).2 ∧ q.callbacks = p.callbacks ∧ q.user = p.user ∧
          q.error = p.error := by
  unfold addTrack
  split
  · exact .inl ⟨_, show Status.format.Rejects by decide, rfl⟩
  split
  · exact .inl ⟨_, show Status.resource.Rejects by decide, rfl⟩
  have hadd : p.table.add 8 s.snapshot = if p.tracks.length = p.trackCapacity then
      if p.allocs.head then
        (true, ⟨p.tracks ++ [s.snapshot], if p.trackCapacity = 0 then 8 else p.trackCapacity * 2,
          p.allocs.tail⟩)
      else (false, { p.table with allocs := p.allocs.tail })
    else (true, { p.table with items := p.tracks ++ [s.snapshot] }) := rfl
  rw [hadd]
  refine .inr ?_
  split
  · split
    · exact ⟨_, rfl, rfl, rfl, rfl, rfl⟩
    · exact ⟨_, rfl, rfl, rfl, rfl, rfl⟩
  · exact ⟨_, rfl, rfl, rfl, rfl, rfl⟩

/-- **`tide_emit_stream`**, where it does not reject: the stream came to the table, also if its
callback returned `TRUNCATED`, and then it is there. -/
theorem emitStream_adds (hcb : p.callbacks.Collects streams) (herr : p.error.code = .ok)
    {payload : Bytes} {frame : RecordFrame} {r : Status × Parsing σ}
    (hr : emitStream p payload frame = r) (hst : r.1 = .ok ∨ r.1 = .truncated) :
    ∃ s, wholePayload readStream payload = some s ∧ Adds streams p [s] r.2 ∧
      (r.1 = .truncated → (findTrack r.2.tracks s.trackId s.generation).isSome) := by
  have hrejects : ∀ {e : Error}, e.code.Rejects → p.fail e ≠ r := by
    intro e he heq
    rw [← heq] at hst
    exact not_or.mpr ⟨he.1, he.2.2⟩ hst
  unfold emitStream at hr
  cases hread : wholePayload readStream payload with
  | none =>
    rw [hread] at hr
    exact absurd hr (hrejects (show Status.format.Rejects by decide))
  | some s =>
    rw [hread] at hr
    dsimp only at hr
    split at hr
    · exact absurd hr (hrejects (show Status.timeline.Rejects by decide))
    change closeTrack s (addTrack p s frame.offset) = r at hr
    obtain ⟨e, he, hadd⟩ | ⟨q, hadd, htable, hcallbacks, huser, herror⟩ :=
      addTrack_table p s frame.offset
    · rw [hadd] at hr
      rw [closeTrack_of_ne he.1 s] at hr
      exact absurd hr (hrejects he)
    rw [hadd] at hr
    refine ⟨s, rfl, ?_⟩
    cases hkept : (p.table.add 8 s.snapshot).1 with
    | true =>
      rw [hkept, if_pos rfl] at hr
      subst hr
      rw [← hcallbacks] at hcb
      refine ⟨⟨hcallbacks, htable, ?_⟩, fun _ => ?_⟩
      · rw [show (p.table.addAll 8 StreamInfo.snapshot [s]).1 =
          [s] by simp [Growing.addAll, hkept], ← huser]
        exact hcb q.user (.stream s)
      · have hitems := Growing.addAll_items 8 StreamInfo.snapshot p.table [s]
        simp only [Growing.addAll, hkept, ← htable] at hitems
        rw [findTrack_isSome_iff]
        refine List.mem_map_of_mem (f := TrackSnapshot.key) (a := s.snapshot) ?_
        change s.snapshot ∈ q.table.items
        simp [hitems]
    | false =>
      rw [hkept, if_neg (by simp), closeTrack_of_ne (by simp)] at hr
      subst hr
      refine ⟨⟨hcallbacks, htable, ?_⟩, fun htrunc => ?_⟩
      · rw [show (p.table.addAll 8 StreamInfo.snapshot [s]).1 =
          [] by simp [Growing.addAll, hkept], List.append_nil]
        exact congrArg streams huser
      · rw [show q.error.code = .ok from (congrArg Error.code herror).trans herr] at htrunc
        cases htrunc

/-- `tide_emit_packet` adds nothing. -/
theorem emitPacket_adds (hcb : p.callbacks.Collects streams) (payload : Bytes)
    (frame : RecordFrame) :
    Adds streams p [] (emitPacket p payload frame).2 := by
  have hfail : ∀ e, Adds streams p [] (p.fail e).2 := fun e => ⟨rfl, rfl, (Adds.refl p).delivered⟩
  unfold emitPacket
  split
  · exact hfail _
  split
  · exact hfail _
  split
  · exact hfail _
  · exact Adds.notify hcb rfl

end

section

variable {streams : σ → List StreamInfo} {data payload : Bytes} {limits : Limits}
    {lo hi offset depth : ℕ} {h : RecordHead}
  {parse : ParseRecords σ} {p : Parsing σ} {r : Status × Parsing σ}

/-- What `tide_process_record` does with a descriptor. -/
theorem Found.processRecord_stream (hf : Found data limits lo hi offset h payload)
    (ht : h.type = RecordType.streamDesc.code) :
    processRecord parse data (h.frameAt offset payload.length (UInt8.ofNat depth)) p =
      andThen (p.notify (headEvent h payload.length offset depth)) fun p =>
        emitStream p payload (h.frameAt offset payload.length (UInt8.ofNat depth)) := by
  have hslice := slice_frameAt data h offset payload.length (UInt8.ofNat depth)
  have htype : (h.frameAt offset payload.length (UInt8.ofNat depth)).type = h.type := rfl
  unfold processRecord
  rw [hslice, h.lies_payload hf.lies]
  dsimp only
  rw [htype, ht, if_neg (by decide), recordTypeOf_code]
  rfl

/-- **A record** that is not a group, or is waited for: it adds nothing, or it is a descriptor
and adds its stream. -/
theorem Found.processRecord_adds (hf : Found data limits lo hi offset h payload)
    (hcb : p.callbacks.Collects streams) (herr : p.error.code = .ok)
    (hr : processRecord parse data (h.frameAt offset payload.length (UInt8.ofNat depth)) p = r)
    (hst : r.1 = .ok ∧ h.type ≠ RecordType.group.code ∨ r.1 = .truncated) :
    (r.1 = .ok → h.type ≠ RecordType.streamDesc.code) ∧ Adds streams p [] r.2 ∨
      h.type = RecordType.streamDesc.code ∧ ∃ s, wholePayload readStream payload = some s ∧
        Adds streams p [s] r.2 ∧
        (r.1 = .truncated → (findTrack r.2.tracks s.trackId s.generation).isSome) := by
  have hannounced : Adds streams p [] (p.notify (headEvent h payload.length offset depth)).2 :=
    Adds.notify hcb rfl
  by_cases ht : h.type = RecordType.streamDesc.code
  · rw [hf.processRecord_stream ht] at hr
    by_cases hok : (p.notify (headEvent h payload.length offset depth)).1 = .ok
    swap
    · rw [andThen_of_ne hok] at hr
      subst hr
      exact .inl ⟨fun h => absurd h hok, hannounced⟩
    rw [show p.notify (headEvent h payload.length offset depth) = (.ok, _) from Prod.ext hok rfl,
      andThen_ok] at hr
    obtain ⟨s, hread, hadds, htracks⟩ := emitStream_adds (p := (p.notify _).2) hcb herr hr
      (hst.imp_left And.left)
    exact .inr ⟨ht, s, hread, hannounced.trans hadds, htracks⟩
  refine .inl ⟨fun _ => ht, ?_⟩
  have hprocessed := hf.processed parse depth p
  rw [hr] at hprocessed
  cases hprocessed with
  | unanswered | skipped | checked => exact hannounced
  | stream _ ht' => exact absurd ht' ht
  | packet => exact hannounced.trans (emitPacket_adds (p := (p.notify _).2) hcb ..)
  | opened _ ht' =>
    obtain ⟨-, hne⟩ | htrunc := hst
    · exact absurd ht' hne
    · exact absurd htrunc (closeGroup_ne_truncated _ _)
  | refused _ e he => exact absurd (hst.imp_left And.left) (not_or.mpr ⟨he.1, he.2.2⟩)

end

/-- Over the records of a forest the streams of its descriptors come to the table. -/
def Grows (streams : σ → List StreamInfo) (p : Parsing σ) (f : Forest) (q : Parsing σ) : Prop :=
  p.callbacks.Collects streams →
    ∃ infos, infos.map some = f.descriptors.map (wholePayload readStream) ∧ Adds streams p infos q

theorem Grows.append {streams : σ → List StreamInfo} {p q r : Parsing σ} {f g : Forest}
    (hf : Grows streams p f q) (v : ℕ) (hg : Grows streams { q with validPrefix := v } g r) :
    Grows streams p (f.append g) r := by
  intro hcb
  obtain ⟨infos, hinfos, hadds⟩ := hf hcb
  obtain ⟨infos', hinfos', hadds'⟩ :=
    hg (show q.callbacks.Collects streams by rw [hadds.callbacks]; exact hcb)
  refine ⟨infos ++ infos', by simp [hinfos, hinfos'], hadds.trans ?_⟩
  exact ⟨hadds'.callbacks, hadds'.table, hadds'.delivered⟩

/-- **A run** adds the streams of the descriptors it goes over. -/
theorem tracked_grows (streams : σ → List StreamInfo) (data : Bytes) :
    Tracked data (Grows streams) := by
  refine ⟨fun p _ => ⟨[], rfl, .refl p⟩, fun v hf hg => hf.append v hg, ?_, ?_⟩
  · intro p q h payload offset depth parse herr hf ht hok hcb
    obtain ⟨hne, hadds⟩ | ⟨ht', s, hread, hadds, -⟩ :=
      hf.processRecord_adds hcb herr hok (.inl ⟨rfl, ht⟩)
    · exact ⟨[], by simp [Forest.descriptors, hne rfl], hadds⟩
    · exact ⟨[s], by simp [Forest.descriptors, ht', hread], hadds⟩
  · intro p q h m children offset depth _ hinner hcb
    obtain ⟨infos, hinfos, hadds⟩ := hinner hcb
    refine ⟨infos, by simpa [Forest.descriptors] using hinfos, ?_⟩
    exact (Adds.notify hcb rfl).trans hadds

/-! ### The parser -/

section

variable {streams : σ → List StreamInfo} {L : Limits} {callbacks : Callbacks σ} {user : σ}
    {allocs : Stream' Bool} {B : Bytes}
  {finish : Bool}

/-- The forest of a file is the only one. -/
theorem Forest.Fills.unique {f g : Forest} (hf : f.Fills L B) (hg : g.Fills L B)
    (hB : B.length ≤ sizeMax) : f = g := by
  have hends := hf.ends
  have hends' := hg.ends
  have hP : ∀ {place : ℕ} {h : RecordHead} {payload : Bytes}, Checked L place h payload →
      h.alignmentLog2 ≤ 4 := fun hc => hc.head.alignment
  exact hf.each.unique hP hP hf.lies hg.each hg.lies (by omega) hf.ends (Nat.le_refl _) hB
    (Nat.le_refl _)

/-- **What is known behind all the records**: no descriptor is lost if and only if the
reallocations succeed. -/
theorem Grows.noneLost_suffices_iff {f : Forest} {q : Parsing σ}
    (h : Grows streams (Parsing.start (some L) callbacks user allocs) f q)
    (hcb : callbacks.Collects streams) (hf : f.Fills L B) (hB : B.length ≤ sizeMax) :
    NoneLost L streams B (Parsing.start (some L) callbacks user allocs) q ↔
      ∀ g : Forest, g.Fills L B → Growing.Suffices 8 allocs g.descriptors.length := by
  obtain ⟨infos, hinfos, hadds⟩ := h hcb
  have hlen : f.descriptors.length = infos.length := by
    simpa using (congrArg List.length hinfos).symm
  have hall := Growing.addAll_eq_iff (f := StreamInfo.snapshot) (show 0 < 8 by simp) allocs infos
  constructor
  · rintro ⟨g, delivered, hg, hread, hheard, -⟩ g' hg'
    obtain rfl := hg.unique hf hB
    obtain rfl := hg'.unique hg hB
    rw [hlen, ← hall]
    have heq : delivered = infos := List.map_injective_iff.mpr (Option.some_injective _)
      (hread.trans hinfos.symm)
    exact (List.append_cancel_left (hadds.delivered.symm.trans hheard)).trans heq
  · intro hsuffices
    have hkept := hall.mpr (hlen ▸ hsuffices f hf)
    obtain ⟨made, hrest, hmade⟩ := Growing.addAll_allocs hkept
    have htracks := Growing.addAll_items 8 StreamInfo.snapshot ⟨[], 0, allocs⟩ infos
    have hdelivered := hadds.delivered
    have htable : q.table =
        ((⟨[], 0, allocs⟩ : Growing TrackSnapshot).addAll 8 StreamInfo.snapshot infos).2 :=
      hadds.table
    rw [← htable, hkept] at htracks
    rw [← htable] at hrest
    exact ⟨f, infos, hf, hinfos, hdelivered.trans (congrArg (streams user ++ ·) hkept), htracks,
      made, hrest, hmade⟩

/-- What the parser has done with bytes that it accepts. -/
theorem grows_of_parseTideBytes (hB : B.length ≤ sizeMax)
    (hok : (parseTideBytes B finish (some L) callbacks user allocs).1 = .ok) :
    ∃ f : Forest, f.Fills L B ∧
      Grows streams (Parsing.start (some L) callbacks user allocs) f
        (parseTideBytes B finish (some L) callbacks user allocs).2 := by
  obtain ⟨f, heach, hl, hend, hgrows⟩ := run_of_parseTideBytes (tracked_grows streams B) hB hok
  exact ⟨f, ⟨heach, hl, hend⟩, hgrows⟩

end

/-! ### Sessions -/

/-- A decoder that has come to `parse_offset`, over the records of a forest. -/
structure Grown (streams : σ → List StreamInfo) (L : Limits) (p : Parsing σ)
    (d : Decoder σ) : Prop where
  limits : d.limits = L
  bounded : d.buffer.Bounded
  error : d.error.code = .ok
  place : ∃ f : Forest, Grows streams p f d.toParsing ∧
    (d.headerValidated = false ∧ f = .nil ∨
      d.headerValidated = true ∧ d.validPrefix = d.parseOffset ∧
        d.parseOffset ≤ d.buffer.data.length ∧ f.Each (Checked L) 72 ∧
        Lies d.buffer.data 72 f.bytes ∧ 72 + f.bytes.length = d.parseOffset)

/-- A decoder that is going to fetch a descriptor again that is in the track table. -/
structure Stuck (L : Limits) (d : Decoder σ) : Prop where
  limits : d.limits = L
  bounded : d.buffer.Bounded
  error : d.error.code = .ok
  header : d.headerValidated = true
  behind : 72 ≤ d.parseOffset
  validPrefix : d.validPrefix = d.parseOffset
  known : ∃ h payload s,
    Found d.buffer.data L d.parseOffset (d.parseOffset + h.size payload.length) d.parseOffset
        h payload ∧
      d.parseOffset + h.size payload.length ≤ d.buffer.data.length ∧
        h.type = RecordType.streamDesc.code ∧
      wholePayload readStream payload = some s ∧ (findTrack d.tracks s.trackId s.generation).isSome

section

variable {streams : σ → List StreamInfo} {L : Limits} {p : Parsing σ} {d : Decoder σ}

/-- A stream that is in the table is refused. -/
theorem emitStream_known {p : Parsing σ} {payload : Bytes} {s : StreamInfo} (frame : RecordFrame)
    (hread : wholePayload readStream payload = some s)
    (hfind : (findTrack p.tracks s.trackId s.generation).isSome) :
    (emitStream p payload frame).1.Rejects := by
  unfold emitStream
  rw [hread]
  dsimp only
  split
  · exact show Status.timeline.Rejects by decide
  · rw [addTrack, if_pos hfind]
    exact show Status.format.Rejects by decide

/-- The descriptor is fetched, and the decoder waits for it again or fails. -/
theorem Stuck.parse (h : Stuck L d) {r : Status × Parsing σ}
    (hr : parseRecords d.buffer.data d.parseOffset d.buffer.data.length 0 d.toParsing = r)
    (hst : r.1 = .ok ∨ r.1 = .truncated) :
    r.1 = .truncated ∧ ∀ terminal, Stuck L { d with toParsing := r.2,
                                                    parseOffset := r.2.validPrefix, terminal :=
                                                      terminal } := by
  obtain ⟨head, payload, s, hf, hle, ht, hread, hfind⟩ := h.known
  have hframed := parseRecords_framed 0 (p := d.toParsing) (Nat.le_refl _) h.bounded.size h.behind
    (h.limits ▸ hf.head) hf.lies hle
    (hf.processRecord_stream ht)
  rw [show UInt8.ofNat 0 = 0 from rfl, hr] at hframed
  have hrejects := emitStream_known
    (p := (d.toParsing.notify (headEvent head payload.length d.parseOffset 0)).2)
    (head.frameAt d.parseOffset payload.length 0) hread hfind
  by_cases hok : (d.toParsing.notify (headEvent head payload.length d.parseOffset 0)).1 = .ok
  · -- what follows the announcement fails
    rw [show d.toParsing.notify (headEvent head payload.length d.parseOffset 0) = (.ok, _)
      from Prod.ext hok rfl, andThen_ok] at hframed
    obtain ⟨-, -, rfl⟩ | ⟨hno, -⟩ := hframed
    · exact absurd hst (not_or.mpr ⟨hrejects.1, hrejects.2.2⟩)
    · exact absurd hno hrejects.1
  · rw [andThen_of_ne hok] at hframed
    obtain ⟨hne, -, rfl⟩ | ⟨hno, -⟩ := hframed
    · refine ⟨hst.resolve_left hne, fun terminal => ?_⟩
      have hvp : d.validPrefix = d.parseOffset := h.validPrefix
      refine ⟨h.limits, h.bounded, h.error, h.header, ?_, rfl, head, payload, s, ?_⟩
      · exact hvp ▸ h.behind
      · change Found d.buffer.data L d.validPrefix (d.validPrefix + head.size payload.length)
          d.validPrefix head payload ∧ _
        rw [hvp]
        exact ⟨hf, hvp.symm ▸ hle, ht, hread, hfind⟩
    · exact absurd hno hok

/-- The records behind `parse_offset`, if they do not fail: the decoder has gone over them, or it
is stuck. -/
theorem Grown.parse (h : Grown streams L p d) (hcb : p.callbacks.Collects streams)
    (hval : d.headerValidated = true) {r : Status × Parsing σ}
    (hr : parseRecords d.buffer.data d.parseOffset d.buffer.data.length 0 d.toParsing = r)
    (hst : r.1 = .ok ∨ r.1 = .truncated) :
    (r.1 = .ok → r.2.validPrefix = d.buffer.data.length) ∧ ∀ terminal,
      Grown streams L p { d with toParsing := r.2, parseOffset := r.2.validPrefix,
                                 terminal := terminal } ∨
        r.1 = .truncated ∧ Stuck L { d with toParsing := r.2, parseOffset := r.2.validPrefix,
                                            terminal := terminal } := by
  obtain ⟨f, hgrows, ⟨hno, -⟩ | ⟨-, hvp, hle, hf, hl, hend⟩⟩ := h.place
  · rw [hval] at hno
    cases hno
  have hB := h.bounded.size
  have hlimits : r.2.limits = L := by
    rw [← h.limits, ← hr]
    exact congrArg Prod.fst (parseRecords_settings ..)
  obtain ⟨g, q, hg, hlg, hleg, hgrows', hlim, herror, hv, hends⟩ :=
    run_of_parse (tracked_grows streams d.buffer.data) h.error hle
    (Nat.le_refl _) hB (by omega) hr hst
  have hgrown := hgrows.append d.validPrefix hgrows'
  have hstop := hv hvp
  rw [h.limits, ← hend] at hg
  rw [← hend] at hlg hstop hleg hends
  have hlies : Lies d.buffer.data 72 (f.append g).bytes := by
    rw [Forest.bytes_append, lies_append_iff]
    exact ⟨hl, hlg⟩
  have hlen : 72 + (f.append g).bytes.length = q.validPrefix := by
    rw [Forest.bytes_append, List.length_append]
    omega
  have herr : q.error.code = .ok := (congrArg Error.code herror).trans h.error
  -- what is left of the state behind the records
  have hbehind : ∀ (q' : Parsing σ) (terminal : Bool), q'.limits = L → q'.error.code = .ok →
      q'.validPrefix = q.validPrefix → Grows streams p (f.append g) q' →
        Grown streams L p { d with toParsing := q', parseOffset := q'.validPrefix,
                                   terminal := terminal } := by
    intro q' terminal hlim' herr' hvp' hgrows''
    refine ⟨hlim', h.bounded, herr', f.append g, hgrows'',
      .inr ⟨hval, rfl, ?_, Forest.each_append_iff.mpr ⟨hf, hg⟩, hlies, ?_⟩⟩
    · dsimp only
      omega
    · exact hlen.trans hvp'.symm
  cases hends with
  | done hall =>
      exact ⟨fun _ => hstop.trans hall,
        fun terminal => .inl (hbehind q terminal hlimits herr rfl hgrown)⟩
  | waits =>
    refine ⟨nofun, fun terminal => .inl (hbehind _ terminal hlimits herr hstop.symm fun hcb => ?_)⟩
    obtain ⟨infos, hinfos, hadds⟩ := hgrown hcb
    exact ⟨infos, hinfos, hadds.callbacks, hadds.table, hadds.delivered⟩
  | @answered head payload r hfound hfle hproc htrunc =>
    have hcbq : q.callbacks.Collects streams := by
      obtain ⟨_, -, hadds⟩ := hgrown hcb
      rw [hadds.callbacks]
      exact hcb
    have hvpr : r.2.validPrefix = q.validPrefix :=
      hfound.validPrefix herr (hproc.trans (Prod.ext htrunc rfl))
    have herr' : r.2.error.code = .ok := by
      obtain ⟨ds, hvisits⟩ := parseRecords_visits 0 d.toParsing h.error hle (Nat.le_refl _) hB
      rw [show UInt8.ofNat 0 = 0 from rfl, hr] at hvisits
      exact (congrArg Error.code (hvisits.error hst)).trans h.error
    refine ⟨fun hok => absurd (hok.symm.trans htrunc) (by simp), fun terminal => ?_⟩
    obtain ⟨-, hadds⟩ | ⟨ht, s, hread, hadds, hknown⟩ :=
      hfound.processRecord_adds hcbq herr hproc (.inr htrunc)
    · refine .inl (hbehind r.2 terminal hlimits herr' hvpr ?_)
      have hnone : Grows streams { q with validPrefix := q.validPrefix } .nil r.2 :=
        fun _ => ⟨[], rfl, hadds⟩
      simpa using hgrown.append q.validPrefix hnone
    · have hplace : r.2.validPrefix = 72 + f.bytes.length + g.bytes.length := hvpr.trans hstop
      have hlimq : q.limits = L := hlim.trans h.limits
      refine .inr ⟨htrunc, hlimits, h.bounded, herr', hval, ?_, rfl, head, payload, s, ?_, ?_, ht,
        hread, hknown htrunc⟩
      · dsimp only
        omega
      · dsimp only
        rw [hplace, ← hlimq]
        exact hfound
      · dsimp only
        omega

/-- A decoder that has grown does so with more bytes in its buffer. -/
theorem Grown.extend (h : Grown streams L p d) {b : Buffer} (hb : b.Bounded)
    (hpre : d.buffer.data <+: b.data) :
    Grown streams L p { d with buffer := b } := by
  refine ⟨h.limits, hb, h.error, ?_⟩
  obtain ⟨f, hgrows, hno | ⟨hval, hvp, hle, hf, hl, hend⟩⟩ := h.place
  · exact ⟨f, hgrows, .inl hno⟩
  · refine ⟨f, hgrows, .inr ⟨hval, hvp, hle.trans hpre.length_le, hf,
      hl.congr (e := d.parseOffset) (take_eq_of_isPrefix hpre hle) (by omega), hend⟩⟩

theorem Stuck.extend (h : Stuck L d) {b : Buffer} (hb : b.Bounded)
    (hpre : d.buffer.data <+: b.data) :
    Stuck L { d with buffer := b } := by
  obtain ⟨head, payload, s, hf, hle, hrest⟩ := h.known
  refine ⟨h.limits, hb, h.error, h.header, h.behind, h.validPrefix, head, payload, s, ?_,
    hle.trans hpre.length_le, hrest⟩
  exact ⟨hf.lo_le, hf.le_hi, hf.head, hf.lies.congr (take_eq_of_isPrefix hpre hle)
    (by rw [head.length_bytes])⟩

/-- A decoder behind the header. -/
theorem Grown.acceptHeader (h : Grown streams L p d) {d' : Decoder σ}
    (hd : d.acceptHeader = .ok d') :
    Grown streams L p d' ∧ d'.headerValidated = true := by
  unfold Decoder.acceptHeader at hd
  by_cases hval : d.headerValidated = true
  · rw [if_pos hval] at hd
    cases hd
    exact ⟨h, hval⟩
  rw [if_neg hval] at hd
  cases hv : validateHeader d.buffer.data d.limits with
  | error e =>
    rw [hv] at hd
    cases hd
  | ok u =>
    rw [hv] at hd
    cases hd
    obtain ⟨f, hgrows, ⟨-, rfl⟩ | ⟨hyes, -⟩⟩ := h.place
    swap
    · exact absurd hyes hval
    refine ⟨⟨h.limits, h.bounded, h.error, .nil, fun hcb => ?_,
      .inr ⟨rfl, rfl, length_of_validateHeader hv, trivial, rfl, rfl⟩⟩, rfl⟩
    obtain ⟨infos, hinfos, hadds⟩ := hgrows hcb
    exact ⟨infos, hinfos, hadds.callbacks, hadds.table, hadds.delivered⟩

/-- **A session that can still end with `OK`**, and one that cannot. -/
def Feeding (streams : σ → List StreamInfo) (L : Limits) (p : Parsing σ) (d : Decoder σ) : Prop :=
  Grown streams L p d ∨ Stuck L d ∨ d.terminal = true

/-- **A feed** keeps the session going, and if it is the last and is answered with `OK`, then the
decoder has gone over all that is in the buffer. -/
theorem Feeding.feed (h : Feeding streams L p d) (hcb : p.callbacks.Collects streams)
    (piece : Piece) :
    Feeding streams L p (d.feed piece).2 ∧ (piece.finish = true → (d.feed piece).1 = .ok →
      (d.feed piece).2.buffer.data.length ≤ sizeMax ∧
        ∃ f : Forest, f.Fills L (d.feed piece).2.buffer.data ∧
          Grows streams p f (d.feed piece).2.toParsing) := by
  -- a decoder that takes no records stays as it is
  have hextend : d.buffer.data <+: (bufferAppend d.buffer piece.data).2.data →
      Feeding streams L p { d with buffer := (bufferAppend d.buffer piece.data).2 } := fun hpre =>
    h.imp (fun h => h.extend (bufferAppend_bounded h.bounded _) hpre) fun h =>
      h.imp_left fun h => h.extend (bufferAppend_bounded h.bounded _) hpre
  have hcase := feed_case d piece
  generalize d.feed piece = r at hcase ⊢
  by_cases hok : r.1 = .ok
  swap
  · refine ⟨?_, fun _ hok' => absurd hok' hok⟩
    cases hcase with
    | closed => exact h
    | full _ hdata => exact hextend (hdata ▸ List.prefix_rfl)
    | headerRefused | headerRefusedLast | refused | cut => exact .inr (.inr rfl)
    | short | parsed => exact absurd rfl hok
  obtain ⟨hlive, hdata, ⟨hmore, rfl⟩ | ⟨d', r, hd, hr, hst, rfl⟩⟩ := hcase.of_ok hok
  · exact ⟨hextend (hdata ▸ List.prefix_append ..), fun hlast => by simp [hmore] at hlast⟩
  have hplace : ∀ {n : ℕ}, (r.1 = .ok → r.2.validPrefix = n) →
      (if r.1 = .ok then n else r.2.validPrefix) = r.2.validPrefix := by
    intro n hend
    split
    · exact (hend ‹_›).symm
    · rfl
  obtain hgrown | hstuck | hterm := hextend (hdata ▸ List.prefix_append ..)
  · obtain ⟨hgrown, hval⟩ := hgrown.acceptHeader hd
    obtain ⟨hend, hafter⟩ := hgrown.parse hcb hval hr (hst.imp_right And.left)
    rw [hplace hend]
    refine ⟨(hafter piece.finish).imp_right fun ⟨_, hstuck⟩ => .inl hstuck, fun hlast _ => ?_⟩
    have hok := hst.resolve_right (by simp [hlast])
    obtain hgrown' | ⟨htrunc, -⟩ := hafter piece.finish
    · obtain ⟨f, hgrows, ⟨hno, -⟩ | ⟨-, -, -, hf, hl, hends⟩⟩ := hgrown'.place
      · exact absurd (hno.symm.trans hval) (by simp)
      · exact ⟨hgrown'.bounded.size, f, ⟨hf, hl, hends.trans (hend hok)⟩, hgrows⟩
    · exact absurd (hok.symm.trans htrunc) (by simp)
  · have hd' : d' = { d with buffer := (bufferAppend d.buffer piece.data).2 } := by
      rw [Decoder.acceptHeader, if_pos hstuck.header] at hd
      exact (Except.ok.inj hd).symm
    obtain ⟨htrunc, hafter⟩ := (hd' ▸ hstuck).parse hr (hst.imp_right And.left)
    have hne : ¬ r.1 = .ok := by simp [htrunc]
    rw [if_neg hne]
    exact ⟨.inr (.inl (hafter _)), fun hlast _ => absurd hst (by simp [htrunc, hlast])⟩
  · exact absurd (hlive.symm.trans hterm) (by simp)

theorem Feeding.feeds (h : Feeding streams L p d) (hcb : p.callbacks.Collects streams)
    (pieces : List Piece) :
    Feeding streams L p (d.feeds pieces) := by
  induction pieces generalizing d with
  | nil => exact h
  | cons piece pieces ih => exact ih (h.feed hcb piece).1

/-- What a feed that is answered with `OK` has taken in. -/
theorem Decoder.feed_data {piece : Piece} (hok : (d.feed piece).1 = .ok) :
    (d.feed piece).2.buffer.data = d.buffer.data ++ piece.data := by
  obtain ⟨-, hdata, ⟨-, hfeed⟩ | ⟨d', r, hd, -, -, hfeed⟩⟩ := (feed_case d piece).of_ok hok
  · rw [hfeed, hdata]
  · rw [hfeed, ← hdata]
    exact congrArg Buffer.data (Decoder.acceptHeader_buffer hd)

theorem Decoder.feeds_data {pieces : List Piece}
    (hok : ∀ status ∈ (answers Decoder.feed d pieces).1, status = .ok) :
    (d.feeds pieces).buffer.data = d.buffer.data ++ (pieces.map Piece.data).flatten := by
  induction pieces generalizing d with
  | nil => simp [Decoder.feeds, answers]
  | cons piece pieces ih =>
    rw [answers] at hok
    have hrest := ih (d := (d.feed piece).2) fun status hmem =>
      hok status (List.mem_cons_of_mem _ hmem)
    rw [Decoder.feed_data (hok _ List.mem_cons_self), List.append_assoc] at hrest
    exact hrest

end

/-- **When no descriptor is lost**, for any client and any outcomes of the reallocations: of bytes
that `tide_parse_tide_bytes` accepts, or that a session has taken in whose last feed is
answered with `OK`, none is lost if and only if those reallocations of the track table
succeed that as many descriptors need. -/
theorem noneLost_iff (L : Limits) {callbacks : Callbacks σ} {streams : σ → List StreamInfo}
    (hcb : callbacks.Collects streams) (user : σ) (allocs : Stream' Bool) :
    (∀ (B : Bytes) (finish : Bool), B.length ≤ sizeMax →
      let r := parseTideBytes B finish (some L) callbacks user allocs
      r.1 = .ok → (NoneLost L streams B (Parsing.start (some L) callbacks user allocs) r.2 ↔
        ∀ f : Forest, f.Fills L B → Growing.Suffices 8 allocs f.descriptors.length)) ∧
    ∀ (bufferAllocs : Stream' Bool) (pieces : List Piece) (last : Bytes),
      let d := decoderInit (some L) callbacks user allocs bufferAllocs
      let r := (d.feeds pieces).feed ⟨last, true⟩
      let B := r.2.buffer.data
      r.1 = .ok → ((∀ status ∈ (answers Decoder.feed d pieces).1, status = .ok) →
        B = (pieces.map Piece.data).flatten ++ last) ∧
        (NoneLost L streams B d.toParsing r.2.toParsing ↔
          ∀ f : Forest, f.Fills L B → Growing.Suffices 8 allocs f.descriptors.length) := by
  constructor
  · intro B finish hB r hok
    obtain ⟨f, hf, hgrows⟩ := grows_of_parseTideBytes hB hok
    exact hgrows.noneLost_suffices_iff hcb hf hB
  · intro bufferAllocs pieces last d r B hok
    have hstart : Feeding streams L d.toParsing d :=
      .inl ⟨rfl, Buffer.bounded_empty .., rfl, .nil, (tracked_grows streams []).nil _,
        .inl ⟨rfl, rfl⟩⟩
    obtain ⟨hfeeding, hends⟩ := (hstart.feeds hcb pieces).feed hcb ⟨last, true⟩
    obtain ⟨hB, f, hf, hgrows⟩ := hends rfl hok
    refine ⟨fun hall => ?_, hgrows.noneLost_suffices_iff hcb hf hB⟩
    have hdata := Decoder.feed_data hok
    rw [Decoder.feeds_data hall] at hdata
    exact hdata

theorem recorder_collects : recorder.Collects streamsOf := by
  intro user event
  cases event <;> exact streamsOf_append ..

/-- With memory, the sample file is kept, from the parser and from a session of two pieces. -/
theorem sampleFile_noneLost :
    NoneLost limitsDefault streamsOf sampleFile (Parsing.start (some limitsDefault) recorder []
      (Stream'.const true))
        (parseTideBytes sampleFile true (some limitsDefault) recorder [] (Stream'.const true)).2 ∧
      let d :=
        decoderInit (some limitsDefault) recorder [] (Stream'.const true) (Stream'.const true)
      NoneLost limitsDefault streamsOf
        (((d.feeds [⟨sampleFile.take 100, false⟩]).feed ⟨sampleFile.drop 100, true⟩).2.buffer.data)
        d.toParsing ((d.feeds [⟨sampleFile.take 100, false⟩]).feed ⟨sampleFile.drop 100,
          true⟩).2.toParsing := by
  have hall : ∀ n, Growing.Suffices 8 (Stream'.const true) n := fun _ _ _ => rfl
  obtain ⟨hparse, hsession⟩ := noneLost_iff limitsDefault recorder_collects [] (Stream'.const true)
  have hok := (hparse sampleFile true (by decide +kernel) (by decide +kernel)).mpr fun _ _ => hall _
  exact ⟨hok, ((hsession (Stream'.const true) [⟨sampleFile.take 100, false⟩] (sampleFile.drop 100)
    (by decide +kernel)).2).mpr
    fun _ _ => hall _⟩

/-- A descriptor. -/
def loneHead : RecordHead := ⟨RecordType.streamDesc.code, 0, 3, 0, 1⟩

def lonePayload : Bytes := streamFixed ⟨1, 0, 2, 7, ⟨1, 1000⟩, []⟩ ++ [2, 0xca, 0xfe]

/-- A file of one descriptor. -/
def loneFile : Bytes := sampleHeader.bytes ++ loneHead.bytes lonePayload

/-- Without memory, the file is accepted, and nothing is delivered. -/
theorem loneFile_lost :
    ¬ ∀ (B : Bytes) (allocs : Stream' Bool),
      (parseTideBytes B true (some limitsDefault) recorder [] allocs).1 = .ok →
      NoneLost limitsDefault streamsOf B (Parsing.start (some limitsDefault) recorder [] allocs)
        (parseTideBytes B true (some limitsDefault) recorder [] allocs).2 := by
  intro h
  obtain ⟨f, delivered, hf, hread, hheard, -⟩ :=
    h loneFile (Stream'.const false) (by decide +kernel)
  have hnothing : streamsOf (parseTideBytes loneFile true (some limitsDefault) recorder []
      (Stream'.const false)).2.user = [] := by
    decide +kernel
  have hframed : Framed loneFile loneFile.length 72 loneHead lonePayload := by decide +kernel
  rw [hnothing] at hheard
  obtain rfl : delivered = [] := (List.append_eq_nil_iff.mp hheard.symm).2
  obtain ⟨next, rfl⟩ | ⟨m, children, next, rfl, -⟩ :=
    hf.each.begins (fun hc => hc.head.alignment) hf.lies hf.ends (Nat.le_refl _)
    (by decide +kernel) (Nat.le_refl _) hframed
  · cases hread
  · cases hf.each.1

end Tide
