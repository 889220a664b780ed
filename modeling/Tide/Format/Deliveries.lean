import Tide.Format.Grammar

/-!
# What is delivered, whatever the callbacks return

The loop over records with any callbacks and any outcomes of the allocations. What it
delivers is described by a list of `Delivery`s, each with the record it comes from and
the number of groups around that record. `Heard` says which lists can come from a range
of the bytes: the records lie there one behind the other, each within the limits and
closed by its checksum, a stream or a packet comes right behind the announcement of its
own record, and the track table grows by the streams.

`parseRecords_visits` says that every run of the loop delivers such a list, and that it
ends at the first callback that does not return `OK`.
-/

namespace Tide

open Theory

variable {σ : Type}

/-- An event that is delivered, the record it comes from, and the number of groups around
the record. -/
structure Delivery where
  level : ℕ
  offset : ℕ
  head : RecordHead
  payload : Bytes
  event : Event

/-- The announcement of a record. -/
def announcement (level offset : ℕ) (h : RecordHead) (payload : Bytes) : Delivery :=
  ⟨level, offset, h, payload, headEvent h payload.length offset level⟩

/-- A record within the limits that lies at `offset`, in a range. -/
structure Found (data : Bytes) (limits : Limits) (lo hi offset : ℕ) (h : RecordHead)
    (payload : Bytes) : Prop where
  lo_le : lo ≤ offset
  le_hi : offset + h.size payload.length ≤ hi
  head : HeadOk limits h payload.length
  lies : Lies data offset (h.bytes payload)

/-- **What can be delivered from a range** at a level, and the track table before and after. A
record may be announced and no more; a descriptor and a packet are delivered behind
their announcement, and the children of a group behind its own. -/
inductive Heard (data : Bytes) (limits : Limits) :
    (level lo hi : ℕ) → List TrackSnapshot → List Delivery → List TrackSnapshot → Prop where
  | nil {level lo hi : ℕ} {ts : List TrackSnapshot} : Heard data limits level lo hi ts [] ts
  | record {level lo hi offset : ℕ} {h : RecordHead} {payload : Bytes} {ts ts' : List TrackSnapshot}
      {ds : List Delivery}
      (hf : Found data limits lo hi offset h payload)
      (hrest : Heard data limits level (offset + h.size payload.length) hi ts ds ts') :
      Heard data limits level lo hi ts (announcement level offset h payload :: ds) ts'
  | stream {level lo hi offset : ℕ} {h : RecordHead} {payload : Bytes} {ts ts' : List TrackSnapshot}
      {ds : List Delivery}
      {s : StreamInfo} (hf : Found data limits lo hi offset h payload) (ht : h.type =
        RecordType.streamDesc.code)
      (hread : wholePayload readStream payload = some s) (hok : StreamOk limits ts s)
      (hrest : Heard data limits level (offset + h.size payload.length) hi
        (ts ++ [s.snapshot]) ds ts') :
      Heard data limits level lo hi ts (announcement level offset h payload :: ⟨level, offset, h,
        payload, .stream s⟩ :: ds) ts'
  | packet {level lo hi offset : ℕ} {h : RecordHead} {payload : Bytes} {ts ts' : List TrackSnapshot}
      {ds : List Delivery}
      {k : PacketInfo} (hf : Found data limits lo hi offset h payload) (ht : h.type =
        RecordType.packet.code)
      (hread : wholePayload readPacket payload = some k) (hok : PacketOk ts k)
      (hrest : Heard data limits level (offset + h.size payload.length) hi ts ds ts') :
      Heard data limits level lo hi ts (announcement level offset h payload :: ⟨level, offset, h,
        payload, .packet k⟩ :: ds) ts'
  | group {level lo hi offset : ℕ} {h : RecordHead} {payload : Bytes}
      {ts ts₁ ts' : List TrackSnapshot} {dc ds : List Delivery}
      (hf : Found data limits lo hi offset h payload) (ht : h.type = RecordType.group.code)
        (hadm : admits limits level)
      (hchildren : Heard data limits (level + 1) (offset + h.headerSize payload.length + 20)
        (offset + h.headerSize payload.length + payload.length) ts dc ts₁)
      (hrest : Heard data limits level (offset + h.size payload.length) hi ts₁ ds ts') :
      Heard data limits level lo hi ts (announcement level offset h payload :: (dc ++ ds)) ts'

namespace Found

variable {data data' : Bytes} {limits : Limits} {lo lo' hi hi' offset : ℕ} {h : RecordHead}
    {payload : Bytes}

theorem widen (hf : Found data limits lo hi offset h payload) (hlo : lo' ≤ lo) (hhi : hi ≤ hi') :
    Found data limits lo' hi' offset h payload :=
  ⟨hlo.trans hf.lo_le, hf.le_hi.trans hhi, hf.head, hf.lies⟩

/-- A record lies where it does whatever the bytes behind the range. -/
theorem congr (hf : Found data limits lo hi offset h payload) (hd : data.take hi = data'.take hi) :
    Found data' limits lo hi offset h payload :=
  ⟨hf.lo_le, hf.le_hi, hf.head, hf.lies.congr hd (by rw [h.length_bytes]; exact hf.le_hi)⟩

theorem payload_le (hf : Found data limits lo hi offset h payload) : payload.length ≤ sizeMax := by
  have hle := hf.head.payload
  have hlt := limits.maxPayloadSize.toNat_lt
  unfold sizeMax
  omega

/-- The ways of `tide_process_record` with the record. -/
theorem processed (hf : Found data limits lo hi offset h payload) (parse : ParseRecords σ)
    (level : ℕ) (p : Parsing σ) :
    Processed parse data payload (h.frameAt offset payload.length (UInt8.ofNat level)) p
      (processRecord parse data (h.frameAt offset payload.length (UInt8.ofNat level)) p) := by
  refine processRecord_processed parse p ((slice_frameAt ..).trans (h.lies_payload hf.lies))
    ?_ hf.payload_le
  simp only [RecordHead.frameAt, Nat.add_sub_cancel_left]

/-- The children of a group lie within it. -/
theorem children_le (hf : Found data limits lo hi offset h payload) :
    offset + h.headerSize payload.length + payload.length ≤ hi := by
  have hle := hf.le_hi
  have hpad := h.le_paddedSize payload.length
  unfold RecordHead.size at hle
  omega

end Found

namespace Heard

variable {data data' : Bytes} {limits : Limits} {level lo lo' mid hi : ℕ}
    {ts ts₁ ts' : List TrackSnapshot} {ds ds' : List Delivery}

/-- A range may begin earlier. -/
theorem widen (h : Heard data limits level lo hi ts ds ts') (hlo : lo' ≤ lo) :
    Heard data limits level lo' hi ts ds ts' := by
  cases h with
  | nil => exact .nil
  | record hf hrest => exact .record (hf.widen hlo (Nat.le_refl _)) hrest
  | stream hf ht hread hok hrest => exact .stream (hf.widen hlo (Nat.le_refl _)) ht hread hok hrest
  | packet hf ht hread hok hrest => exact .packet (hf.widen hlo (Nat.le_refl _)) ht hread hok hrest
  | group hf ht hadm hchildren hrest =>
      exact .group (hf.widen hlo (Nat.le_refl _)) ht hadm hchildren hrest

/-- A range may end later. -/
theorem extend {hi' : ℕ} (h : Heard data limits level lo hi ts ds ts') (hhi : hi ≤ hi') :
    Heard data limits level lo hi' ts ds ts' := by
  induction h with
  | nil => exact .nil
  | record hf _ ih => exact .record (hf.widen (Nat.le_refl _) hhi) (ih hhi)
  | stream hf ht hread hok _ ih =>
      exact .stream (hf.widen (Nat.le_refl _) hhi) ht hread hok (ih hhi)
  | packet hf ht hread hok _ ih =>
      exact .packet (hf.widen (Nat.le_refl _) hhi) ht hread hok (ih hhi)
  | group hf ht hadm hchildren _ _ ih =>
      exact .group (hf.widen (Nat.le_refl _) hhi) ht hadm hchildren (ih hhi)

/-- What is delivered from a range and then from the one behind it. -/
theorem append (h : Heard data limits level lo mid ts ds ts₁) (hlo : lo ≤ mid) (hhi : mid ≤ hi)
    (h' : Heard data limits level mid hi ts₁ ds' ts') :
    Heard data limits level lo hi ts (ds ++ ds') ts' := by
  induction h generalizing ds' ts' with
  | nil => exact h'.widen hlo
  | record hf _ ih => exact .record (hf.widen (Nat.le_refl _) hhi) (ih hf.le_hi hhi h')
  | stream hf ht hread hok _ ih =>
      exact .stream (hf.widen (Nat.le_refl _) hhi) ht hread hok (ih hf.le_hi hhi h')
  | packet hf ht hread hok _ ih =>
      exact .packet (hf.widen (Nat.le_refl _) hhi) ht hread hok (ih hf.le_hi hhi h')
  | group hf ht hadm hchildren _ _ ih =>
    rw [List.cons_append, List.append_assoc]
    exact .group (hf.widen (Nat.le_refl _) hhi) ht hadm hchildren (ih hf.le_hi hhi h')

/-- What is delivered depends on the bytes of the range. -/
theorem congr (h : Heard data limits level lo hi ts ds ts') (hd : data.take hi = data'.take hi) :
    Heard data' limits level lo hi ts ds ts' := by
  induction h with
  | nil => exact .nil
  | record hf _ ih => exact .record (hf.congr hd) (ih hd)
  | stream hf ht hread hok _ ih => exact .stream (hf.congr hd) ht hread hok (ih hd)
  | packet hf ht hread hok _ ih => exact .packet (hf.congr hd) ht hread hok (ih hd)
  | group hf ht hadm _ _ ihc ih =>
    exact .group (hf.congr hd) ht hadm (ihc (take_congr hd hf.children_le)) (ih hd)

/-- The records are at the level of the range or deeper. -/
theorem level_le (h : Heard data limits level lo hi ts ds ts') : ∀ d ∈ ds, level ≤ d.level := by
  induction h with
  | nil => simp
  | record _ _ ih => simpa [announcement] using ih
  | stream _ _ _ _ _ ih | packet _ _ _ _ _ ih => simpa [announcement] using ih
  | group _ _ _ _ _ ihc ih =>
    intro d hd
    rcases List.mem_cons.mp hd with rfl | hd
    · exact Nat.le_refl _
    rcases List.mem_append.mp hd with hd | hd
    · exact Nat.le_of_succ_le (ihc d hd)
    · exact ih d hd

end Heard

/-! ### How the callbacks answered -/

/-- Every event is answered with `OK`. -/
def Callbacks.AllOk (callbacks : Callbacks σ) : σ → List Event → Prop
  | _, [] => True
  | user, event :: events =>
      (callbacks.call user event).1 = .ok ∧ callbacks.AllOk (callbacks.call user event).2 events

theorem Callbacks.allOk_append_iff (callbacks : Callbacks σ) (user : σ)
    (events events' : List Event) :
    callbacks.AllOk user (events ++ events') ↔
      callbacks.AllOk user events ∧ callbacks.AllOk (callbacks.deliver user events) events' := by
  induction events generalizing user with
  | nil => simp [AllOk, deliver]
  | cons event events ih =>
    rw [List.cons_append, AllOk, AllOk, ih, and_assoc]
    rfl

theorem Callbacks.deliver_append (callbacks : Callbacks σ) (user : σ)
    (events events' : List Event) :
    callbacks.deliver user (events ++ events') = callbacks.deliver (callbacks.deliver user events)
      events' :=
  List.foldl_append ..

/-- The last event is not answered with `OK`, and the ones before are. The status that comes of
it is not `OK` either: it is the callback's own, unless the record is in a group, where it
is not `TRUNCATED`. -/
def Broken (callbacks : Callbacks σ) (user : σ) (level : ℕ) (ds : List Delivery)
    (status : Status) : Prop :=
  ∃ before last, ds = before ++ [last] ∧ callbacks.AllOk user (before.map Delivery.event) ∧
    (callbacks.call (callbacks.deliver user (before.map Delivery.event)) last.event).1 ≠ .ok ∧
      status ≠ .ok ∧
    (last.level = level →
      status = (callbacks.call (callbacks.deliver user (before.map Delivery.event)) last.event).1) ∧
    (last.level ≠ level → status ≠ .truncated)

/-- What a run from `p` to the result `r` has delivered from a range. If every callback
returned `OK`, the status is `TRUNCATED` only when the run waits for more. -/
structure Visits (data : Bytes) (level lo hi : ℕ) (p : Parsing σ) (r : Status × Parsing σ)
    (ds : List Delivery) (waits : Prop) : Prop where
  heard : Heard data p.limits level lo hi p.tracks ds r.2.tracks
  limits : r.2.limits = p.limits
  callbacks : r.2.callbacks = p.callbacks
  user : r.2.user = p.callbacks.deliver p.user (ds.map Delivery.event)
  error : r.1 = .ok ∨ r.1 = .truncated → r.2.error = p.error
  answered : p.callbacks.AllOk p.user (ds.map Delivery.event) ∧ (r.1 = .truncated → waits) ∨
    Broken p.callbacks p.user level ds r.1

namespace Visits

variable {data : Bytes} {level lo mid hi : ℕ} {p p₁ : Parsing σ} {r r₁ : Status × Parsing σ}
    {ds ds' : List Delivery}
  {waits waits' : Prop}

/-- A run that returns `OK` was answered so. -/
theorem allOk (h : Visits data level lo hi p r ds waits) (hok : r.1 = .ok) :
    p.callbacks.AllOk p.user (ds.map Delivery.event) ∧ r.2.error = p.error := by
  rcases h.answered with ⟨hall, -⟩ | ⟨_, _, _, _, _, hne, _⟩
  · exact ⟨hall, h.error (.inl hok)⟩
  · exact absurd hok hne

/-- A range may end later. -/
theorem extend {hi' : ℕ} (h : Visits data level lo hi p r ds waits) (hhi : hi ≤ hi') :
    Visits data level lo hi' p r ds waits :=
  ⟨h.heard.extend hhi, h.limits, h.callbacks, h.user, h.error, h.answered⟩

/-- A run that returned `OK`, and then one over the range behind it. -/
theorem append (h : Visits data level lo mid p r₁ ds waits) (hok : r₁.1 = .ok) (hlo : lo ≤ mid)
    (hhi : mid ≤ hi) (hp₁ : p₁ = { r₁.2 with validPrefix := p₁.validPrefix })
    (h' : Visits data level mid hi p₁ r ds' waits') :
    Visits data level lo hi p r (ds ++ ds') waits' := by
  obtain ⟨hall, herr⟩ := h.allOk hok
  have hlimits : p₁.limits = p.limits := by rw [hp₁]; exact h.limits
  have hcb : p₁.callbacks = p.callbacks := by rw [hp₁]; exact h.callbacks
  have huser : p₁.user = p.callbacks.deliver p.user (ds.map Delivery.event) := by
    rw [hp₁]; exact h.user
  have htracks : p₁.tracks = r₁.2.tracks := by rw [hp₁]
  have herr₁ : p₁.error = p.error := by rw [hp₁]; exact herr
  refine ⟨h.heard.append hlo hhi ?_, h'.limits.trans hlimits, h'.callbacks.trans hcb, ?_,
    fun hst => (h'.error hst).trans herr₁, ?_⟩
  · rw [← htracks, ← hlimits]
    exact h'.heard
  · rw [h'.user, hcb, huser, List.map_append, Callbacks.deliver_append]
  · have hans := h'.answered
    rw [hcb, huser] at hans
    rcases hans with ⟨hall', hrest⟩ | ⟨before, last, rfl, hbefore, hlast, hst, heq, hne⟩
    · left
      rw [List.map_append, Callbacks.allOk_append_iff]
      exact ⟨⟨hall, hall'⟩, hrest⟩
    · right
      rw [← Callbacks.deliver_append, ← List.map_append] at hlast heq
      refine ⟨ds ++ before, last, by rw [List.append_assoc], ?_, hlast, hst, heq, hne⟩
      rw [List.map_append, Callbacks.allOk_append_iff]
      exact ⟨hall, hbefore⟩

end Visits

/-! ### What comes behind an announcement -/

/-- The client, the table and the valid prefix are as they were. -/
structure Parsing.Keeps (p p' : Parsing σ) : Prop where
  limits : p'.limits = p.limits
  callbacks : p'.callbacks = p.callbacks
  user : p'.user = p.user
  tracks : p'.tracks = p.tracks
  validPrefix : p'.validPrefix = p.validPrefix

/-- What processing a record that is not a group does behind the announcement: it delivers
nothing, or the stream, or the packet. -/
inductive Sequel (p : Parsing σ) (h : RecordHead) (payload : Bytes)
    (r : Status × Parsing σ) : Prop where
  | none (hkeeps : p.Keeps r.2) (hst : r.1 ≠ .truncated) (herr : r.1 = .ok → r.2.error = p.error)
  | stream (s : StreamInfo) (q : Parsing σ) (ht : h.type = RecordType.streamDesc.code)
      (hread : wholePayload readStream payload = some s) (hok : StreamOk p.limits p.tracks s)
      (hkeeps : { p with tracks := p.tracks ++ [s.snapshot] }.Keeps q) (herr : q.error = p.error)
        (hr : r = q.notify (.stream s))
  | packet (k : PacketInfo) (ht : h.type = RecordType.packet.code)
      (hread : wholePayload readPacket payload = some k)
      (hok : PacketOk p.tracks k) (hr : r = p.notify (.packet k))

theorem Parsing.keeps_fail (p : Parsing σ) (e : Error) : p.Keeps (p.fail e).2 :=
  ⟨rfl, rfl, rfl, rfl, rfl⟩

/-- A refusal delivers nothing. -/
theorem sequel_fail {p : Parsing σ} {h : RecordHead} {payload : Bytes} {e : Error}
    (he : e.code.Rejects) : Sequel p h payload (p.fail e) :=
  .none (p.keeps_fail e) he.2.2 fun hok => absurd hok he.1

/-- Adding a track: it is refused, or added, or, with no memory, left out without an error. -/
theorem addTrack_outcome (p : Parsing σ) (s : StreamInfo) (offset : ℕ) :
    (∃ e, e.code.Rejects ∧ addTrack p s offset = p.fail e) ∨
      (findTrack p.tracks s.trackId s.generation = none ∧
        p.tracks.length < p.limits.maxTracks.toNat ∧
        ∃ q, { p with tracks := p.tracks ++ [s.snapshot] }.Keeps q ∧ q.error = p.error ∧
          addTrack p s offset = (.ok, q)) ∨
      ∃ q, p.Keeps q ∧ q.error = p.error ∧ addTrack p s offset = (.resource, q) := by
  unfold addTrack
  by_cases hfind : findTrack p.tracks s.trackId s.generation = none
  swap
  · rw [if_pos (Option.isSome_iff_ne_none.mpr hfind)]
    exact .inl ⟨_, show Status.format.Rejects by decide, rfl⟩
  rw [if_neg (by rw [hfind]; simp)]
  by_cases hroom : p.tracks.length ≥ p.limits.maxTracks.toNat
  · rw [if_pos hroom]
    exact .inl ⟨_, show Status.resource.Rejects by decide, rfl⟩
  rw [if_neg hroom]
  refine .inr ?_
  by_cases hcap : p.tracks.length = p.trackCapacity
  swap
  · rw [if_neg hcap]
    exact .inl ⟨hfind, by omega, _, ⟨rfl, rfl, rfl, rfl, rfl⟩, rfl, rfl⟩
  rw [if_pos hcap]
  by_cases halloc : p.allocs.head = true
  · rw [if_pos halloc]
    refine .inl ⟨hfind, by omega, _, ?_, ?_, rfl⟩
    · exact ⟨rfl, rfl, rfl, rfl, rfl⟩
    · rfl
  · rw [if_neg halloc]
    refine .inr ⟨_, ?_, ?_, rfl⟩
    · exact ⟨rfl, rfl, rfl, rfl, rfl⟩
    · rfl

/-- What `tide_emit_stream` makes of the result of adding the track. -/
def closeTrack (s : StreamInfo) (r : Status × Parsing σ) : Status × Parsing σ :=
  match r with
  | (.ok, p) => p.notify (.stream s)
  | (_, p) => (p.error.code, p)

theorem closeTrack_of_ne {r : Status × Parsing σ} (h : r.1 ≠ .ok) (s : StreamInfo) :
    closeTrack s r = (r.2.error.code, r.2) := by
  rcases r with ⟨st, q⟩
  cases st <;> first | exact absurd rfl h | rfl

/-- **What `tide_emit_stream` does** with any callbacks: when the table cannot be reallocated,
no error is set, so that the status it returns is the `OK` of an error that is clear. -/
theorem emitStream_sequel {p : Parsing σ} (herr : p.error.code = .ok) {h : RecordHead}
    (ht : h.type = RecordType.streamDesc.code) (payload : Bytes) (frame : RecordFrame) :
    Sequel p h payload (emitStream p payload frame) := by
  unfold emitStream
  cases hread : wholePayload readStream payload with
  | none => exact sequel_fail (show Status.format.Rejects by decide)
  | some s =>
    dsimp only
    by_cases htb : rationalIsValid s.timeBase = true
    swap
    · rw [if_pos (by simpa using htb)]
      exact sequel_fail (show Status.timeline.Rejects by decide)
    rw [if_neg (by simpa using htb)]
    change Sequel p h payload (closeTrack s (addTrack p s frame.offset))
    obtain ⟨e, he, hadd⟩ | ⟨hfind, hroom, q, hkeeps, hq, hadd⟩ | ⟨q, hkeeps, hq, hadd⟩ :=
      addTrack_outcome p s frame.offset
    · rw [hadd, closeTrack_of_ne he.1]
      exact sequel_fail he
    · rw [hadd]
      exact .stream s q ht hread ⟨htb, hfind, hroom⟩ hkeeps hq rfl
    · rw [hadd, closeTrack_of_ne (by simp)]
      refine .none hkeeps ?_ fun _ => hq
      change q.error.code ≠ .truncated
      rw [hq, herr]
      decide

/-- **What `tide_emit_packet` does** with any callbacks. -/
theorem emitPacket_sequel (p : Parsing σ) {h : RecordHead} (ht : h.type = RecordType.packet.code)
    (payload : Bytes) (frame : RecordFrame) : Sequel p h payload (emitPacket p payload frame) := by
  unfold emitPacket
  cases hread : wholePayload readPacket payload with
  | none => exact sequel_fail (show Status.format.Rejects by decide)
  | some k =>
    dsimp only
    by_cases hdur : k.duration < 0
    · rw [if_pos hdur]
      exact sequel_fail (show Status.timeline.Rejects by decide)
    rw [if_neg hdur]
    by_cases hfind : (findTrack p.tracks k.trackId k.generation).isSome
    · rw [if_neg
        (by rw [Option.isNone_iff_eq_none, ← ne_eq, ← Option.isSome_iff_ne_none]; exact hfind)]
      exact .packet k ht hread ⟨hdur, hfind⟩ rfl
    · rw [if_pos (by simpa using hfind)]
      exact sequel_fail (show Status.format.Rejects by decide)

/-- The valid prefix is left as it is. -/
theorem Sequel.validPrefix {p : Parsing σ} {h : RecordHead} {payload : Bytes}
    {r : Status × Parsing σ} (hs : Sequel p h payload r) :
    r.2.validPrefix = p.validPrefix := by
  cases hs with
  | none hkeeps => exact hkeeps.validPrefix
  | stream s q ht hread hok hkeeps herr hr =>
    subst hr
    exact hkeeps.validPrefix
  | packet k ht hread hok hr =>
    subst hr
    rfl

/-- A group is not closed with `TRUNCATED`. -/
theorem closeGroup_ne_truncated (frame : RecordFrame) (r : Status × Parsing σ) :
    (closeGroup frame r).1 ≠ .truncated := by
  rcases r with ⟨st, q⟩
  cases st <;> simp [closeGroup, Parsing.fail, parseError, errorSet]

/-- A record that is processed with `TRUNCATED`, which comes of a callback, leaves the valid
prefix as it is. -/
theorem Found.validPrefix {data payload : Bytes} {limits : Limits} {lo hi offset : ℕ}
    {h : RecordHead} {p q : Parsing σ} (hf : Found data limits lo hi offset h payload)
    (herr : p.error.code = .ok) {parse : ParseRecords σ} {level : ℕ}
    (hr : processRecord parse data (h.frameAt offset payload.length (UInt8.ofNat level)) p =
      (.truncated, q)) :
    q.validPrefix = p.validPrefix := by
  have hprocessed := hf.processed parse level p
  generalize processRecord parse data (h.frameAt offset payload.length (UInt8.ofNat level)) p =
    r at hprocessed hr
  have hq : q = r.2 := by rw [hr]
  subst hq
  cases hprocessed with
  | unanswered => rfl
  | skipped | checked => rfl
  | stream hok ht =>
      exact (emitStream_sequel (show (p.notify _).2.error.code = .ok from herr) ht ..).validPrefix
  | packet hok ht => exact (emitPacket_sequel _ ht ..).validPrefix
  | opened => exact absurd (congrArg Prod.fst hr) (closeGroup_ne_truncated _ _)
  | refused => rfl

section

variable {data payload : Bytes} {level lo hi offset : ℕ} {h : RecordHead} {p : Parsing σ}
    {r : Status × Parsing σ}

/-- An announcement that is not answered with `OK` is the last delivery. -/
theorem visits_announcement (hf : Found data p.limits lo hi offset h payload)
    (hne : (p.notify (headEvent h payload.length offset level)).1 ≠ .ok) :
    Visits data level lo hi p (p.notify (headEvent h payload.length offset level))
    [announcement level offset h payload] False where
  heard := .record hf .nil
  limits := rfl
  callbacks := rfl
  user := rfl
  error _ := rfl
  answered := .inr ⟨[], _, rfl, trivial, hne, hne, fun _ => rfl, fun h => absurd rfl h⟩

/-- An event that is delivered behind the announcement of its record. -/
theorem visits_second {event : Event} {q : Parsing σ}
    (hheard : Heard data p.limits level lo hi p.tracks [announcement level offset h payload,
      ⟨level, offset, h, payload, event⟩] q.tracks)
    (hok : (p.notify (headEvent h payload.length offset level)).1 = .ok)
    (hlimits : q.limits = p.limits) (hcb : q.callbacks = p.callbacks)
    (huser : q.user = (p.notify (headEvent h payload.length offset level)).2.user)
    (herr : q.error = p.error) :
    Visits data level lo hi p (q.notify event) [announcement level offset h payload,
      ⟨level, offset, h, payload, event⟩] False := by
  have hcall : (q.notify event).1 =
      (p.callbacks.call (p.callbacks.call p.user (headEvent h payload.length offset level)).2
        event).1 := by
    unfold Parsing.notify
    rw [hcb, huser]
    rfl
  refine ⟨hheard, hlimits, hcb, ?_, fun _ => herr, ?_⟩
  · unfold Parsing.notify
    rw [hcb, huser]
    rfl
  by_cases hst : (q.notify event).1 = .ok
  · refine .inl ⟨⟨hok, hcall.symm.trans hst, trivial⟩, fun htrunc => ?_⟩
    rw [hst] at htrunc
    cases htrunc
  · refine .inr ⟨[announcement level offset h payload], _, rfl, ⟨hok, trivial⟩, ?_, hst,
      fun _ => hcall, fun h => absurd rfl h⟩
    exact fun h => hst (hcall.trans h)

/-- A record that is not a group, behind its announcement. -/
theorem visits_sequel (hf : Found data p.limits lo hi offset h payload)
    (hok : (p.notify (headEvent h payload.length offset level)).1 = .ok)
    (hc : Sequel (p.notify (headEvent h payload.length offset level)).2 h payload r) :
    ∃ tail, Visits data level lo hi p r (announcement level offset h payload :: tail) False ∧
      ∀ d ∈ tail, d.level = level := by
  cases hc with
  | none hkeeps hst herr =>
    refine ⟨[], ⟨?_, hkeeps.limits, hkeeps.callbacks, hkeeps.user, ?_, .inl ⟨⟨hok, trivial⟩, hst⟩⟩,
      by simp⟩
    · rw [hkeeps.tracks]
      exact .record hf .nil
    · rintro (h | h)
      · exact herr h
      · exact absurd h hst
  | stream s q ht hread hsok hkeeps herr hr =>
    subst hr
    refine ⟨_, visits_second ?_ hok hkeeps.limits hkeeps.callbacks hkeeps.user herr, by simp⟩
    rw [hkeeps.tracks]
    exact .stream hf ht hread hsok .nil
  | packet k ht hread hkok hr =>
    subst hr
    exact ⟨_, visits_second (.packet hf ht hread hkok .nil) hok rfl rfl rfl rfl, by simp⟩

/-- A group, behind its announcement. -/
theorem visits_group {rc : Status × Parsing σ} {dc : List Delivery} {waits : Prop}
    (hf : Found data p.limits lo hi offset h payload) (ht : h.type = RecordType.group.code)
    (hadm : admits p.limits level)
    (hok : (p.notify (headEvent h payload.length offset level)).1 = .ok) (frame : RecordFrame)
    (hc : Visits data (level + 1) (offset + h.headerSize payload.length + 20)
      (offset + h.headerSize payload.length + payload.length)
        (p.notify (headEvent h payload.length offset level)).2 rc dc waits) :
    Visits data level lo hi p (closeGroup frame rc)
    (announcement level offset h payload :: dc) False := by
  have hclosed : (closeGroup frame rc).2.tracks = rc.2.tracks ∧
      (closeGroup frame rc).2.limits = rc.2.limits ∧ (closeGroup frame rc).2.callbacks =
        rc.2.callbacks ∧ (closeGroup frame rc).2.user = rc.2.user := by
    rcases rc with ⟨st, q⟩
    cases st <;> exact ⟨rfl, rfl, rfl, rfl⟩
  have hne := closeGroup_ne_truncated frame rc
  obtain ⟨htracks, hlimits, hcb, huser⟩ := hclosed
  refine ⟨?_, hlimits.trans hc.limits, hcb.trans hc.callbacks, huser.trans hc.user, fun h => ?_, ?_⟩
  · have hgroup := Heard.group hf ht hadm hc.heard .nil
    rwa [List.append_nil, ← htracks] at hgroup
  · -- a group that is closed with `OK` was so by its children
    have hrc : rc.1 ≠ .truncated := by
      intro htrunc
      rcases rc with ⟨st, q⟩
      subst htrunc
      rcases h with h | h <;> cases h
    rw [closeGroup_of_ne hrc] at h ⊢
    exact hc.error h
  rcases hc.answered with ⟨hall, -⟩ | ⟨before, last, rfl, hbefore, hlast, hst, -, -⟩
  · exact .inl ⟨⟨hok, hall⟩, fun h => absurd h hne⟩
  · have hlevel : level + 1 ≤ last.level := hc.heard.level_le last (by simp)
    refine .inr ⟨announcement level offset h payload :: before, last, rfl, ⟨hok, hbefore⟩, hlast,
      ?_, fun h => by omega, fun _ => hne⟩
    by_cases hrc : rc.1 = .truncated
    · rcases rc with ⟨st, q⟩
      subst hrc
      simp [closeGroup, Parsing.fail, parseError, errorSet]
    · rw [closeGroup_of_ne hrc]
      exact hst

/-- **What `tide_process_record` delivers**, given what the loop delivers from the children of a
group that is opened: the announcement, and then what is at the level of the record or
among the children. -/
theorem processRecord_visits {parse : ParseRecords σ} {K : Delivery → Prop}
    (herr : p.error.code = .ok) (hf : Found data p.limits lo hi offset h payload)
    (hparse : h.type = RecordType.group.code → (∃ m children, payload = groupPayload m children) →
      admits p.limits level → ∃ dc waits, Visits data (level + 1)
        (offset + h.headerSize payload.length + 20)
          (offset + h.headerSize payload.length + payload.length)
            (p.notify (headEvent h payload.length offset level)).2
              (parse (offset + h.headerSize payload.length + 20)
                (offset + h.headerSize payload.length + payload.length) (UInt8.ofNat (level + 1))
                  (p.notify (headEvent h payload.length offset level)).2) dc waits ∧
                    ∀ d ∈ dc, K d) :
    ∃ tail, Visits data level lo hi p
      (processRecord parse data (h.frameAt offset payload.length (UInt8.ofNat level)) p)
      (announcement level offset h payload :: tail) False ∧ ∀ d ∈ tail, d.level = level ∨ K d := by
  have hsequel : ∀ {r : Status × Parsing σ},
      (p.notify (headEvent h payload.length offset level)).1 = .ok →
        Sequel (p.notify (headEvent h payload.length offset level)).2 h payload r →
          ∃ tail, Visits data level lo hi p r (announcement level offset h payload :: tail) False ∧
            ∀ d ∈ tail, d.level = level ∨ K d :=
    fun hok hs => (visits_sequel hf hok hs).imp fun tail ht => ⟨ht.1, fun d hd => .inl (ht.2 d hd)⟩
  have hprocessed := hf.processed parse level p
  generalize processRecord parse data (h.frameAt offset payload.length (UInt8.ofNat level)) p =
    r at hprocessed ⊢
  cases hprocessed with
  | unanswered hne => exact ⟨[], visits_announcement hf hne, by simp⟩
  | skipped hok | checked hok =>
      exact hsequel hok (.none ⟨rfl, rfl, rfl, rfl, rfl⟩ (by simp) fun _ => rfl)
  | stream hok ht =>
      exact hsequel hok (emitStream_sequel (show (p.notify _).2.error.code = .ok from herr) ht ..)
  | packet hok ht => exact hsequel hok (emitPacket_sequel _ ht ..)
  | opened hok ht hm hdepth =>
    obtain ⟨dc, waits, hc, hK⟩ := hparse ht hm hdepth
    rw [show (h.frameAt offset payload.length (UInt8.ofNat level)).depth + 1 =
      UInt8.ofNat (level + 1) from depth_succ level]
    exact ⟨_, visits_group hf ht hdepth hok _ hc, fun d hd => .inr (hK d hd)⟩
  | refused hok e he => exact hsequel hok (sequel_fail he)

/-- **What the loop over records delivers**, whatever the callbacks return and whichever
allocations succeed: records that lie in the range, one behind the other, up to the first
callback that does not return `OK`. When it waits for more, it waits behind them. -/
theorem parseRecords_visits {size cursor : ℕ} (level : ℕ) (p : Parsing σ)
    (herr : p.error.code = .ok) (hle : cursor ≤ size) (hsize : size ≤ data.length)
    (hmax : size ≤ sizeMax) :
    ∃ ds, Visits data level cursor size p (parseRecords data cursor size (UInt8.ofNat level) p) ds
      (Heard data p.limits level cursor (parseRecords data cursor size (UInt8.ofNat level)
        p).2.validPrefix p.tracks ds
          (parseRecords data cursor size (UInt8.ofNat level) p).2.tracks ∧
        cursor ≤ (parseRecords data cursor size (UInt8.ofNat level) p).2.validPrefix ∧
        (parseRecords data cursor size (UInt8.ofNat level) p).2.validPrefix ≤ size) := by
  -- the rest of the range is shorter, and so are the ranges of the groups in it
  induction hn : size - cursor using Nat.strongRecOn generalizing size cursor level p with
  | ind n ih =>
    subst hn
    rw [parseRecords_eq data hmax]
    by_cases hlt : cursor < size
    swap
    · obtain rfl : cursor = size := by omega
      rw [if_neg (Nat.lt_irrefl _), if_neg (not_not.mpr rfl)]
      exact ⟨[], .nil, rfl, rfl, rfl, fun _ => rfl, .inl ⟨trivial, nofun⟩⟩
    rw [if_pos hlt]
    obtain hmore | ⟨e, he, hstop⟩ | ⟨h, payload, hhead, hl, hend, -, hstep⟩ :=
      recordStep_cases (parseRecords data) (UInt8.ofNat level) p hsize hmax
    · rw [hmore]
      exact ⟨[], .nil, rfl, rfl, rfl, fun _ => rfl,
        .inl ⟨trivial, fun _ => ⟨.nil, Nat.le_refl _, hle⟩⟩⟩
    · rw [hstop]
      refine ⟨[], .nil, rfl, rfl, rfl, fun h => ?_, .inl ⟨trivial, fun h => absurd h he.2.2⟩⟩
      exact absurd h (not_or.mpr ⟨he.1, he.2.2⟩)
    have hf : Found data p.limits cursor (cursor + h.size payload.length) cursor h payload :=
      ⟨Nat.le_refl _, Nat.le_refl _, hhead, hl⟩
    have hge := h.size_ge payload.length
    have hpad := hf.children_le
    obtain ⟨tail, hrec, -⟩ : ∃ tail, Visits data level cursor (cursor + h.size payload.length) p
        (processRecord (parseRecords data) data (h.frameAt cursor payload.length
          (UInt8.ofNat level)) p)
        (announcement level cursor h payload :: tail) False ∧ ∀ d ∈ tail, d.level = level ∨
          True := by
      refine processRecord_visits herr hf fun _ ⟨m, children, hm⟩ _ => ?_
      have h20 := congrArg List.length hm
      rw [length_groupPayload] at h20
      obtain ⟨dc, hc⟩ := ih (payload.length - 20) (by omega) (level + 1)
        (p.notify (headEvent h payload.length cursor level)).2 herr
        (show cursor + h.headerSize payload.length + 20 ≤ cursor + h.headerSize payload.length +
          payload.length by omega) (by omega)
        (by omega) (by omega)
      exact ⟨dc, _, hc, fun _ _ => trivial⟩
    generalize announcement level cursor h payload :: tail = ds at hrec
    generalize processRecord (parseRecords data) data (h.frameAt cursor payload.length
      (UInt8.ofNat level)) p = r at hrec hstep
    rw [hstep]
    by_cases hok : r.1 = .ok
    swap
    · rw [closeRecord_of_ne hok]
      refine ⟨ds, hrec.heard.extend hend, hrec.limits, hrec.callbacks, hrec.user, hrec.error, ?_⟩
      exact hrec.answered.imp_left fun ⟨hall, hno⟩ => ⟨hall, fun h => (hno h).elim⟩
    obtain ⟨st, q⟩ := r
    subst hok
    change ∃ ds, Visits data level cursor size p (parseRecords data (cursor + h.size payload.length)
      size (UInt8.ofNat level)
      { q with validPrefix := cursor + h.size payload.length }) ds _
    have hq : q.error = p.error := (hrec.allOk rfl).2
    have hqt : q.limits = p.limits := hrec.limits
    obtain ⟨ds', hrest⟩ := ih (size - (cursor + h.size payload.length)) (by omega) level
      { q with validPrefix := cursor + h.size payload.length }
        (by rw [← herr]; exact congrArg Error.code hq) hend hsize hmax rfl
    have hboth := hrec.append rfl (by omega) hend rfl hrest
    refine ⟨ds ++ ds', hboth.heard, hboth.limits, hboth.callbacks, hboth.user, hboth.error,
      hboth.answered.imp_left ?_⟩
    rintro ⟨hall, hwait⟩
    refine ⟨hall, fun htrunc => ?_⟩
    obtain ⟨hheard, hlo, hhi⟩ := hwait htrunc
    refine ⟨hrec.heard.append (by omega) hlo ?_, Nat.le_trans (Nat.le_add_right ..) hlo, hhi⟩
    rw [← hqt]
    exact hheard

end

end Tide
