import Tide.Format.Records

/-!
# Records in other places

What the check of a record has to do with the place of the record: the entries of a seek
index and of an index directory, and the prefix of a checkpoint, are to lie before it, and a
footer gives its own end. So a record that is not a footer passes its check behind more
bytes as well, and in other groups: a check `Implies` another if all that it accepts the
other accepts too, and the checks of a record in two places are compared part by part
(`simpleRecordChecks_shift`). A forest without footers that is well formed is so further
behind (`Forest.Valid.shift`), and it tells the same, but for the places
(`Forest.events_moved`).
-/

namespace Tide

open Theory

/-! ### Programs that accept more -/

section

variable {α β S : Type}

/-- What `c` accepts `d` accepts too, and in the same way. -/
def ChecksImply (c d : Checks α) : Prop := ∀ reader x, c.run reader = .ok x → d.run reader = .ok x

theorem ChecksImply.refl (c : Checks α) : ChecksImply c c := fun _ _ h => h

theorem ChecksImply.bind {c d : Checks α} {f g : α → Checks β} (h : ChecksImply c d)
    (hfg : ∀ a, ChecksImply (f a) (g a)) :
    ChecksImply (c >>= f) (d >>= g) := by
  intro reader x hx
  obtain ⟨a, reader', hc, hf⟩ := Checks.bind_ok hx
  rw [StateT.run_bind, h _ _ hc]
  exact hfg a _ _ hf

theorem ChecksImply.orError {p q : Reads UInt8 α} (h : ReadsImply p q) (e e' : Error) :
    ChecksImply (orError e p) (orError e' q) := by
  intro reader x hx
  have hq := h _ _ (orError_ok hx)
  unfold Tide.orError
  rw [StateT.run, hq]

theorem ChecksImply.forEntries {entry entry' : ℕ → S → Checks S}
    (h : ∀ i s, ChecksImply (entry i s) (entry' i s)) (n i : ℕ) (s : S) :
    ChecksImply (forEntries entry n i s) (forEntries entry' n i s) := by
  induction n generalizing i s with
  | zero => exact .refl _
  | succ n ih => exact (h i s).bind fun next => ih (i + 1) next

theorem ChecksImply.expectEnd (e e' : Error) : ChecksImply (expectEnd e) (expectEnd e') := by
  intro reader x hx
  unfold Tide.expectEnd at hx ⊢
  rw [StateT.run] at hx ⊢
  split at hx
  · cases hx
  · rwa [if_neg (by assumption)]

end

/-! ### The checks of a record -/

section

variable {limits : Limits} {tracks : List TrackSnapshot} {frame frame' : RecordFrame}

theorem readSeekEntry_shift (hle : frame.offset ≤ frame'.offset) :
    ReadsImply (readSeekEntry tracks frame) (readSeekEntry tracks frame') :=
  (ReadsImply.refl _).bind fun _ => (ReadsImply.refl _).bind fun _ =>
    (ReadsImply.refl _).bind fun _ => (ReadsImply.refl _).bind fun _ =>
    (ReadsImply.refl _).bind fun _ => (ReadsImply.refl _).bind fun _ =>
      (ReadsImply.refl _).bind fun _ => (ReadsImply.refl _).bind fun _ =>
    (ReadsImply.refl _).bind fun _ => (ReadsImply.guard (by omega)).bind fun _ => .refl _

theorem readDirectoryEntry_shift (hle : frame.offset ≤ frame'.offset) (i : ℕ)
    (previousEnd previousGeneration : UInt64) :
    ReadsImply (readDirectoryEntry frame i previousEnd previousGeneration)
    (readDirectoryEntry frame' i previousEnd previousGeneration) :=
  (ReadsImply.refl _).bind fun _ => (ReadsImply.refl _).bind fun _ =>
    (ReadsImply.refl _).bind fun _ => (ReadsImply.refl _).bind fun _ =>
    (ReadsImply.refl _).bind fun _ => (ReadsImply.refl _).bind fun _ =>
      (ReadsImply.refl _).bind fun _ =>
    (ReadsImply.guard (by omega)).bind fun _ => .refl _

theorem checkPacketTable_shift :
    ChecksImply (checkPacketTable limits tracks frame) (checkPacketTable limits tracks frame') :=
  (ChecksImply.orError (.refl _) _ _).bind fun _ =>
    (ChecksImply.forEntries (fun _ _ => ChecksImply.orError (.refl _) _ _) _ _ _).bind fun _ =>
      .expectEnd _ _

theorem checkEditList_shift :
    ChecksImply (checkEditList limits tracks frame) (checkEditList limits tracks frame') :=
  (ChecksImply.orError (.refl _) _ _).bind fun _ =>
    (ChecksImply.forEntries (fun _ _ => (ChecksImply.orError (.refl _) _ _).bind fun _ =>
      (ChecksImply.orError (.refl _) _ _).bind fun _ => .refl _) _ _ _).bind fun _ => .expectEnd _ _

theorem checkDiscontinuity_shift :
    ChecksImply (checkDiscontinuity tracks frame) (checkDiscontinuity tracks frame') :=
  (ChecksImply.orError (.refl _) _ _).bind fun _ => .expectEnd _ _

theorem checkSeekIndex_shift (hle : frame.offset ≤ frame'.offset) :
    ChecksImply (checkSeekIndex tracks frame) (checkSeekIndex tracks frame') :=
  (ChecksImply.orError (.refl _) _ _).bind fun _ =>
    (ChecksImply.forEntries (fun _ _ =>
      (ChecksImply.orError (readSeekEntry_shift hle) _ _).bind fun _ =>
      (ChecksImply.orError (.refl _) _ _).bind fun _ => .refl _) _ _ _).bind fun _ => .expectEnd _ _

theorem checkCheckpoint_shift (hle : frame.offset ≤ frame'.offset) :
    ChecksImply (checkCheckpoint limits tracks frame) (checkCheckpoint limits tracks frame') :=
  (ChecksImply.orError ((ReadsImply.refl _).bind fun _ => (ReadsImply.refl _).bind fun _ =>
    (ReadsImply.refl _).bind fun _ =>
      (ReadsImply.refl _).bind fun _ => (ReadsImply.guard (by omega)).bind fun _ =>
        .refl _) _ _).bind fun _ =>
    (ChecksImply.forEntries (fun _ _ => ChecksImply.orError (.refl _) _ _) _ _ _).bind fun _ =>
      .expectEnd _ _

theorem checkIndexDirectory_shift (hle : frame.offset ≤ frame'.offset) :
    ChecksImply (checkIndexDirectory frame) (checkIndexDirectory frame') :=
  (ChecksImply.orError (.refl _) _ _).bind fun _ =>
    (ChecksImply.forEntries (fun _ _ => ChecksImply.orError (readDirectoryEntry_shift hle _ _ _)
      _ _) _ _ _).bind fun _ =>
      .expectEnd _ _

/-- **The check of a record further behind**: it passes, if the record is not a footer. -/
theorem emitSimpleRecord_shift {data data' payload : Bytes} (htype : frame'.type = frame.type)
    (hfooter : frame.type ≠ RecordType.footer.code) (hle : frame.offset ≤ frame'.offset)
    (hok : emitSimpleRecord limits tracks frame data payload = .ok ()) :
    emitSimpleRecord limits tracks frame' data' payload = .ok () := by
  have himply : ChecksImply (simpleRecordChecks limits tracks frame data)
      (simpleRecordChecks limits tracks frame' data') := by
    unfold simpleRecordChecks
    rw [htype]
    cases hrt : recordTypeOf frame.type with
    | none => exact .refl _
    | some t =>
      cases t with
      | packetTable => exact checkPacketTable_shift
      | editList => exact checkEditList_shift
      | discontinuity => exact checkDiscontinuity_shift
      | seekIndex => exact checkSeekIndex_shift hle
      | checkpoint => exact checkCheckpoint_shift hle
      | indexDirectory => exact checkIndexDirectory_shift hle
      | footer => exact absurd ((recordTypeOf_eq_some_iff ..).mp hrt) hfooter
      | group | streamDesc | packet => exact .refl _
  rw [emitSimpleRecord_eq_ok_iff] at hok ⊢
  obtain ⟨x, hx⟩ := hok
  exact ⟨x, himply _ _ hx⟩

end

/-! ### Forests -/

/-- How deep the groups of a forest are. -/
def Forest.nesting : Forest → ℕ
  | .nil => 0
  | .leaf _ _ next => next.nesting
  | .group _ _ children next => max (children.nesting + 1) next.nesting

/-- An event with its record `n` bytes further behind and `k` groups further in. -/
def Event.moved (n k : ℕ) : Event → Event
  | .record r => .record { r with offset := r.offset + n, payloadOffset := r.payloadOffset + n,
                                  depth := r.depth + UInt8.ofNat k }
  | e => e

/-- The head of a record that is complete and no footer. -/
def NoFooter (h : RecordHead) : Prop := h.alignmentLog2 ≤ 4 ∧ h.type ≠ RecordType.footer.code

section

variable {L : Limits} {opens : ℕ → Prop} {depth depth' : ℕ} {pre pre' : Bytes}
    {ts : List TrackSnapshot}

/-- A record that is not a group, further behind. -/
theorem LeafOk.shift {h : RecordHead} {payload : Bytes} (hok : LeafOk L depth pre ts h payload)
    (hfooter : h.type ≠ RecordType.footer.code) (hle : pre.length ≤ pre'.length) :
    LeafOk L depth' pre' ts h payload := by
  unfold LeafOk at hok ⊢
  refine hok.imp_right fun hok => ?_
  cases hrt : recordTypeOf h.type with
  | none => rwa [hrt] at hok
  | some t =>
    rw [hrt] at hok
    cases t with
    | group | streamDesc | packet => exact hok
    | packetTable | editList | discontinuity | seekIndex | checkpoint | indexDirectory | footer =>
      refine emitSimpleRecord_shift ?_ ?_ ?_ hok
      exacts [rfl, hfooter, hle]

/-- **A forest further behind**, and in other groups: without footers, it is well formed there. -/
theorem Forest.Valid.shift {f : Forest} {place : ℕ} (hv : f.Valid L opens depth pre ts)
    (hf : f.Each (fun _ h _ => NoFooter h) place) (hle : pre.length ≤ pre'.length)
    (hopens : ∀ k, k < f.nesting → opens (depth + k) → opens (depth' + k)) :
    f.Valid L opens depth' pre' ts := by
  induction f generalizing depth depth' pre pre' ts place with
  | nil => trivial
  | leaf h payload next ih =>
    refine ⟨hv.1, hv.2.1.shift hf.2.1.2 hle, ih hv.2.2 hf.2.2 ?_ hopens⟩
    simpa using hle
  | group h m children next ihc ih =>
    obtain ⟨hhead, ht, hopen, hchildren, hnext⟩ := hv
    simp only [Forest.nesting, lt_max_iff] at hopens
    refine ⟨hhead, ht, hopens 0 (by omega) hopen, ihc hchildren hf.2.2.1 ?_ fun k hk => ?_,
      ih hnext hf.2.2.2 ?_ fun k hk => ?_⟩
    · simpa using hle
    · rw [Nat.add_right_comm depth, Nat.add_right_comm depth']
      exact hopens (k + 1) (by omega)
    · simpa using hle
    · exact hopens k (.inr hk)

end

/-! ### What is told in other places -/

@[simp] theorem streamsOf_moved (n k : ℕ) (events : List Event) :
    streamsOf (events.map (Event.moved n k)) = streamsOf events := by
  simp only [streamsOf, List.filterMap_map]
  congr 1
  funext event
  cases event <;> rfl

@[simp] theorem packetsOf_moved (n k : ℕ) (events : List Event) :
    packetsOf (events.map (Event.moved n k)) = packetsOf events := by
  simp only [packetsOf, List.filterMap_map]
  congr 1
  funext event
  cases event <;> rfl

/-- What is told by events of a kind that a client hears of, or not. -/
theorem Callbacks.filterMap_heard {σ α : Type} (callbacks : Callbacks σ) {g : Event → Option α}
    {heard : Bool} (hg : ∀ event, (g event).isSome → callbacks.hears event = heard)
    (events : List Event) :
    (events.filter callbacks.hears).filterMap g = if heard then events.filterMap g else [] := by
  induction events with
  | nil => simp
  | cons event events ih =>
    cases hsome : g event with
    | none => by_cases hhears : callbacks.hears event <;> simp [hhears, hsome, ih]
    | some a =>
      have hhears := hg event (by simp [hsome])
      cases heard <;> simp [hhears, hsome, ih]

/-- The streams that a client hears of. -/
theorem Callbacks.streamsOf_heard {σ : Type} (callbacks : Callbacks σ) (events : List Event) :
    streamsOf (events.filter callbacks.hears) = if callbacks.onStream.isSome then streamsOf events
      else [] := by
  apply callbacks.filterMap_heard
  intro event hsome
  cases event with
  | stream => rfl
  | record | packet => cases hsome

/-- The packets that a client hears of. -/
theorem Callbacks.packetsOf_heard {σ : Type} (callbacks : Callbacks σ) (events : List Event) :
    packetsOf (events.filter callbacks.hears) = if callbacks.onPacket.isSome then packetsOf events
      else [] := by
  apply callbacks.filterMap_heard
  intro event hsome
  cases event with
  | packet => rfl
  | record | stream => cases hsome

theorem headEvent_moved (h : RecordHead) (n offset depth m k : ℕ) :
    headEvent h n (offset + m) (depth + k) = (headEvent h n offset depth).moved m k := by
  simp [headEvent, RecordHead.frameAt, RecordFrame.event, Event.moved, Nat.add_right_comm]

theorem leafContent_moved (h : RecordHead) (payload : Bytes) (m k : ℕ) :
    (leafContent h payload).map (Event.moved m k) = leafContent h payload := by
  unfold leafContent
  split
  · cases wholePayload readStream payload <;> rfl
  · cases wholePayload readPacket payload <;> rfl
  · rfl

/-- **A forest tells the same in other places**, but for the places. -/
theorem Forest.events_moved (f : Forest) (offset depth m k : ℕ) :
    f.events (offset + m) (depth + k) = (f.events offset depth).map (Event.moved m k) := by
  induction f generalizing offset depth with
  | nil => rfl
  | leaf h payload next ih =>
    simp only [events, List.map_cons, List.map_append, headEvent_moved, leafContent_moved, ← ih]
    rw [Nat.add_right_comm]
  | group h g children next ihc ih =>
    simp only [events, childOffset, List.map_cons, List.map_append, headEvent_moved, ← ihc, ← ih]
    simp only [Nat.add_right_comm _ m, Nat.add_right_comm depth k]

end Tide
