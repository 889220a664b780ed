import Tide.Format.Clients

/-!
# What the answers of a client decide

A client may answer an event with any status, and the parser stops at the first that is not
`OK`. Apart from that the answers decide nothing: over any bytes, with any limits and any
outcomes of the reallocations, a client is told the events that a recorder of everything is
told, one after the other, up to the first that it refuses (`parseTideBytes_hear`). If it
refuses none, its run ends as the recorder's does, and if it refuses one, its answer is the
status. The answer `TRUNCATED` the parser takes for its own: of a record in a group it makes
`FORMAT`, as of a child that is incomplete.

The two runs go side by side (`HeardRun`): either both have come to the same place, or the
client's has stopped while the recorder's goes on.
-/

namespace Tide

open Theory

variable {σ : Type}

/-- Telling a client of events, up to the first that it does not answer with `OK`. -/
def Callbacks.hear (callbacks : Callbacks σ) (user : σ) : List Event → Status × σ
  | [] => (.ok, user)
  | event :: events => andThen (callbacks.call user event) fun user => callbacks.hear user events

theorem Callbacks.hear_append (callbacks : Callbacks σ) (user : σ) (events more : List Event) :
    callbacks.hear user (events ++ more) = andThen (callbacks.hear user events) fun user =>
      callbacks.hear user more := by
  induction events generalizing user with
  | nil => rfl
  | cons event events ih =>
    simp only [List.cons_append, hear]
    rcases callbacks.call user event with ⟨status, user'⟩
    cases status <;> first | exact ih user' | rfl

/-- What was refused, is refused whatever more there is to hear. -/
theorem Callbacks.hear_of_isPrefix {callbacks : Callbacks σ} {user : σ} {events more : List Event}
    {r : Status × σ} (h : callbacks.hear user events = r) (hne : r.1 ≠ .ok)
    (hpre : events <+: more) : callbacks.hear user more = r := by
  obtain ⟨rest, rfl⟩ := hpre
  rw [callbacks.hear_append, h, andThen_of_ne hne]

/-- What was refused: an event, behind others that were answered with `OK`. -/
theorem Callbacks.hear_refused {callbacks : Callbacks σ} {user : σ} {events : List Event}
    (hne : (callbacks.hear user events).1 ≠ .ok) :
    ∃ before event, before ++ [event] <+: events ∧ callbacks.AllOk user before ∧
      callbacks.hear user events = callbacks.call (callbacks.deliver user before) event := by
  induction events generalizing user with
  | nil => exact absurd rfl hne
  | cons event events ih =>
    rw [hear] at hne ⊢
    by_cases hok : (callbacks.call user event).1 = .ok
    · have hcall : callbacks.call user event = (.ok, (callbacks.call user event).2) :=
        Prod.ext hok rfl
      rw [hcall, andThen_ok] at hne ⊢
      obtain ⟨before, last, hpre, hall, hhear⟩ := ih hne
      exact ⟨event :: before, last, (List.prefix_cons_inj event).mpr hpre, ⟨hok, hall⟩, hhear⟩
    · exact ⟨[], event, (List.prefix_cons_inj event).mpr (List.nil_prefix), trivial,
        andThen_of_ne hok _⟩

theorem Callbacks.hear_of_allOk {callbacks : Callbacks σ} {user : σ} {events : List Event}
    (h : callbacks.AllOk user events) :
    callbacks.hear user events = (.ok, callbacks.deliver user events) := by
  induction events generalizing user with
  | nil => rfl
  | cons event events ih =>
    have hcall : callbacks.call user event = (.ok, (callbacks.call user event).2) :=
      Prod.ext h.1 rfl
    rw [hear, hcall, andThen_ok, ih h.2]
    rfl

/-- What was not refused was answered with `OK`. -/
theorem Callbacks.allOk_of_hear {callbacks : Callbacks σ} {user : σ} {events : List Event}
    (hok : (callbacks.hear user events).1 = .ok) :
    callbacks.AllOk user events ∧
      (callbacks.hear user events).2 = callbacks.deliver user events := by
  induction events generalizing user with
  | nil => exact ⟨trivial, rfl⟩
  | cons event events ih =>
    rw [hear] at hok ⊢
    by_cases hcall : (callbacks.call user event).1 = .ok
    · have hfirst : callbacks.call user event = (.ok, (callbacks.call user event).2) :=
        Prod.ext hcall rfl
      rw [hfirst, andThen_ok] at hok ⊢
      obtain ⟨hall, hend⟩ := ih hok
      exact ⟨⟨hcall, hall⟩, hend⟩
    · rw [andThen_of_ne hcall] at hok
      exact absurd hok hcall

/-! ### The recorder -/

theorem recorder_call (events : List Event) (event : Event) :
    recorder.call events event = (.ok, events ++ [event]) := by
  cases event <;> rfl

/-- The recorder's parser, which has recorded `events` and maybe more. -/
def Parsing.Records (events : List Event) (p : Parsing (List Event)) : Prop :=
  p.callbacks = recorder ∧ events <+: p.user

/-- The recorder forgets nothing. -/
theorem kept_records (n : ℕ) (events : List Event) : Parsing.Kept n (Parsing.Records events) where
  notify p event h := by
    refine ⟨h.1, h.2.trans ?_⟩
    simp only [Parsing.notify, h.1, recorder_call]
    exact List.prefix_append ..
  fail _ _ h := h
  addTrack p stream offset h := by
    unfold addTrack
    dsimp only
    split_ifs <;> exact h
  validPrefix _ _ _ h := h

/-! ### Side by side -/

/-- The recorder's parser and the client's at the same place: the client, who was `v` in the
beginning, was told all that was recorded and answered `OK`. -/
structure Parsing.Synced (v : σ) (p : Parsing (List Event)) (q : Parsing σ) : Prop where
  recording : p.callbacks = recorder
  told : q.callbacks.hear v p.user = (.ok, q.user)
  limits : q.limits = p.limits
  tracks : q.tracks = p.tracks
  trackCapacity : q.trackCapacity = p.trackCapacity
  allocs : q.allocs = p.allocs
  error : q.error = p.error
  validPrefix : q.validPrefix = p.validPrefix

/-- **The recorder's result and the client's**: both came to the same place, where an error is set
if they stopped there, or the client has refused an event, and stopped without an error. -/
inductive HeardRun (v : σ) (r : Status × Parsing (List Event))
    (r' : Status × Parsing σ) : Prop where
  | synced (hstatus : r'.1 = r.1) (h : r.2.Synced v r'.2) (hclear : r.1 = .ok →
      r.2.error = errorClear)
  | stopped (answer : Status) (hne : answer ≠ .ok) (hrec : r.2.callbacks = recorder)
      (told : r'.2.callbacks.hear v r.2.user = (answer, r'.2.user))
      (hstatus : r'.1 = answer ∧ r'.2.error = errorClear ∨ answer = .truncated ∧ r'.1 = .format)

variable {v : σ} {p : Parsing (List Event)} {q : Parsing σ}

theorem Parsing.Synced.ok (h : p.Synced v q) (hclear : p.error = errorClear) :
    HeardRun v (.ok, p) (.ok, q) :=
  .synced rfl h fun _ => hclear

theorem Parsing.Synced.withPrefix (h : p.Synced v q) (n : ℕ) :
    Parsing.Synced v { p with validPrefix := n } { q with validPrefix := n } :=
  ⟨h.recording, h.told, h.limits, h.tracks, h.trackCapacity, h.allocs, h.error, rfl⟩

theorem Parsing.Synced.refuse (h : p.Synced v q) {e : Error} (he : e.code ≠ .ok) :
    HeardRun v (p.fail e) (q.fail e) :=
  .synced rfl ⟨h.recording, h.told, h.limits, h.tracks, h.trackCapacity, h.allocs, rfl,
    h.validPrefix⟩ fun hok => absurd hok he

theorem Parsing.Synced.fail (h : p.Synced v q) {e : Error} (he : e.code.Rejects) :
    HeardRun v (p.fail e) (q.fail e) := h.refuse he.1

/-- An event is recorded, and told. -/
theorem Parsing.Synced.notify (h : p.Synced v q) (hclear : p.error = errorClear) (event : Event) :
    HeardRun v (p.notify event) (q.notify event) := by
  have hrecorded : p.notify event = (.ok, { p with user := p.user ++ [event] }) := by
    rw [Parsing.notify, h.recording, recorder_call]
  have htold : q.callbacks.hear v (p.user ++ [event]) = q.callbacks.call q.user event := by
    rw [q.callbacks.hear_append, h.told, andThen_ok, Callbacks.hear]
    exact andThen_pure _
  rw [hrecorded]
  by_cases hok : (q.callbacks.call q.user event).1 = .ok
  · have hcall : q.callbacks.call q.user event = (.ok, (q.callbacks.call q.user event).2) :=
      Prod.ext hok rfl
    refine .synced hok ⟨h.recording, htold.trans hcall, h.limits, h.tracks, h.trackCapacity,
      h.allocs, h.error, h.validPrefix⟩ fun _ => ?_
    exact hclear
  · exact .stopped _ hok h.recording htold (.inl ⟨rfl, h.error.trans hclear⟩)

/-- A client that has stopped stays so, wherever the recorder goes on to. -/
theorem HeardRun.extend {r r₁ : Status × Parsing (List Event)} {r' : Status × Parsing σ}
    (h : HeardRun v r r') (hne : r'.1 ≠ .ok) (hok : r.1 = .ok)
    (hmore : r.2.callbacks = recorder → Parsing.Records r.2.user r₁.2) : HeardRun v r₁ r' := by
  cases h with
  | synced hstatus => exact absurd (hstatus.trans hok) hne
  | stopped answer hanswer hrec told hstatus =>
    obtain ⟨hrec', hpre⟩ := hmore hrec
    exact .stopped answer hanswer hrec' (Callbacks.hear_of_isPrefix told hanswer hpre) hstatus

/-- One thing after the other. -/
theorem HeardRun.andThen {r : Status × Parsing (List Event)} {r' : Status × Parsing σ}
    (h : HeardRun v r r') {f : Parsing (List Event) → Status × Parsing (List Event)}
    {g : Parsing σ → Status × Parsing σ}
    (hfg : ∀ p q, Parsing.Synced v p q → p.error = errorClear → HeardRun v (f p) (g q))
    (hf : ∀ p, p.callbacks = recorder → Parsing.Records p.user (f p).2) :
    HeardRun v (andThen r f) (andThen r' g) := by
  rcases r with ⟨status, p⟩
  rcases r' with ⟨status', q⟩
  by_cases hok : status' = .ok
  · subst hok
    cases h with
    | synced hstatus h hclear =>
      obtain rfl : status = .ok := hstatus.symm
      exact hfg p q h (hclear rfl)
    | stopped answer hne hrec told hstatus =>
      rcases hstatus with ⟨rfl, -⟩ | ⟨-, hformat⟩
      · exact absurd rfl hne
      · cases hformat
  · rw [andThen_of_ne (show (status', q).1 ≠ .ok from hok)]
    by_cases hgoes : status = .ok
    · subst hgoes
      exact h.extend hok rfl (hf p)
    · rw [andThen_of_ne (show (status, p).1 ≠ .ok from hgoes)]
      exact h

/-- A track is refused in both, or both have it, or neither has room for it. -/
theorem Parsing.Synced.addTrack (h : p.Synced v q) (hclear : p.error = errorClear)
    (stream : StreamInfo) (offset : ℕ) :
    (∃ e : Error, e.code.Rejects ∧ addTrack p stream offset = p.fail e ∧
      addTrack q stream offset = q.fail e) ∨
      ∃ status p' q', addTrack p stream offset = (status, p') ∧
        addTrack q stream offset = (status, q') ∧
        Parsing.Synced v p' q' ∧ p'.error = errorClear := by
  unfold Tide.addTrack
  rw [h.tracks, h.limits, h.trackCapacity, h.allocs]
  split_ifs
  · exact .inl ⟨_, show Status.format.Rejects by decide, rfl, rfl⟩
  · exact .inl ⟨_, show Status.resource.Rejects by decide, rfl, rfl⟩
  all_goals exact .inr ⟨_, _, _, rfl, rfl, ⟨h.recording, h.told, rfl, rfl, rfl, rfl, h.error,
    h.validPrefix⟩, hclear⟩

theorem Parsing.Synced.emitStream (h : p.Synced v q) (hclear : p.error = errorClear)
    (payload : Bytes) (frame : RecordFrame) :
    HeardRun v (emitStream p payload frame) (emitStream q payload frame) := by
  unfold Tide.emitStream
  cases wholePayload readStream payload with
  | none => exact h.fail (show Status.format.Rejects by decide)
  | some stream =>
    dsimp only
    split_ifs
    · exact h.fail (show Status.timeline.Rejects by decide)
    obtain ⟨e, he, hp, hq⟩ | ⟨status, p', q', hp, hq, hsync, hclear'⟩ :=
      h.addTrack hclear stream frame.offset
    · rw [hp, hq]
      have hfail := h.fail he
      cases hcode : e.code <;> first
        | exact absurd hcode he.1
        | (rw [Parsing.fail, Parsing.fail, hcode]; simpa [Parsing.fail, hcode] using hfail)
    · rw [hp, hq]
      have hcode : (p'.error.code, p') = (.ok, p') := by rw [hclear']; rfl
      have hcode' : (q'.error.code, q') = (.ok, q') := by rw [hsync.error, hclear']; rfl
      cases status <;> first
        | exact hsync.notify hclear' _
        | (dsimp only; rw [hcode, hcode']; exact hsync.ok hclear')

theorem Parsing.Synced.emitPacket (h : p.Synced v q) (hclear : p.error = errorClear)
    (payload : Bytes) (frame : RecordFrame) :
    HeardRun v (emitPacket p payload frame) (emitPacket q payload frame) := by
  unfold Tide.emitPacket
  rw [h.tracks]
  cases wholePayload readPacket payload with
  | none => exact h.fail (show Status.format.Rejects by decide)
  | some packet =>
    dsimp only
    split_ifs
    · exact h.fail (show Status.timeline.Rejects by decide)
    · exact h.fail (show Status.format.Rejects by decide)
    · exact h.notify hclear _

/-- A group leaves what was recorded and told alone. -/
theorem closeGroup_keeps {τ : Type} (frame : RecordFrame) (r : Status × Parsing τ) :
    (closeGroup frame r).2.callbacks = r.2.callbacks ∧ (closeGroup frame r).2.user = r.2.user := by
  rcases r with ⟨status, p⟩
  cases status <;> exact ⟨rfl, rfl⟩

/-- **The children of a group** end as the group does, but an incomplete child refuses it, and so
does one that the client takes for incomplete. -/
theorem HeardRun.closeGroup {r : Status × Parsing (List Event)} {r' : Status × Parsing σ}
    (h : HeardRun v r r') (frame : RecordFrame) :
    HeardRun v (closeGroup frame r) (closeGroup frame r') := by
  cases h with
  | synced hstatus hsync hclear =>
    rcases r with ⟨status, p⟩
    rcases r' with ⟨status', q⟩
    obtain rfl : status' = status := hstatus
    cases status' <;> first
      | exact hsync.fail (show Status.format.Rejects by decide)
      | exact .synced rfl hsync hclear
  | stopped answer hne hrec told hstatus =>
    obtain ⟨hcallbacks, huser⟩ := closeGroup_keeps frame r
    obtain ⟨hcallbacks', huser'⟩ := closeGroup_keeps frame r'
    refine .stopped answer hne (hcallbacks.trans hrec) (by rw [hcallbacks', huser, huser', told]) ?_
    by_cases htrunc : r'.1 = .truncated
    · -- the answer was `TRUNCATED`
      rcases hstatus with ⟨hanswer, -⟩ | ⟨-, hformat⟩
      · refine .inr ⟨hanswer.symm.trans htrunc, ?_⟩
        rcases r' with ⟨status', q⟩
        obtain rfl : status' = .truncated := htrunc
        rfl
      · rw [hformat] at htrunc
        cases htrunc
    · rw [closeGroup_of_ne htrunc]
      exact hstatus

section

variable {parse : ParseRecords (List Event)} {parse' : ParseRecords σ}
  (hparse : ∀ b e depth (p : Parsing (List Event)) (q : Parsing σ), p.Synced v q →
    p.error = errorClear → HeardRun v (parse b e depth p) (parse' b e depth q))

include hparse

/-- A group is refused in both, or its children are parsed in both; a child that is incomplete, or
that the client takes for incomplete, refuses the group. -/
theorem Parsing.Synced.processGroup (h : p.Synced v q) (hclear : p.error = errorClear)
    (payload : Bytes) (frame : RecordFrame) :
    HeardRun v (processGroup parse payload frame p) (processGroup parse' payload frame q) := by
  unfold Tide.processGroup
  rw [h.limits]
  split
  · exact h.fail (show Status.format.Rejects by decide)
  split
  · exact h.fail (show Status.format.Rejects by decide)
  dsimp only
  split_ifs
  · exact h.fail (show Status.format.Rejects by decide)
  · exact h.fail (show Status.resource.Rejects by decide)
  exact (hparse (frame.payloadOffset + 20) frame.payloadEnd (frame.depth + 1) p q h
    hclear).closeGroup frame

variable (hrecords : ∀ b e depth (p : Parsing (List Event)), p.callbacks = recorder →
    Parsing.Records p.user (parse b e depth p).2)

include hrecords

theorem Parsing.Synced.processRecord (h : p.Synced v q) (hclear : p.error = errorClear)
    (data : Bytes) (frame : RecordFrame) :
    HeardRun v (processRecord parse data frame p) (processRecord parse' data frame q) := by
  unfold Tide.processRecord
  dsimp only
  split_ifs
  · exact h.notify hclear _
  refine (h.notify hclear _).andThen (fun p q h hclear => ?_) fun p hrec => ?_
  · split
    · exact h.processGroup hparse hclear ..
    · exact h.emitStream hclear ..
    · exact h.emitPacket hclear ..
    · rw [h.limits, h.tracks]
      split
      · exact h.ok hclear
      · rename_i e hemit
        obtain ⟨status, message, hrej, rfl⟩ := emitSimpleRecord_error hemit
        exact h.fail hrej
    · exact h.fail (show Status.unsupported.Rejects by decide)
  · have hkept := kept_records frame.payloadEnd p.user
    have hstart : Parsing.Records p.user p := ⟨hrec, List.prefix_refl _⟩
    split
    · refine hkept.processGroup (fun b e depth p' _ hp' => ?_) hstart _ (Nat.le_refl _)
      obtain ⟨hrec', hpre⟩ := hrecords b e depth p' hp'.1
      exact ⟨hrec', hp'.2.trans hpre⟩
    · exact hkept.emitStream hstart ..
    · exact hkept.emitPacket hstart ..
    · split <;> exact hstart
    · exact hstart

/-- A round takes both to the same place, or the client's run stops there. -/
theorem Parsing.Synced.recordStep (h : p.Synced v q) (hclear : p.error = errorClear) (data : Bytes)
    (size cursor : ℕ) (depth : UInt8) :
    match recordStep parse data size cursor depth p, recordStep parse' data size cursor depth q with
    | .more, .more => True
    | .stop r, .stop r' => HeardRun v r r'
    | .go next p, .go next' q => next' = next ∧ p.Synced v q ∧ p.error = errorClear
    | .go _ p, .stop r' => HeardRun v (.ok, p) r' ∧ r'.1 ≠ .ok
    | _, _ => False := by
  unfold Tide.recordStep
  rw [h.limits]
  cases hdec : decodeRecordPrefix data size cursor depth with
  | truncated => trivial
  | rejected e => exact h.fail (rejects_of_rejected hdec)
  | frame frame =>
    dsimp only
    split_ifs
    · exact h.fail (show Status.resource.Rejects by decide)
    cases hint : validateRecordIntegrity data frame with
    | error e => exact h.fail (rejects_of_integrity hint)
    | ok u =>
      have hrun := h.processRecord hparse hrecords hclear data frame
      dsimp only
      generalize Tide.processRecord parse data frame p = r at hrun ⊢
      generalize Tide.processRecord parse' data frame q = r' at hrun ⊢
      cases hrun with
      | synced hstatus hsync hclear' =>
        rcases r with ⟨status, p'⟩
        rcases r' with ⟨status', q'⟩
        obtain rfl : status' = status := hstatus
        cases status' <;> first
          | exact ⟨rfl, hsync.withPrefix _, hclear' rfl⟩
          | exact .synced rfl hsync hclear'
      | stopped answer hne hrec told hstatus =>
        have hstop : r'.1 ≠ .ok := by
          rcases hstatus with ⟨hanswer, -⟩ | ⟨-, hformat⟩
          · rw [hanswer]
            exact hne
          · simp [hformat]
        rcases r with ⟨status, p'⟩
        rcases r' with ⟨status', q'⟩
        cases status' <;> first | exact absurd rfl hstop | skip
        all_goals cases status <;> first
          | exact ⟨.stopped answer hne hrec told hstatus, hstop⟩
          | exact .stopped answer hne hrec told hstatus

end

/-- **The loop over the records**, told to a client. -/
theorem Parsing.Synced.parseRecords (h : p.Synced v q) (hclear : p.error = errorClear)
    (data : Bytes) (cursor size : ℕ) (depth : UInt8) :
    HeardRun v (parseRecords data cursor size depth p) (parseRecords data cursor size depth q) := by
  unfold Tide.parseRecords
  generalize size - cursor + 1 = fuel
  induction fuel generalizing cursor size depth p q with
  | zero => exact .synced rfl h fun _ => hclear
  | succ fuel ih =>
    have hrecords : ∀ b e depth (p : Parsing (List Event)), p.callbacks = recorder →
        Parsing.Records p.user (parseRecordsFuel fuel data b e depth p).2 := fun b e depth p hrec =>
      (kept_records e p.user).parseRecordsFuel (Nat.le_refl _) ⟨hrec, List.prefix_refl _⟩
        data fuel b depth
    rw [parseRecordsFuel, parseRecordsFuel]
    split_ifs
    · have hstep := h.recordStep (fun b e depth p q h hclear => ih h hclear b e depth) hrecords
        hclear data size cursor depth
      cases hp : Tide.recordStep (parseRecordsFuel fuel data) data size cursor depth p <;>
        cases hq : Tide.recordStep (parseRecordsFuel fuel data) data size cursor depth q <;>
          rw [hp, hq] at hstep
      case more.more => exact .synced rfl (h.withPrefix cursor) (by simp)
      case stop.stop => exact hstep
      case go.go =>
        obtain ⟨rfl, hsync, hclear'⟩ := hstep
        exact ih hsync hclear' _ size depth
      case go.stop =>
        -- the recorder's run goes on without the client
        obtain ⟨hrun, hne⟩ := hstep
        exact hrun.extend hne rfl fun hrec => hrecords _ _ _ _ hrec
      all_goals exact hstep.elim
    · exact h.fail (show Status.format.Rejects by decide)
    · exact h.ok hclear

theorem atEnd_of_ne {status : Status} (h : status ≠ .truncated) (finish : Bool) :
    atEnd finish status = status :=
  if_neg fun htrunc => h htrunc.1

/-- What a client was told, from where the two runs have come to. -/
theorem HeardRun.heard {r : Status × Parsing (List Event)} {r' : Status × Parsing σ}
    (h : HeardRun v r r') (finish : Bool) :
    let heard := r'.2.callbacks.hear v r.2.user
    r'.2.user = heard.2 ∧
      (heard.1 = .ok → atEnd finish r'.1 = atEnd finish r.1 ∧ r'.2.error = r.2.error ∧
        r'.2.tracks = r.2.tracks ∧
        r'.2.validPrefix = r.2.validPrefix) ∧
      (heard.1 ≠ .ok → heard.1 ≠ .truncated → atEnd finish r'.1 = heard.1 ∧
        r'.2.error = errorClear) ∧
      (heard.1 = .truncated → atEnd finish r'.1 = .format ∨
        atEnd finish r'.1 = atEnd finish .truncated) := by
  cases h with
  | synced hstatus hsync hclear =>
    dsimp only
    rw [hsync.told, hstatus]
    exact ⟨rfl, fun _ => ⟨rfl, hsync.error, hsync.tracks, hsync.validPrefix⟩,
      fun hne => absurd rfl hne, by simp⟩
  | stopped answer hne hrec told hstatus =>
    dsimp only
    rw [told]
    refine ⟨rfl, fun hok => absurd hok hne, fun _ htrunc => ?_, fun htrunc => ?_⟩
    · rcases hstatus with ⟨hanswer, herror⟩ | ⟨htrunc', -⟩
      · rw [hanswer, atEnd_of_ne htrunc]
        exact ⟨rfl, herror⟩
      · exact absurd htrunc' htrunc
    · rcases hstatus with ⟨hanswer, -⟩ | ⟨-, hformat⟩
      · rw [hanswer, show answer = .truncated from htrunc]
        exact .inr rfl
      · rw [hformat]
        exact .inl rfl

/-- The whole parser, told to a client. -/
theorem parseTideBytes_heardRun (data : Bytes) (finish : Bool) (limits : Option Limits)
    (callbacks : Callbacks σ) (user : σ) (allocs : Stream' Bool) :
    ∃ r r', HeardRun user r r' ∧ r'.2.callbacks = callbacks ∧
      parseTideBytes data finish limits recorder [] allocs = (atEnd finish r.1, r.2) ∧
      parseTideBytes data finish limits callbacks user allocs = (atEnd finish r'.1, r'.2) := by
  have hstart : Parsing.Synced user (Parsing.start limits recorder [] allocs)
      (Parsing.start limits callbacks user allocs) :=
    ⟨rfl, rfl, rfl, rfl, rfl, rfl, rfl, rfl⟩
  unfold parseTideBytes
  dsimp only
  rw [hstart.limits]
  cases hval : validateHeader data (Parsing.start limits recorder [] allocs).limits with
  | error e => exact ⟨_, _, hstart.refuse (validateHeader_error hval).1, rfl, rfl, rfl⟩
  | ok u =>
    have hsettings := parseRecords_settings data 72 data.length 0
      ({ Parsing.start limits callbacks user allocs with validPrefix := 72 } : Parsing σ)
    exact ⟨_, _, (hstart.withPrefix 72).parseRecords rfl data 72 data.length 0,
      congrArg Prod.snd hsettings, rfl, rfl⟩

/-- The parser, told to a client. -/
theorem parseTideBytes_heard (data : Bytes) (finish : Bool) (limits : Option Limits)
    (callbacks : Callbacks σ) (user : σ) (allocs : Stream' Bool) :
    let all := parseTideBytes data finish limits recorder [] allocs
    let run := parseTideBytes data finish limits callbacks user allocs
    let heard := callbacks.hear user all.2.user
    run.2.user = heard.2 ∧
      (heard.1 = .ok → run.1 = all.1 ∧ run.2.error = all.2.error ∧ run.2.tracks = all.2.tracks ∧
        run.2.validPrefix = all.2.validPrefix) ∧
      (heard.1 ≠ .ok → heard.1 ≠ .truncated → run.1 = heard.1 ∧ run.2.error = errorClear) ∧
      (heard.1 = .truncated → run.1 = .format ∨ run.1 = atEnd finish .truncated) := by
  obtain ⟨r, r', hrun, hcallbacks, hall, hheard⟩ :=
    parseTideBytes_heardRun data finish limits callbacks user allocs
  have h := hrun.heard finish
  rw [hcallbacks] at h
  rw [hall, hheard]
  exact h

/-! ### A client that answers `TRUNCATED` -/

section

variable {answer : List Event → Event → Status} {before : List Event} {event : Event}

/-- A respondent that was refused nothing has heard everything. -/
theorem respondent_deliver (answer : List Event → Event → Status) (heard events : List Event) :
    (respondent answer).deliver heard events = heard ++ events :=
  (respondent_answers answer).deliver heard events

theorem respondent_call (answer : List Event → Event → Status) (heard : List Event)
    (event : Event) :
    (respondent answer).call heard event = (answer heard event, heard ++ [event]) :=
  Prod.ext ((respondent_answers answer).call heard event).1
    ((respondent_answers answer).call heard event).2

/-- Not all is answered with `OK` where the last event is not. -/
theorem not_allOk_of_truncated (hanswer : answer before event = .truncated) :
    ¬ (respondent answer).AllOk [] (before ++ [event]) := by
  intro hall
  have hok := ((Callbacks.allOk_append_iff ..).mp hall).2.1
  rw [respondent_deliver, respondent_call, List.nil_append, hanswer] at hok
  cases hok

/-- The last event that was delivered was answered with `TRUNCATED`. So the client's run has
stopped there. -/
theorem HeardRun.truncated {r r' : Status × Parsing (List Event)} (h : HeardRun [] r r')
    (hcallbacks : r'.2.callbacks = respondent answer) (huser : r'.2.user = before ++ [event])
    (hanswer : answer before event = .truncated) : r'.1 = .truncated ∨ r'.1 = .format := by
  cases h with
  | synced _ hsync _ =>
    have htold := hsync.told
    rw [hcallbacks] at htold
    obtain ⟨hall, hend⟩ := Callbacks.allOk_of_hear (congrArg Prod.fst htold)
    rw [respondent_deliver, htold, List.nil_append, huser] at hend
    rw [← hend] at hall
    exact absurd hall (not_allOk_of_truncated hanswer)
  | stopped refusal hne _ told hstatus =>
    rw [hcallbacks] at told
    have hrefused : ((respondent answer).hear [] r.2.user).1 ≠ .ok := by rwa [told]
    obtain ⟨before', event', -, -, hhear⟩ := Callbacks.hear_refused hrefused
    rw [told, respondent_deliver, respondent_call, List.nil_append, huser] at hhear
    obtain ⟨rfl, hsame⟩ := Prod.mk.inj hhear
    obtain ⟨rfl, hlast⟩ := List.append_inj' hsame rfl
    obtain rfl := List.singleton_inj.mp hlast
    rcases hstatus with ⟨hst, -⟩ | ⟨-, hst⟩
    · exact .inl (hst.trans hanswer)
    · exact .inr hst

/-- **The last event is answered with `TRUNCATED`**: that is the status if its record is in no
group, and otherwise a group around the record is refused. -/
theorem parseTideBytes_truncated (data : Bytes) (hdata : data.length ≤ sizeMax) (finish : Bool)
    (L : Limits) (allocs : Stream' Bool) (hanswer : answer before event = .truncated)
    (huser : (parseTideBytes data finish (some L) (respondent answer) [] allocs).2.user =
      before ++ [event]) :
    (TopLevel before event → (parseTideBytes data finish (some L) (respondent answer) [] allocs).1 =
      atEnd finish .truncated) ∧
      (¬ TopLevel before event →
        (parseTideBytes data finish (some L) (respondent answer) [] allocs).1 = .format) := by
  cases hval : validateHeader data L with
  | error e =>
    rw [parseTideBytes_of_error hval] at huser
    exact absurd huser.symm (by simp [Parsing.start])
  | ok u =>
    have hstart : Parsing.Synced [] (Parsing.start (some L) recorder [] allocs)
        (Parsing.start (some L) (respondent answer) [] allocs) :=
      ⟨rfl, rfl, rfl, rfl, rfl, rfl, rfl, rfl⟩
    have hrun := (hstart.withPrefix 72).parseRecords rfl data 72 data.length 0
    obtain ⟨ds, hv⟩ := parseRecords_visits 0
      { Parsing.start (some L) (respondent answer) [] allocs with validPrefix := 72 } rfl
      (length_of_validateHeader hval) (Nat.le_refl _) hdata
    rw [parseTideBytes_of_ok hval] at huser ⊢
    have hstatus := hrun.truncated hv.callbacks huser hanswer
    have hevents : eventsOf ds = before ++ [event] := by
      rw [← huser]
      exact (hv.user.trans (respondent_deliver ..)).symm
    dsimp only
    rcases hv.answered with ⟨hall, -⟩ | ⟨before', last, rfl, -, -, -, hshallow, hdeep⟩
    · have hall' : (respondent answer).AllOk [] (before ++ [event]) := hevents ▸ hall
      exact absurd hall' (not_allOk_of_truncated hanswer)
    · rw [eventsOf_append] at hevents
      obtain ⟨rfl, hlast⟩ := List.append_inj' hevents rfl
      obtain rfl : last.event = event := List.singleton_inj.mp hlast
      have hlevel := hv.heard.topLevel_iff
      refine ⟨fun htop => ?_, fun hin => ?_⟩
      · have hcall : ((respondent answer).call ((respondent answer).deliver [] (eventsOf before'))
            last.event).1 = .truncated := by
          rw [respondent_deliver, respondent_call, List.nil_append]
          exact hanswer
        exact congrArg (atEnd finish) ((hshallow (hlevel.mp htop)).trans hcall)
      · have hst := hstatus.resolve_left (hdeep fun hzero => hin (hlevel.mpr hzero))
        rw [hst]
        exact atEnd_of_ne (by simp) finish

end

/-- **What the answers of a client decide**: over any bytes, it is told the events that a recorder
is told, up to the first that it refuses, and nothing else of the run depends on it but where
it ends. With `TRUNCATED` refused, an event of a record in no group ends it as incomplete, and
any other makes a group around its record a wrong format. -/
theorem parseTideBytes_hear (data : Bytes) (finish : Bool) (limits : Option Limits)
    (callbacks : Callbacks σ) (user : σ) (allocs : Stream' Bool) :
    let all := parseTideBytes data finish limits recorder [] allocs
    let run := parseTideBytes data finish limits callbacks user allocs
    let heard := callbacks.hear user all.2.user
    run.2.user = heard.2 ∧
      (heard.1 = .ok → run.1 = all.1 ∧ run.2.error = all.2.error ∧ run.2.tracks = all.2.tracks ∧
        run.2.validPrefix = all.2.validPrefix) ∧
      (heard.1 ≠ .ok → heard.1 ≠ .truncated → run.1 = heard.1 ∧ run.2.error = errorClear) ∧
      (heard.1 = .truncated → run.1 = .format ∨ run.1 = atEnd finish .truncated) ∧
      (heard.1 = .truncated → data.length ≤ sizeMax →
        ∃ before event, before ++ [event] <+: all.2.user ∧ callbacks.AllOk user before ∧
          heard = callbacks.call (callbacks.deliver user before) event ∧
          (TopLevel before event → run.1 = atEnd finish .truncated) ∧
          (¬ TopLevel before event → run.1 = .format)) := by
  intro all run heard
  have hheard := parseTideBytes_heard data finish limits callbacks user allocs
  refine ⟨hheard.1, hheard.2.1, hheard.2.2.1, hheard.2.2.2, fun htrunc hdata => ?_⟩
  obtain ⟨before, event, hpre, hall, hhear⟩ :=
    Callbacks.hear_refused (show heard.1 ≠ .ok by rw [htrunc]; simp)
  refine ⟨before, event, hpre, hall, hhear, ?_⟩
  -- the stand-in of the client hears the same events, and stops at the same one
  have hanswer : callbacks.answering user before event = .truncated := by
    rw [Callbacks.answering, ← hhear, ← htrunc]
  have hstand : (callbacks.standIn user).hear [] all.2.user = (.truncated, before ++ [event]) := by
    have hall' : (callbacks.standIn user).AllOk [] before :=
      (standIn_allOk_iff callbacks user [] before).mpr hall
    refine Callbacks.hear_of_isPrefix ?_ (by simp) hpre
    rw [Callbacks.hear_append, Callbacks.hear_of_allOk hall', andThen_ok, Callbacks.standIn,
      respondent_deliver, Callbacks.hear, respondent_call, List.nil_append, hanswer]
    rfl
  have huser : (parseTideBytes data finish limits (callbacks.standIn user) [] allocs).2.user =
      before ++ [event] := by
    rw [(parseTideBytes_heard data finish limits (callbacks.standIn user) [] allocs).1, hstand]
  have hrun := parseTideBytes_standIn callbacks user data finish limits allocs
  rw [← hrun.1]
  cases limits with
  | none => exact parseTideBytes_truncated data hdata finish limitsDefault allocs hanswer huser
  | some L => exact parseTideBytes_truncated data hdata finish L allocs hanswer huser

end Tide
