import Tide.Format.Nesting

/-!
# Nothing is delivered twice

A client whose callbacks return what they like. In a session no record is announced
twice, a stream or a packet comes right behind the announcement of its own record, and
the first callback that does not return `OK` ends the session, if and only if no callback
for a top-level record returns `TRUNCATED` before the last feed
(`decoderFeeds_once_iff`). That status has the decoder wait for more, and the next feed
fetches the record again.
-/

namespace Tide

open Theory

variable {σ : Type}

/-- A client with all the callbacks. It keeps in `heard` the events delivered to it, and
what its callbacks return depends on them. -/
structure Callbacks.Answers (callbacks : Callbacks σ) (heard : σ → List Event)
    (answer : List Event → Event → Status) : Prop where
  call : ∀ user event, (callbacks.call user event).1 = answer (heard user) event ∧
    heard (callbacks.call user event).2 = heard user ++ [event]
  error : ∀ f, callbacks.onError = some f → ∀ user e, heard (f user e) = heard user

/-- The client that keeps the events and answers by them. -/
def respondent (answer : List Event → Event → Status) : Callbacks (List Event) where
  onRecord := some fun heard event => (answer heard (.record event), heard ++ [.record event])
  onStream := some fun heard stream => (answer heard (.stream stream), heard ++ [.stream stream])
  onPacket := some fun heard packet => (answer heard (.packet packet), heard ++ [.packet packet])
  onError := none

theorem respondent_answers (answer : List Event → Event → Status) :
    (respondent answer).Answers id answer := by
  refine ⟨fun user event => ?_, nofun⟩
  cases event <;> exact ⟨rfl, rfl⟩

/-- The decoder behind some pieces. -/
def Decoder.feeds (d : Decoder σ) (pieces : List Piece) : Decoder σ :=
  (answers Decoder.feed d pieces).2

/-- Between two states of a session `e` is delivered, behind `before`. -/
def Delivers (heard : σ → List Event) (d d' : Decoder σ) (before : List Event) (e : Event) : Prop :=
  heard d.user <+: before ∧ before ++ [e] <+: heard d'.user

/-- An event that is delivered behind others: it announces another record than they do, or
it comes right behind the announcement of a descriptor or a packet. -/
def ComesOnce (before : List Event) : Event → Prop
  | .record r => ∀ r', .record r' ∈ before → r'.offset ≠ r.offset
  | .stream _ => ∃ earlier r, before = earlier ++ [.record r] ∧ r.type = RecordType.streamDesc.code
  | .packet _ => ∃ earlier r, before = earlier ++ [.record r] ∧ r.type = RecordType.packet.code

/-- **A session that delivers once**: nothing is delivered twice, and a callback that does not
return `OK` makes its feed fail and is the last one. -/
structure DeliversOnce (heard : σ → List Event) (answer : List Event → Event → Status)
    (d : Decoder σ) (pieces : List Piece) : Prop where
  once : EachBehind ComesOnce (heard (d.feeds pieces).user)
  stops : EachBehind (fun fed piece => ∀ before e,
    Delivers heard (d.feeds fed) ((d.feeds fed).feed piece).2 before e →
    answer before e ≠ .ok → ((d.feeds fed).feed piece).1 ≠ .ok ∧
      heard (d.feeds pieces).user = before ++ [e]) pieces

/-- The event comes from a record that is in no group. -/
def TopLevel (before : List Event) (e : Event) : Prop :=
  ∃ offset, origin before e = some offset ∧ enclosing before offset = 0

/-- No callback for a top-level record returns `TRUNCATED` in the feed, unless it is the last. -/
def KeepsTruncated (heard : σ → List Event) (answer : List Event → Event → Status) (d : Decoder σ)
    (piece : Piece) : Prop :=
  piece.finish = false → ∀ before e, Delivers heard d (d.feed piece).2 before e →
    TopLevel before e → answer before e ≠ .truncated

/-! ### What has been delivered -/

/-- An event that comes once still does behind announcements of other records. -/
theorem ComesOnce.extend {before : List Event} {e : Event} (h : ComesOnce before e)
    {earlier : List Event}
    (hne : ∀ r r', e = .record r → .record r' ∈ earlier → r'.offset ≠ r.offset) :
    ComesOnce (earlier ++ before) e := by
  cases e with
  | record r =>
    intro r' hr'
    rcases List.mem_append.mp hr' with hr' | hr'
    · exact hne r r' rfl hr'
    · exact h r' hr'
  | stream s | packet k =>
    obtain ⟨earlier', r, rfl, ht⟩ := h
    exact ⟨earlier ++ earlier', r, (List.append_assoc ..).symm, ht⟩

namespace Heard

variable {data : Bytes} {limits : Limits} {level level' lo lo' hi hi' : ℕ}
    {ts ts' ts₁ : List TrackSnapshot} {ds ds' : List Delivery}

/-- The offset of an announcement is that of the record. -/
theorem offset_eq (h : Heard data limits level lo hi ts ds ts') {d : Delivery} (hd : d ∈ ds)
    {r : RecordEvent} (hr : d.event = .record r) :
    r.offset = d.offset := by
  have hg := h.genuine d hd
  rw [Delivery.Genuine, hr] at hg
  rw [hg]
  rfl

/-- The announcements of a range come from before its end. -/
theorem offset_lt (h : Heard data limits level lo hi ts ds ts') :
    ∀ r, .record r ∈ eventsOf ds → r.offset < hi := by
  intro r hr
  obtain ⟨d, hd, hev⟩ := List.mem_map.mp hr
  have hle := (h.found d hd).le_hi
  have hge := d.head.size_ge d.payload.length
  rw [h.offset_eq hd hev]
  omega

/-- Events that come once still do behind announcements from before the range. -/
theorem comesOnce_behind (h : Heard data limits level lo hi ts ds ts')
    (honce : EachBehind (fun pre d => ComesOnce (eventsOf pre) d.event) ds) (earlier : List Event)
    (hearlier : ∀ r, .record r ∈ earlier → r.offset < lo) :
    EachBehind (fun pre d => ComesOnce (earlier ++ eventsOf pre) d.event) ds := by
  refine honce.imp fun pre d _ hd hcomes => hcomes.extend fun r r' hr hr' => ?_
  have hlo := (h.found d hd).lo_le
  have hlt := hearlier r' hr'
  rw [h.offset_eq hd hr]
  omega

/-- **Every event comes once.** -/
theorem comesOnce (h : Heard data limits level lo hi ts ds ts') :
    EachBehind (fun pre d => ComesOnce (eventsOf pre) d.event) ds := by
  have hfirst : ∀ {level offset : ℕ} {h : RecordHead} {payload : Bytes},
      ComesOnce [] (announcement level offset h payload).event := by
    intro level offset h payload r' hr'
    cases hr'
  have hann : ∀ {level offset lo : ℕ} {h : RecordHead} {payload : Bytes} {r : RecordEvent},
      offset < lo → .record r = (announcement level offset h payload).event → r.offset < lo := by
    intro level offset lo h payload r hlt hr
    cases hr
    exact hlt
  induction h with
  | nil => exact eachBehind_nil
  | @record level _ _ offset h payload _ _ _ hf hrest ih =>
    have hge := h.size_ge payload.length
    rw [eachBehind_cons]
    refine ⟨hfirst, hrest.comesOnce_behind ih [_] fun r hr => ?_⟩
    exact hann (by omega) (List.mem_singleton.mp hr)
  | @stream level _ _ offset h payload _ _ _ _ _ ht _ _ hrest ih
  | @packet level _ _ offset h payload _ _ _ _ _ ht _ _ hrest ih =>
    have hge := h.size_ge payload.length
    rw [eachBehind_cons, eachBehind_cons]
    refine ⟨hfirst, ⟨[], _, rfl, ht⟩, hrest.comesOnce_behind ih [_, _] fun r hr => ?_⟩
    rcases List.mem_cons.mp hr with hr | hr
    · exact hann (by omega) hr
    · cases List.mem_singleton.mp hr
  | @group level _ _ offset h payload _ _ _ dc _ hf _ _ hc hrest ihc ih =>
    have hge := h.size_ge payload.length
    have hend := h.le_paddedSize payload.length
    have hsize : h.size payload.length = h.paddedSize payload.length + 4 := rfl
    rw [eachBehind_cons, eachBehind_append]
    refine ⟨hfirst, hc.comesOnce_behind ihc [_] fun r hr => ?_, ?_⟩
    · exact hann (by omega) (List.mem_singleton.mp hr)
    · have hbehind := hrest.comesOnce_behind ih
        ((announcement level offset h payload).event :: eventsOf dc) fun r hr => ?_
      · simpa using hbehind
      rcases List.mem_cons.mp hr with hr | hr
      · exact hann (by omega) hr
      · have hlt := hc.offset_lt r hr
        omega

end Heard

/-! ### Sessions -/

section

variable {L : Limits} {callbacks : Callbacks σ} {heard : σ → List Event} {answer : List Event →
    Event → Status} {d : Decoder σ}
  {ds : List Delivery}

theorem Callbacks.Answers.deliver (hcb : callbacks.Answers heard answer) (user : σ)
    (events : List Event) :
    heard (callbacks.deliver user events) = heard user ++ events := by
  induction events generalizing user with
  | nil => exact (List.append_nil _).symm
  | cons e events ih =>
    change heard (callbacks.deliver (callbacks.call user e).2 events) = _
    rw [ih, (hcb.call user e).2, List.append_assoc]
    rfl

theorem Callbacks.Answers.allOk_iff (hcb : callbacks.Answers heard answer) (user : σ)
    (events : List Event) :
    callbacks.AllOk user events ↔
      EachBehind (fun before e => answer (heard user ++ before) e = .ok) events := by
  induction events generalizing user with
  | nil => simp [Callbacks.AllOk]
  | cons e events ih =>
    rw [Callbacks.AllOk, ih, eachBehind_cons, (hcb.call user e).1, (hcb.call user e).2,
      List.append_nil]
    simp only [List.append_assoc, List.singleton_append]

/-- The client has heard the deliveries of the ledger. -/
structure Session (L : Limits) (callbacks : Callbacks σ) (heard : σ → List Event) (d : Decoder σ)
    (ds : List Delivery) : Prop where
  ledger : Ledger L callbacks d ds
  heard : heard d.user = eventsOf ds

/-- The last delivery of a feed is for a top-level record, and is answered with `TRUNCATED`
in a feed that is not the last one. -/
def Retried (answer : List Event → Event → Status) (piece : Piece) (ds before : List Delivery)
    (last : Delivery) : Prop :=
  piece.finish = false ∧ last.level = 0 ∧ answer (eventsOf (ds ++ before)) last.event = .truncated

/-- **What a feed delivers**, to a client that answers. -/
theorem Session.feed (h : Session L callbacks heard d ds) (hcb : callbacks.Answers heard answer)
    (piece : Piece) :
    ∃ new, heard (d.feed piece).2.user = eventsOf (ds ++ new) ∧
      Heard (d.feed piece).2.buffer.data L 0 72 (d.feed piece).2.buffer.data.length [] (ds ++ new)
        (d.feed piece).2.tracks ∧
      (Session L callbacks heard (d.feed piece).2 (ds ++ new) ∧
          (EachBehind (fun before last => answer (eventsOf (ds ++ before)) last.event = .ok) new ∨
            (∃ before last, new = before ++ [last] ∧
              EachBehind
                (fun before last => answer (eventsOf (ds ++ before)) last.event = .ok) before ∧
              ¬ Retried answer piece ds before last) ∧ (d.feed piece).1 ≠ .ok ∧
                (d.feed piece).2.terminal = true) ∨
        (∃ before last, new = before ++ [last] ∧ Retried answer piece ds before last) ∧
          (d.feed piece).1 = .ok) := by
  obtain ⟨new, hafter, hheard, hcases⟩ := h.ledger.feed piece
  have happend : ∀ before : List Delivery, eventsOf ds ++ before.map Delivery.event =
      eventsOf (ds ++ before) :=
    fun before => (eventsOf_append ds before).symm
  have hdeliver : ∀ before : List Delivery,
      heard (callbacks.deliver d.user (before.map Delivery.event)) = eventsOf (ds ++ before) := by
    intro before
    rw [hcb.deliver, h.heard, happend]
  have hallOk : ∀ before : List Delivery, callbacks.AllOk d.user (before.map Delivery.event) ↔
      EachBehind (fun before last => answer (eventsOf (ds ++ before)) last.event = .ok) before := by
    intro before
    rw [hcb.allOk_iff, eachBehind_map, h.heard]
    simp only [happend]
  have hretries : ∀ before last, Retries callbacks d.user piece before last ↔
      Retried answer piece ds before last := by
    intro before last
    rw [Retries, Retried, (hcb.call _ _).1, hdeliver]
  have hend : heard (d.feed piece).2.user = eventsOf (ds ++ new) := by
    rw [← hdeliver new]
    obtain heq | ⟨f, e, hf, heq⟩ := hafter
    · rw [heq]
    · rw [heq, hcb.error f hf]
  simp only [Settles, Refetches, hallOk, hretries] at hcases
  exact ⟨new, hend, hheard, hcases.imp_left fun ⟨hledger, hsettles⟩ => ⟨⟨hledger, hend⟩, hsettles⟩⟩

/-- What is delivered in a feed, in terms of the deliveries. -/
theorem delivers_iff {d' : Decoder σ} {new : List Delivery} (hd : heard d.user = eventsOf ds)
    (hd' : heard d'.user = eventsOf (ds ++ new)) (before : List Event) (e : Event) :
    Delivers heard d d' before e ↔
      ∃ pre last post, new = pre ++ last :: post ∧ before = eventsOf (ds ++ pre) ∧
        e = last.event := by
  rw [Delivers, hd, hd']
  constructor
  · rintro ⟨⟨pre, rfl⟩, post, hpost⟩
    rw [eventsOf_append, List.append_assoc, List.append_assoc, List.append_cancel_left_eq,
      List.singleton_append] at hpost
    obtain ⟨pre', rest, rfl, rfl, hrest⟩ := List.map_eq_append_iff.mp hpost.symm
    obtain ⟨last, post', rfl, rfl, rfl⟩ := List.map_eq_cons_iff.mp hrest
    exact ⟨pre', last, post', rfl, (eventsOf_append ..).symm, rfl⟩
  · rintro ⟨pre, last, post, rfl, rfl, rfl⟩
    refine ⟨⟨eventsOf pre, (eventsOf_append ..).symm⟩, eventsOf post, ?_⟩
    simp

/-- The level of a delivery can be told from the events. -/
theorem Heard.topLevel_iff {data : Bytes} {lo hi : ℕ} {ts ts' : List TrackSnapshot}
    {pre post : List Delivery} {last : Delivery}
    (h : Heard data L 0 lo hi ts (pre ++ last :: post) ts') :
    TopLevel (eventsOf pre) last.event ↔ last.level = 0 := by
  have hlevel : 0 + enclosing (eventsOf pre) last.offset = last.level := h.levels pre last post rfl
  have horigin : origin (eventsOf pre) last.event = some last.offset := h.origins pre last post rfl
  rw [Nat.zero_add] at hlevel
  rw [← hlevel]
  constructor
  · rintro ⟨offset, hoffset, hzero⟩
    rw [horigin] at hoffset
    cases hoffset
    exact hzero
  · exact fun hzero => ⟨last.offset, horigin, hzero⟩

/-- A feed that fails at every callback that does not return `OK` retries none. -/
theorem Session.keepsTruncated (h : Session L callbacks heard d ds)
    (hcb : callbacks.Answers heard answer) {piece : Piece}
    (hstops : ∀ before e, Delivers heard d (d.feed piece).2 before e → answer before e ≠ .ok →
      (d.feed piece).1 ≠ .ok) :
    KeepsTruncated heard answer d piece := by
  obtain ⟨new, hend, hheard, hcases⟩ := h.feed hcb piece
  intro hmore before e hdel htop htrunc
  have hne := hstops before e hdel (by rw [htrunc]; simp)
  obtain ⟨pre, last, post, rfl, rfl, rfl⟩ := (delivers_iff h.heard hend before e).mp hdel
  rw [← List.append_assoc] at hheard
  have hlevel := hheard.topLevel_iff.mp htop
  rcases hcases with ⟨-, hall | ⟨⟨before', last', heq, hall, hno⟩, -⟩⟩ | ⟨-, hok⟩
  · rw [hall pre last post rfl] at htrunc
    cases htrunc
  · obtain ⟨rfl, rfl, -⟩ | ⟨post', rfl⟩ := last_or_before heq
    · exact hno ⟨hmore, hlevel, htrunc⟩
    · rw [hall pre last post' rfl] at htrunc
      cases htrunc
  · exact hne hok

/-- A feed that retries no callback keeps the session, and ends it at a callback that does not
return `OK`. -/
theorem Session.feed_of_keeps (h : Session L callbacks heard d ds)
    (hcb : callbacks.Answers heard answer) {piece : Piece}
    (hkeeps : KeepsTruncated heard answer d piece) :
    (∃ ds', Session L callbacks heard (d.feed piece).2 ds') ∧
      ∀ before e, Delivers heard d (d.feed piece).2 before e → answer before e ≠ .ok →
        (d.feed piece).1 ≠ .ok ∧ (d.feed piece).2.terminal = true ∧
          heard (d.feed piece).2.user = before ++ [e] := by
  obtain ⟨new, hend, hheard, hcases⟩ := h.feed hcb piece
  rcases hcases with ⟨hsession, hsettles⟩ | ⟨⟨before, last, rfl, hmore, hlevel, htrunc⟩, -⟩
  · refine ⟨⟨_, hsession⟩, fun before e hdel hne => ?_⟩
    obtain ⟨pre, last, post, rfl, rfl, rfl⟩ := (delivers_iff h.heard hend before e).mp hdel
    rcases hsettles with hall | ⟨⟨before', last', heq, hall, -⟩, hst, hterm⟩
    · exact absurd (hall pre last post rfl) hne
    · obtain ⟨-, -, rfl⟩ | ⟨post', rfl⟩ := last_or_before heq
      · exact ⟨hst, hterm, by rw [hend]; simp⟩
      · exact absurd (hall pre last post' rfl) hne
  · have hdel := (delivers_iff h.heard hend (eventsOf (ds ++ before)) last.event).mpr ⟨before, last,
      [], rfl, rfl, rfl⟩
    rw [← List.append_assoc] at hheard
    exact absurd htrunc (hkeeps hmore _ _ hdel (hheard.topLevel_iff.mpr hlevel))

end

/-- A decoder whose session is over stays as it is. -/
theorem Decoder.feeds_of_terminal {d : Decoder σ} (h : d.terminal = true)
    (pieces : List Piece) : d.feeds pieces = d := by
  induction pieces with
  | nil => rfl
  | cons piece pieces ih =>
    have hfeed : (d.feed piece).2 = d := by
      unfold Decoder.feed decoderFeed
      rw [h]
      split <;> rfl
    rw [Decoder.feeds, answers, hfeed]
    exact ih

/-- The decoder behind some pieces and one more. -/
theorem Decoder.feeds_append (d : Decoder σ) (fed : List Piece) (piece : Piece)
    (rest : List Piece) :
    d.feeds (fed ++ piece :: rest) = ((d.feeds fed).feed piece).2.feeds rest := by
  rw [Decoder.feeds, answers_append]
  rfl

/-- From where nothing was delivered yet, every event comes once if and only if no callback is
retried. -/
theorem Session.once_iff {L : Limits} {callbacks : Callbacks σ} {heard : σ → List Event}
    {answer : List Event → Event → Status} {d : Decoder σ} (hstart : Session L callbacks heard d [])
    (hcb : callbacks.Answers heard answer) (pieces : List Piece) :
    DeliversOnce heard answer d pieces ↔
      EachBehind (fun fed piece => KeepsTruncated heard answer (d.feeds fed) piece) pieces := by
  -- the session is kept as long as no callback is retried
  have hsession : ∀ fed,
      EachBehind (fun fed piece => KeepsTruncated heard answer (d.feeds fed) piece) fed →
        ∃ ds, Session L callbacks heard (d.feeds fed) ds := by
    intro fed
    induction fed using List.reverseRecOn with
    | nil => exact fun _ => ⟨[], hstart⟩
    | append_singleton fed piece ih =>
      intro hkeeps
      rw [eachBehind_append] at hkeeps
      obtain ⟨ds, hds⟩ := ih hkeeps.1
      have hpiece : KeepsTruncated heard answer (d.feeds fed) piece := by simpa using hkeeps.2
      rw [Decoder.feeds_append]
      exact (hds.feed_of_keeps hcb hpiece).1
  constructor
  · intro honce
    have hreports := honce.stops.imp (Q := fun fed piece => ∀ before e,
      Delivers heard (d.feeds fed) ((d.feeds fed).feed piece).2 before e →
      answer before e ≠ .ok → ((d.feeds fed).feed piece).1 ≠ .ok) fun _ _ _ _ h before e hdel hne =>
        (h before e hdel hne).1
    clear honce
    induction pieces using List.reverseRecOn with
    | nil => exact eachBehind_nil
    | append_singleton pieces piece ih =>
      rw [eachBehind_append] at hreports ⊢
      have hkeeps := ih hreports.1
      obtain ⟨ds, hds⟩ := hsession pieces hkeeps
      have hpiece : KeepsTruncated heard answer (d.feeds pieces) piece :=
        hds.keepsTruncated hcb (by simpa using hreports.2)
      exact ⟨hkeeps, by simpa using hpiece⟩
  · intro hkeeps
    obtain ⟨ds, hds⟩ := hsession pieces hkeeps
    refine ⟨?_, ?_⟩
    · rw [hds.heard, eventsOf, eachBehind_map]
      exact hds.ledger.heard.comesOnce
    · intro fed piece rest hpieces before e hdel hne
      rw [hpieces, eachBehind_append, eachBehind_cons] at hkeeps
      obtain ⟨ds', hds'⟩ := hsession fed hkeeps.1
      obtain ⟨hst, hterm, hheard⟩ := (hds'.feed_of_keeps hcb (by simpa using hkeeps.2.1)).2
        before e hdel hne
      refine ⟨hst, ?_⟩
      rw [hpieces, Decoder.feeds_append, Decoder.feeds_of_terminal hterm]
      exact hheard

/-- **Every delivery once**: in any session of a client that answers as it likes nothing is
delivered twice, and the first callback that does not return `OK` ends the session, if
and only if no callback for a top-level record returns `TRUNCATED` before the last feed. -/
theorem decoderFeeds_once_iff (L : Limits) {callbacks : Callbacks σ} {heard : σ → List Event}
    {answer : List Event → Event → Status} (hcb : callbacks.Answers heard answer) (user : σ)
    (huser : heard user = []) (allocs bufferAllocs : Stream' Bool) (pieces : List Piece) :
    let d := decoderInit (some L) callbacks user allocs bufferAllocs
    DeliversOnce heard answer d pieces ↔
      EachBehind (fun fed piece => KeepsTruncated heard answer (d.feeds fed) piece) pieces := by
  intro d
  have hstart : Session L callbacks heard d [] := ⟨ledger_decoderInit .., huser⟩
  exact hstart.once_iff hcb pieces

/-- Callbacks of which the first call returns `TRUNCATED`. -/
def impatient : List Event → Event → Status :=
  fun heard _ => if heard.isEmpty then .truncated else .ok

/-- The small file, and then nothing more: its group is announced twice. -/
theorem impatient_hears_twice :
    let d := decoderInit (some limitsDefault) (respondent impatient) [] (Stream'.const true)
      (Stream'.const true)
    let pieces : List Piece := [⟨sampleFile, false⟩, ⟨[], false⟩]
    (∃ e rest, (d.feeds pieces).user = .record e :: .record e :: rest) ∧
      (d.feed ⟨sampleFile, false⟩).1 = .ok ∧ ¬ DeliversOnce id impatient d pieces := by
  intro d pieces
  have htwice : ∃ e rest, (d.feeds pieces).user = .record e :: .record e :: rest := by
    refine ⟨⟨RecordType.group.code, 0, 72, 82, 124, 0, 0, false⟩, (d.feeds pieces).user.drop 2, ?_⟩
    decide +kernel
  refine ⟨htwice, by decide +kernel, fun honce => ?_⟩
  obtain ⟨e, rest, heq⟩ := htwice
  exact honce.once [.record e] (.record e) rest heq e (List.mem_singleton_self _) rfl

/-- The small file in one feed: the session is over at the first callback. -/
theorem impatient_once :
    let d := decoderInit (some limitsDefault) (respondent impatient) [] (Stream'.const true)
      (Stream'.const true)
    DeliversOnce id impatient d [⟨sampleFile, true⟩] ∧
      (d.feed ⟨sampleFile, true⟩).1 = .partialTail := by
  refine ⟨(decoderFeeds_once_iff limitsDefault (respondent_answers impatient) [] rfl
    (Stream'.const true) (Stream'.const true) [⟨sampleFile, true⟩]).mpr ?_, by decide +kernel⟩
  rw [eachBehind_cons]
  refine ⟨?_, eachBehind_nil⟩
  intro hmore
  cases hmore

end Tide
