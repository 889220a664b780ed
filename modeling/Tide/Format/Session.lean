import Tide.Theory.Simulation
import Tide.Format.Deliveries

/-!
# Sessions with any client

A decoder that is fed any pieces in any order of `end`, also after it has failed, with
callbacks that return what they like and with any outcomes of the allocations. `Ledger`
ties its state to the deliveries so far: they come from the bytes that were fed, the
track table is that of their streams, and while the decoder is live they lie before
`parse_offset`.

A feed adds deliveries and keeps the ledger (`Ledger.feed`), and at a callback that does
not return `OK` the session is over. There is one exception, `Retries`: a callback for
a top-level record that returns `TRUNCATED` is taken for an incomplete record.
-/

namespace Tide

open Theory

variable {σ : Type}

/-- A piece of the input, and whether it is the last. -/
structure Piece where
  data : Bytes
  finish : Bool

/-- `tide_decoder_feed`, as a call that is answered with a status. -/
def Decoder.feed (d : Decoder σ) (piece : Piece) : Status × Decoder σ :=
  ((decoderFeed d piece.data piece.finish).status, (decoderFeed d piece.data piece.finish).decoder)

/-- What the deliveries so far have to do with the state of a decoder. -/
structure Ledger (L : Limits) (callbacks : Callbacks σ) (d : Decoder σ)
    (ds : List Delivery) : Prop where
  limits : d.limits = L
  callbacks : d.callbacks = callbacks
  bounded : d.buffer.Bounded
  heard : Heard d.buffer.data L 0 72 d.buffer.data.length [] ds d.tracks
  /-- The deliveries of a decoder that is live lie before `parse_offset`. -/
  live : d.terminal = false → d.error.code = .ok ∧
    (d.headerValidated = false ∧ ds = [] ∧ d.tracks = [] ∨
      d.headerValidated = true ∧ 72 ≤ d.parseOffset ∧ d.parseOffset ≤ d.buffer.data.length ∧
        Heard d.buffer.data L 0 72 d.parseOffset [] ds d.tracks)

/-- The user's state as it is, or as `on_error` leaves it. -/
def Callbacks.AfterError (callbacks : Callbacks σ) (user user' : σ) : Prop :=
  user' = user ∨ ∃ f e, callbacks.onError = some f ∧ user' = f user e

/-- In a feed that is not the last, the callback for a top-level record returns `TRUNCATED`,
which is taken for the decoder's own. -/
def Retries (callbacks : Callbacks σ) (user : σ) (piece : Piece) (before : List Delivery)
    (last : Delivery) : Prop :=
  piece.finish = false ∧ last.level = 0 ∧
    (callbacks.call (callbacks.deliver user (before.map Delivery.event)) last.event).1 = .truncated

/-- The feed ends with such a callback, and the record is going to be fetched again. -/
def Refetches (callbacks : Callbacks σ) (user : σ) (piece : Piece) (ds : List Delivery)
    (r : Status × Decoder σ) : Prop :=
  (∃ before last, ds = before ++ [last] ∧ Retries callbacks user piece before last) ∧ r.1 = .ok

/-- The callbacks have all returned `OK`, or the last one did not, and the session is over. -/
def Settles (callbacks : Callbacks σ) (user : σ) (piece : Piece) (ds : List Delivery)
    (r : Status × Decoder σ) : Prop :=
  callbacks.AllOk user (ds.map Delivery.event) ∨
    (∃ before last, ds = before ++ [last] ∧ callbacks.AllOk user (before.map Delivery.event) ∧
      ¬ Retries callbacks user piece before last) ∧ r.1 ≠ .ok ∧ r.2.terminal = true

/-- What a feed does: it makes deliveries and keeps the ledger, or it takes a callback's
`TRUNCATED` for its own. -/
def Feeds (L : Limits) (callbacks : Callbacks σ) (d : Decoder σ) (piece : Piece)
    (ds : List Delivery) (r : Status × Decoder σ) : Prop :=
  ∃ new, callbacks.AfterError (callbacks.deliver d.user (new.map Delivery.event)) r.2.user ∧
    Heard r.2.buffer.data L 0 72 r.2.buffer.data.length [] (ds ++ new) r.2.tracks ∧
    (Ledger L callbacks r.2 (ds ++ new) ∧ Settles callbacks d.user piece new r ∨
      Refetches callbacks d.user piece new r)

section

variable {L : Limits} {callbacks : Callbacks σ} {d : Decoder σ} {ds new : List Delivery}
    {piece : Piece}

/-- A feed that delivers nothing. -/
theorem Ledger.feeds_nothing {d' : Decoder σ} (h : Ledger L callbacks d' ds)
    (hafter : callbacks.AfterError d.user d'.user) (status : Status) :
    Feeds L callbacks d piece ds (status, d') :=
  ⟨[], hafter,
    by rw [List.append_nil]; exact h.heard, .inl ⟨by rwa [List.append_nil], .inl trivial⟩⟩

/-- A feed behind which the session is over. -/
theorem Ledger.feeds_last {d' : Decoder σ} {P : Prop} {status status' : Status}
    (h : Ledger L callbacks d' (ds ++ new))
    (hafter : callbacks.AfterError (callbacks.deliver d.user (new.map Delivery.event)) d'.user)
    (hans : callbacks.AllOk d.user (new.map Delivery.event) ∧ P ∨
      Broken callbacks d.user 0 new status)
    (htrunc : status = .truncated → piece.finish = true) (hst : status ≠ .ok → status' ≠ .ok)
    (hterm : d'.terminal = true) :
    Feeds L callbacks d piece ds (status', d') := by
  refine ⟨new, hafter, h.heard, .inl ⟨h, ?_⟩⟩
  rcases hans with ⟨hall, -⟩ | ⟨before, last, heq, hbefore, -, hne, heqst, -⟩
  · exact .inl hall
  · refine .inr ⟨⟨before, last, heq, hbefore, ?_⟩, hst hne, hterm⟩
    rintro ⟨hmore, hlevel, hcall⟩
    rw [htrunc ((heqst hlevel).trans hcall)] at hmore
    cases hmore

theorem notifyError_eq (d : Decoder σ) :
    (d.notifyError = d) ∨ ∃ f, d.callbacks.onError = some f ∧
      d.notifyError = { d with user := f d.user d.error } := by
  unfold Decoder.notifyError
  cases hf : d.callbacks.onError with
  | none => exact .inl rfl
  | some f => exact .inr ⟨f, rfl, rfl⟩

/-- A decoder that has failed and told `on_error`. -/
theorem ledger_notifyError (hlimits : d.limits = L) (hcb : d.callbacks = callbacks)
    (hb : d.buffer.Bounded)
    (hheard : Heard d.buffer.data L 0 72 d.buffer.data.length [] ds d.tracks) :
    Ledger L callbacks { d.notifyError with terminal := true } ds ∧
      callbacks.AfterError d.user ({ d.notifyError with terminal := true } : Decoder σ).user := by
  obtain heq | ⟨f, hf, heq⟩ := notifyError_eq d
  · rw [heq]
    exact ⟨⟨hlimits, hcb, hb, hheard, nofun⟩, .inl rfl⟩
  · rw [heq]
    exact ⟨⟨hlimits, hcb, hb, hheard, nofun⟩, .inr ⟨f, d.error, hcb ▸ hf, rfl⟩⟩

/-- The deliveries of the loop over records, as a decoder behind its header calls it. -/
theorem Ledger.parse (h : Ledger L callbacks d ds) (hlive : d.terminal = false)
    (hval : d.headerValidated = true) :
    ∃ new, let r := parseRecords d.buffer.data d.parseOffset d.buffer.data.length 0 d.toParsing
      r.2.limits = L ∧ r.2.callbacks = callbacks ∧
        r.2.user = callbacks.deliver d.user (new.map Delivery.event) ∧
      Heard d.buffer.data L 0 72 d.buffer.data.length [] (ds ++ new) r.2.tracks ∧
      (callbacks.AllOk d.user (new.map Delivery.event) ∧
        (r.1 = .ok ∨ r.1 = .truncated → r.2.error.code = .ok) ∧
          (r.1 = .truncated → 72 ≤ r.2.validPrefix ∧ r.2.validPrefix ≤ d.buffer.data.length ∧
            Heard d.buffer.data L 0 72 r.2.validPrefix [] (ds ++ new) r.2.tracks) ∨
        Broken callbacks d.user 0 new r.1) := by
  obtain ⟨herr, ⟨hno, -⟩ | ⟨-, h72, hle, hheard⟩⟩ := h.live hlive
  · rw [hval] at hno
    cases hno
  obtain ⟨new, hv⟩ := parseRecords_visits 0 d.toParsing herr hle (Nat.le_refl _) h.bounded.size
  have hnew := hv.heard
  rw [h.limits] at hnew
  refine ⟨new, hv.limits.trans h.limits, hv.callbacks.trans h.callbacks, ?_,
    hheard.append h72 hle hnew, ?_⟩
  · rw [← h.callbacks]
    exact hv.user
  · rw [← h.callbacks]
    refine hv.answered.imp_left fun ⟨hall, hwait⟩ => ⟨hall, fun hst => ?_, fun hst => ?_⟩
    · exact (congrArg Error.code (hv.error hst)).trans herr
    · obtain ⟨hbegins, hlo, hhi⟩ := hwait hst
      rw [h.limits] at hbegins
      exact ⟨h72.trans hlo, hhi, hheard.append h72 hlo hbegins⟩

/-- The records, when more is to come. -/
theorem Ledger.parseMore (h : Ledger L callbacks d ds) (hlive : d.terminal = false)
    (hval : d.headerValidated = true) (hmore : piece.finish = false) :
    Feeds L callbacks d piece ds d.parseMore := by
  obtain ⟨new, hlimits, hcb, huser, hheard, hans⟩ := h.parse hlive hval
  unfold Decoder.parseMore
  generalize parseRecords d.buffer.data d.parseOffset d.buffer.data.length 0 d.toParsing =
    r at hlimits hcb huser hheard hans
  rcases r with ⟨status, q⟩
  have h72 : 72 ≤ d.buffer.data.length := by
    obtain ⟨-, ⟨hno, -⟩ | ⟨-, h72, hle, -⟩⟩ := h.live hlive
    · rw [hval] at hno
      cases hno
    · omega
  by_cases htrunc : status = .truncated
  · subst htrunc
    refine ⟨new, .inl huser, hheard, ?_⟩
    rcases hans with ⟨hall, herr, hwait⟩ | ⟨before, last, rfl, -, -, -, heq, hne⟩
    · obtain ⟨hlo, hhi, hbegins⟩ := hwait rfl
      exact .inl ⟨⟨hlimits, hcb, h.bounded, hheard,
        fun _ => ⟨herr (.inr rfl), .inr ⟨hval, hlo, hhi, hbegins⟩⟩⟩, .inl hall⟩
    · -- only the callback of a top-level record gets here
      have hlevel : last.level = 0 := by
        by_contra hl
        exact hne hl rfl
      exact .inr ⟨⟨before, last, rfl, hmore, hlevel, (heq hlevel).symm⟩, rfl⟩
  by_cases hok : status = .ok
  · subst hok
    rcases hans with ⟨hall, herr, -⟩ | ⟨_, _, _, _, _, hst, _⟩
    · exact ⟨new, .inl huser, hheard, .inl ⟨⟨hlimits, hcb, h.bounded, hheard, fun _ =>
        ⟨herr (.inl rfl), .inr ⟨hval, h72, Nat.le_refl _, hheard⟩⟩⟩, .inl hall⟩⟩
    · exact absurd rfl hst
  obtain ⟨hledger, hafter⟩ := ledger_notifyError (d := { d with toParsing := q }) hlimits hcb
    h.bounded hheard
  rw [show ({ d with toParsing := q } : Decoder σ).user = callbacks.deliver d.user
    (new.map Delivery.event) from huser] at hafter
  cases status <;>
    first
      | exact absurd rfl htrunc
      | exact absurd rfl hok
      | exact hledger.feeds_last hafter hans (absurd · htrunc) id rfl

/-- The records, at the end. -/
theorem Ledger.parseEnd (h : Ledger L callbacks d ds) (hlive : d.terminal = false)
    (hval : d.headerValidated = true) (hlast : piece.finish = true) :
    Feeds L callbacks d piece ds d.parseEnd := by
  obtain ⟨new, hlimits, hcb, huser, hheard, hans⟩ := h.parse hlive hval
  unfold Decoder.parseEnd
  generalize parseRecords d.buffer.data d.parseOffset d.buffer.data.length 0 d.toParsing =
    r at hlimits hcb huser hheard hans
  rcases r with ⟨status, q⟩
  obtain ⟨hledger, hafter⟩ := ledger_notifyError (d := { d with toParsing := q }) hlimits hcb
    h.bounded hheard
  rw [show ({ d with toParsing := q } : Decoder σ).user = callbacks.deliver d.user
    (new.map Delivery.event) from huser] at hafter
  have hquiet : ∀ offset, Ledger L callbacks { d with toParsing := q, parseOffset := offset,
                                                      terminal := true } (ds ++ new) :=
    fun offset => ⟨hlimits, hcb, h.bounded, hheard, nofun⟩
  cases status with
  | ok => exact (hquiet _).feeds_last (.inl huser) hans (fun _ => hlast) id rfl
  | truncated | partialTail =>
      exact (hquiet d.parseOffset).feeds_last (.inl huser) hans (fun _ => hlast)
        (fun _ => by simp) rfl
  | _ => exact hledger.feeds_last hafter hans (fun _ => hlast) id rfl

/-- The header: it is refused, or the decoder is behind it. -/
theorem Ledger.acceptHeader (h : Ledger L callbacks d ds) (hlive : d.terminal = false) :
    (∃ e, d.acceptHeader = .error e ∧ d.headerValidated = false ∧ e.code ≠ .ok) ∨
      ∃ d', d.acceptHeader = .ok d' ∧ Ledger L callbacks d' ds ∧ d'.terminal = false ∧
        d'.headerValidated = true ∧ d'.user = d.user := by
  unfold Decoder.acceptHeader
  by_cases hval : d.headerValidated = true
  · rw [if_pos hval]
    exact .inr ⟨d, rfl, h, hlive, hval, rfl⟩
  rw [if_neg hval]
  cases hv : validateHeader d.buffer.data d.limits with
  | error e => exact .inl ⟨e, rfl, by simpa using hval, (validateHeader_error hv).1⟩
  | ok u =>
    obtain ⟨herr, ⟨-, rfl, htracks⟩ | ⟨hyes, -⟩⟩ := h.live hlive
    swap; · exact absurd hyes hval
    have h72 : 72 ≤ d.buffer.data.length := by
      by_contra hlt
      rw [validateHeader, if_pos (by omega)] at hv
      cases hv
    refine .inr ⟨_, rfl, ⟨h.limits, h.callbacks, h.bounded, h.heard,
      fun _ => ⟨herr, .inr ⟨rfl, Nat.le_refl _, h72, ?_⟩⟩⟩, hlive, rfl, rfl⟩
    change Heard d.buffer.data L 0 72 72 [] [] d.tracks
    rw [htracks]
    exact .nil

/-- **A feed**, behind the append. -/
theorem Ledger.feedMore (h : Ledger L callbacks d ds) (hlive : d.terminal = false)
    (hmore : piece.finish = false) :
    Feeds L callbacks d piece ds (feedMore d) := by
  unfold Tide.feedMore
  split
  · exact h.feeds_nothing (.inl rfl) _
  obtain ⟨e, haccept, hval, hne⟩ | ⟨d', haccept, h', hlive', hval, huser⟩ := h.acceptHeader hlive
  · rw [haccept]
    obtain ⟨hledger, hafter⟩ := ledger_notifyError (d := { d with error := e }) h.limits h.callbacks
      h.bounded h.heard
    exact hledger.feeds_nothing hafter _
  · rw [haccept]
    have hfeeds := h'.parseMore hlive' hval hmore
    rw [Feeds, huser] at hfeeds
    exact hfeeds

/-- **The last feed**, behind the append. -/
theorem Ledger.feedEnd (h : Ledger L callbacks d ds) (hlive : d.terminal = false)
    (hlast : piece.finish = true) :
    Feeds L callbacks d piece ds (feedEnd d) := by
  unfold Tide.feedEnd
  obtain ⟨e, haccept, hval, hne⟩ | ⟨d', haccept, h', hlive', hval, huser⟩ := h.acceptHeader hlive
  · rw [haccept]
    have hledger : Ledger L callbacks { d with error := e, terminal := true } ds :=
      ⟨h.limits, h.callbacks, h.bounded, h.heard, nofun⟩
    exact hledger.feeds_nothing (.inl rfl) _
  · rw [haccept]
    have hfeeds := h'.parseEnd hlive' hval hlast
    rw [Feeds, huser] at hfeeds
    exact hfeeds

theorem take_eq_of_isPrefix {a b : Bytes} (h : a <+: b) {n : ℕ} (hn : n ≤ a.length) :
    a.take n = b.take n := by
  obtain ⟨rest, hrest⟩ := h
  rw [← hrest, List.take_append_of_le_length hn]

/-- Bytes that are appended, or not, leave the ledger as it is. -/
theorem Ledger.append (h : Ledger L callbacks d ds) (bs : Bytes) :
    Ledger L callbacks { d with buffer := (bufferAppend d.buffer bs).2 } ds := by
  have hpre : d.buffer.data <+: (bufferAppend d.buffer bs).2.data := by
    obtain ⟨-, ⟨-, hdata, -⟩ | ⟨-, hdata⟩⟩ := bufferAppend_cases d.buffer bs
    · rw [hdata]
      exact List.prefix_append ..
    · exact ⟨[], (List.append_nil _).trans hdata.symm⟩
  have hle := hpre.length_le
  have htake := fun n (hn : n ≤ d.buffer.data.length) => take_eq_of_isPrefix hpre hn
  have hbounded := bufferAppend_bounded h.bounded bs
  refine ⟨h.limits, h.callbacks, hbounded, (h.heard.congr (htake _ (Nat.le_refl _))).extend hle,
    fun hlive => ?_⟩
  obtain ⟨herr, hno | ⟨hval, h72, hoff, hheard⟩⟩ := h.live hlive
  · exact ⟨herr, .inl hno⟩
  · exact ⟨herr, .inr ⟨hval, h72, hoff.trans hle, hheard.congr (htake _ hoff)⟩⟩

/-- **What any feed does.** -/
theorem Ledger.feed (h : Ledger L callbacks d ds) (piece : Piece) :
    Feeds L callbacks d piece ds (d.feed piece) := by
  unfold Decoder.feed decoderFeed
  by_cases hcancel : d.cancelled = true
  · rw [if_pos hcancel]
    exact h.feeds_nothing (.inl rfl) _
  rw [if_neg hcancel]
  by_cases hterm : d.terminal = true
  · rw [if_pos hterm]
    exact h.feeds_nothing (.inl rfl) _
  rw [if_neg hterm]
  have hlive : d.terminal = false := by simpa using hterm
  have happend := h.append piece.data
  obtain ⟨-, ⟨hok, -⟩ | ⟨hfail, -⟩⟩ := bufferAppend_cases d.buffer piece.data
  · rw [show bufferAppend d.buffer piece.data = (.ok, (bufferAppend d.buffer piece.data).2)
      from Prod.ext hok rfl]
    cases hfin : piece.finish with
    | false => exact happend.feedMore hlive hfin
    | true => exact happend.feedEnd hlive hfin
  · rw [show bufferAppend d.buffer piece.data = (.resource, (bufferAppend d.buffer piece.data).2)
      from Prod.ext hfail rfl]
    exact happend.feeds_nothing (.inl rfl) _

end

/-! ### What has been fed -/

theorem Decoder.acceptHeader_buffer {d d' : Decoder σ} (h : d.acceptHeader = .ok d') :
    d'.buffer = d.buffer := by
  unfold Decoder.acceptHeader at h
  split at h
  · cases h
    rfl
  · split at h <;> cases h
    rfl

theorem Decoder.notifyError_buffer (d : Decoder σ) : d.notifyError.buffer = d.buffer := by
  obtain heq | ⟨f, -, heq⟩ := notifyError_eq d <;> rw [heq]

/-- A feed appends its piece to what is buffered, or leaves that as it is. -/
theorem Decoder.feed_buffer (d : Decoder σ) (piece : Piece) :
    (d.feed piece).2.buffer = d.buffer ∨
      (d.feed piece).2.buffer = (bufferAppend d.buffer piece.data).2 := by
  have hmore : ∀ d' : Decoder σ, (feedMore d').2.buffer = d'.buffer := by
    intro d'
    unfold feedMore
    split
    · rfl
    split
    · exact Decoder.notifyError_buffer _
    · rename_i d'' haccept
      rw [← Decoder.acceptHeader_buffer haccept]
      unfold Decoder.parseMore
      split
      · rfl
      · rfl
      · exact Decoder.notifyError_buffer _
  have hend : ∀ d' : Decoder σ, (feedEnd d').2.buffer = d'.buffer := by
    intro d'
    unfold feedEnd
    split
    · rfl
    · rename_i d'' haccept
      rw [← Decoder.acceptHeader_buffer haccept]
      unfold Decoder.parseEnd
      split
      · rfl
      · rfl
      · rfl
      · exact Decoder.notifyError_buffer _
  unfold Decoder.feed decoderFeed
  split
  · exact .inl rfl
  split
  · exact .inl rfl
  split
  · rename_i b hb
    rw [hb]
    cases piece.finish with
    | false => exact .inr (hmore _)
    | true => exact .inr (hend _)
  · rename_i hb
    rw [hb]
    exact .inr rfl

/-- The bytes in the buffer are the pieces that could be appended. -/
theorem Decoder.feeds_buffer (d : Decoder σ) (pieces : List Piece) :
    ∃ taken : List Bytes, taken.Sublist (pieces.map Piece.data) ∧
      (answers Decoder.feed d pieces).2.buffer.data = d.buffer.data ++ taken.flatten := by
  induction pieces generalizing d with
  | nil => exact ⟨[], .slnil, by simp [answers]⟩
  | cons piece pieces ih =>
    obtain ⟨taken, hsub, hdata⟩ := ih (d.feed piece).2
    have hkeep : (d.feed piece).2.buffer.data = d.buffer.data ∨
        (d.feed piece).2.buffer.data = d.buffer.data ++ piece.data := by
      obtain hb | hb := d.feed_buffer piece
      · exact .inl (by rw [hb])
      · obtain ⟨-, ⟨-, happ, -⟩ | ⟨-, happ⟩⟩ := bufferAppend_cases d.buffer piece.data
        · exact .inr (by rw [hb, happ])
        · exact .inl (by rw [hb, happ])
    rw [answers]
    rcases hkeep with hkeep | hkeep
    · exact ⟨taken, hsub.cons _, by rw [hdata, hkeep]⟩
    · exact ⟨piece.data :: taken, hsub.cons_cons _,
        by rw [hdata, hkeep, List.flatten_cons, List.append_assoc]⟩

/-! ### What a feed comes to -/

/-- What a feed comes to, with any client: the decoder takes no bytes, or it waits for the header
or refuses it, or it refuses a record, or the last one is cut short, or it has parsed the records
as far as they go. -/
inductive FeedCase (d : Decoder σ) (piece : Piece) : Status × Decoder σ → Prop
  | closed {status : Status} (hclosed : d.cancelled = true ∨ d.terminal = true)
      (hne : status ≠ .ok) : FeedCase d piece (status, d)
  | full (hfail : (bufferAppend d.buffer piece.data).1 ≠ .ok)
      (hdata : (bufferAppend d.buffer piece.data).2.data = d.buffer.data) :
    FeedCase d piece (.resource, { d with buffer := (bufferAppend d.buffer piece.data).2 })
  | short (hdata : (bufferAppend d.buffer piece.data).2.data = d.buffer.data ++ piece.data)
      (hlive : d.terminal = false)
      (hmore : piece.finish = false) : FeedCase d piece (.ok,
        { d with buffer := (bufferAppend d.buffer piece.data).2 })
  | headerRefused {e : Error} (hlive : d.terminal = false) (hmore : piece.finish = false)
      (hd : Decoder.acceptHeader { d with buffer := (bufferAppend d.buffer piece.data).2 } =
        .error e) :
    FeedCase d piece (e.code,
      { Decoder.notifyError { d with buffer := (bufferAppend d.buffer piece.data).2,
                                     error := e } with terminal := true })
  | headerRefusedLast {e : Error} (hopen : d.cancelled = false ∧ d.terminal = false)
      (hlast : piece.finish = true)
      (hok : (bufferAppend d.buffer piece.data).1 = .ok)
      (hd : Decoder.acceptHeader { d with buffer := (bufferAppend d.buffer piece.data).2 } =
        .error e) :
    FeedCase d piece (if e.code = .truncated then .partialTail else e.code,
      { d with buffer := (bufferAppend d.buffer piece.data).2, error := e, terminal := true })
  | refused {d' : Decoder σ} {r : Status × Parsing σ} (hlive : d.terminal = false)
      (hd : Decoder.acceptHeader { d with buffer := (bufferAppend d.buffer piece.data).2 } = .ok d')
      (hr : parseRecords d'.buffer.data d'.parseOffset d'.buffer.data.length 0 d'.toParsing = r)
        (hok : r.1 ≠ .ok)
      (htrunc : r.1 ≠ .truncated) (hpart : r.1 = .partialTail → piece.finish = false) :
    FeedCase d piece (r.1,
      { Decoder.notifyError { d' with toParsing := r.2 } with terminal := true })
  | cut {d' : Decoder σ} {r : Status × Parsing σ} (hlive : d.terminal = false)
      (hlast : piece.finish = true)
      (hd : Decoder.acceptHeader { d with buffer := (bufferAppend d.buffer piece.data).2 } = .ok d')
      (hr : parseRecords d'.buffer.data d'.parseOffset d'.buffer.data.length 0 d'.toParsing = r)
      (hst : r.1 = .truncated ∨ r.1 = .partialTail) :
    FeedCase d piece (.partialTail, { d' with toParsing := r.2, terminal := true })
  | parsed {d' : Decoder σ} {r : Status × Parsing σ} (hlive : d.terminal = false)
      (hdata : (bufferAppend d.buffer piece.data).2.data = d.buffer.data ++ piece.data)
      (hd : Decoder.acceptHeader { d with buffer := (bufferAppend d.buffer piece.data).2 } = .ok d')
      (hr : parseRecords d'.buffer.data d'.parseOffset d'.buffer.data.length 0 d'.toParsing = r)
      (hst : r.1 = .ok ∨ r.1 = .truncated ∧ piece.finish = false) :
    FeedCase d piece (.ok, { d' with
      toParsing := r.2
      parseOffset := if r.1 = .ok then d'.buffer.data.length else r.2.validPrefix
      terminal := piece.finish })

theorem Decoder.acceptHeader_terminal {d d' : Decoder σ} (h : d.acceptHeader = .ok d') :
    d'.terminal = d.terminal := by
  unfold Decoder.acceptHeader at h
  split at h
  · cases h
    rfl
  · split at h <;> cases h
    rfl

theorem Decoder.acceptHeader_error {d : Decoder σ} {e : Error}
    (h : d.acceptHeader = .error e) : e.code ≠ .ok := by
  unfold Decoder.acceptHeader at h
  split at h
  · cases h
  · split at h
    · cases h
      rename_i hval
      exact (validateHeader_error hval).1
    · cases h

/-- **`tide_decoder_feed`**, case by case. -/
theorem feed_case (d : Decoder σ) (piece : Piece) : FeedCase d piece (d.feed piece) := by
  unfold Decoder.feed decoderFeed
  by_cases hcancel : d.cancelled = true
  · rw [if_pos hcancel]
    exact .closed (.inl hcancel) (by simp)
  rw [if_neg hcancel]
  by_cases hterm : d.terminal = true
  · rw [if_pos hterm]
    exact .closed (.inr hterm) (by simp)
  rw [if_neg hterm]
  have hlive : d.terminal = false := by simpa using hterm
  obtain ⟨-, ⟨hok, hdata, -⟩ | ⟨hfail, hdata⟩⟩ := bufferAppend_cases d.buffer piece.data
  swap
  · rw [show bufferAppend d.buffer piece.data = (.resource, (bufferAppend d.buffer piece.data).2)
      from Prod.ext hfail rfl]
    exact .full (by simp [hfail]) hdata
  rw [show bufferAppend d.buffer piece.data = (.ok, (bufferAppend d.buffer piece.data).2)
    from Prod.ext hok rfl]
  dsimp only
  cases hfin : piece.finish with
  | false =>
    simp only [Bool.false_eq_true, ↓reduceIte]
    unfold feedMore
    split
    · exact .short hdata hlive hfin
    cases haccept : Decoder.acceptHeader
      { d with buffer := (bufferAppend d.buffer piece.data).2 } with
    | error e => exact .headerRefused hlive hfin haccept
    | ok d' =>
      have hmore : d'.terminal = piece.finish := by
        rw [Decoder.acceptHeader_terminal haccept, hfin, hlive]
      dsimp only
      unfold Decoder.parseMore
      rcases hr : parseRecords d'.buffer.data d'.parseOffset d'.buffer.data.length 0
        d'.toParsing with ⟨status, q⟩
      have hparsed := FeedCase.parsed hlive hdata haccept hr
      rw [← hmore] at hparsed
      cases status with
      | ok => exact hparsed (.inl rfl)
      | truncated => exact hparsed (.inr ⟨rfl, hmore.trans hfin⟩)
      | _ => exact .refused hlive haccept hr (by simp) (by simp) fun _ => hfin
  | true =>
    simp only [↓reduceIte]
    unfold feedEnd
    cases haccept : Decoder.acceptHeader
      { d with buffer := (bufferAppend d.buffer piece.data).2 } with
    | error e => exact .headerRefusedLast ⟨by simpa using hcancel, hlive⟩ hfin hok haccept
    | ok d' =>
      dsimp only
      unfold Decoder.parseEnd
      rcases hr : parseRecords d'.buffer.data d'.parseOffset d'.buffer.data.length 0
        d'.toParsing with ⟨status, q⟩
      have hparsed := FeedCase.parsed hlive hdata haccept hr
      rw [hfin] at hparsed
      cases status with
      | ok => exact hparsed (.inl rfl)
      | truncated => exact .cut hlive hfin haccept hr (.inl rfl)
      | partialTail => exact .cut hlive hfin haccept hr (.inr rfl)
      | _ => exact .refused hlive haccept hr (by simp) (by simp) (by simp)

/-- A feed that is answered with `OK` waits for the header, or it has parsed the records. -/
theorem FeedCase.of_ok {d : Decoder σ} {piece : Piece} {r : Status × Decoder σ}
    (h : FeedCase d piece r) (hok : r.1 = .ok) :
    d.terminal = false ∧ (bufferAppend d.buffer piece.data).2.data = d.buffer.data ++ piece.data ∧
      (piece.finish = false ∧ r = (.ok, { d with buffer := (bufferAppend d.buffer piece.data).2 }) ∨
        ∃ d' q, Decoder.acceptHeader { d with buffer := (bufferAppend d.buffer piece.data).2 } =
          .ok d' ∧
          parseRecords d'.buffer.data d'.parseOffset d'.buffer.data.length 0 d'.toParsing = q ∧
          (q.1 = .ok ∨ q.1 = .truncated ∧ piece.finish = false) ∧
          r = (.ok, { d' with
            toParsing := q.2
            parseOffset := if q.1 = .ok then d'.buffer.data.length else q.2.validPrefix
            terminal := piece.finish })) := by
  cases h with
  | closed _ hne => exact absurd hok hne
  | full | cut => cases hok
  | headerRefused _ _ hd => exact absurd hok (Decoder.acceptHeader_error hd)
  | headerRefusedLast _ _ _ hd =>
    dsimp only at hok
    split at hok
    · cases hok
    · exact absurd hok (Decoder.acceptHeader_error hd)
  | refused _ _ _ hne => exact absurd hok hne
  | short hdata hlive hmore => exact ⟨hlive, hdata, .inl ⟨hmore, rfl⟩⟩
  | parsed hlive hdata hd hr hst => exact ⟨hlive, hdata, .inr ⟨_, _, hd, hr, hst, rfl⟩⟩

/-- A decoder that has just been initialised has delivered nothing. -/
theorem ledger_decoderInit (L : Limits) (callbacks : Callbacks σ) (user : σ)
    (allocs bufferAllocs : Stream' Bool) :
    Ledger L callbacks (decoderInit (some L) callbacks user allocs bufferAllocs) [] :=
  ⟨rfl, rfl, Buffer.bounded_empty .., .nil, fun _ => ⟨rfl, .inl ⟨rfl, rfl, rfl⟩⟩⟩

end Tide
