import Tide.Format.Payload

/-!
# What a table that is accepted looks like

The checks of a record's payload accept a grammar, as the programs of the reader decode
one: `Checks.Accepts c G` says that `c` succeeds with `a` exactly when the bytes from the position
on begin with a string that `G` gives `a`. A table whose rows are each checked against the
row before is accepted when every row passes and each is in order with the next.
-/

namespace Tide

open Theory

variable {α β S : Type}

/-- **The checks `c` accept the grammar `G`.** -/
def Checks.Accepts (c : Checks α) (G : α → Bytes → Prop) : Prop :=
  ∀ pre rest a r, c.run (Cursor.mid pre rest) = .ok (a, r) ↔
    ∃ bs post, G a bs ∧ rest = bs ++ post ∧ r = Cursor.mid (pre ++ bs) post

theorem Checks.Accepts.congr {c : Checks α} {G H : α → Bytes → Prop} (h : Checks.Accepts c G)
    (hGH : ∀ a bs, G a bs ↔ H a bs) :
    Checks.Accepts c H := by
  intro pre rest a r
  simp only [h pre rest a r, hGH]

theorem accepts_pure (a : α) : Checks.Accepts (pure a) fun b bs => b = a ∧ bs = [] := by
  intro pre rest b r
  constructor
  · rintro ⟨⟩
    exact ⟨[], rest, ⟨rfl, rfl⟩, rfl, by simp⟩
  · rintro ⟨bs, post, ⟨rfl, rfl⟩, rfl, rfl⟩
    simp [StateT.run_pure]
    rfl

theorem Checks.Accepts.bind {c : Checks α} {f : α → Checks β} {G : α → Bytes → Prop}
    {H : α → β → Bytes → Prop} (hc : Checks.Accepts c G) (hf : ∀ a, Checks.Accepts (f a) (H a)) :
    Checks.Accepts (c >>= f) fun b bs => ∃ a bs₁ bs₂, G a bs₁ ∧ H a b bs₂ ∧ bs = bs₁ ++ bs₂ := by
  intro pre rest b r
  constructor
  · intro h
    rw [StateT.run_bind] at h
    cases hr : c.run (Cursor.mid pre rest) with
    | error e =>
      rw [hr] at h
      cases h
    | ok x =>
      obtain ⟨a, r'⟩ := x
      rw [hr] at h
      obtain ⟨bs₁, post, hG, rfl, rfl⟩ := (hc ..).mp hr
      obtain ⟨bs₂, post', hH, rfl, rfl⟩ := (hf a ..).mp h
      exact ⟨bs₁ ++ bs₂, post', ⟨a, bs₁, bs₂, hG, hH, rfl⟩, by simp, by simp⟩
  · rintro ⟨bs, post, ⟨a, bs₁, bs₂, hG, hH, rfl⟩, rfl, rfl⟩
    have hfirst := (hc pre ((bs₁ ++ bs₂) ++ post) a (Cursor.mid (pre ++ bs₁) (bs₂ ++ post))).mpr
      ⟨bs₁, bs₂ ++ post, hG, by simp, rfl⟩
    have hsecond := (hf a (pre ++ bs₁) (bs₂ ++ post) b (Cursor.mid (pre ++ (bs₁ ++ bs₂)) post)).mpr
      ⟨bs₂, post, hH, rfl, by simp⟩
    rw [StateT.run_bind, hfirst]
    exact hsecond

/-- What the reads of a test decode is what the test accepts. -/
theorem accepts_orError {p : Reads UInt8 α} {G : α → Bytes → Prop} (h : Decodes p G) (e : Error) :
    Checks.Accepts (orError e p) G := by
  intro pre rest a r
  rw [← h pre rest a r]
  constructor
  · intro hr
    unfold orError at hr
    rw [StateT.run] at hr
    split at hr
    · rename_i x hx
      cases hr
      exact hx
    · cases hr
  · intro hr
    unfold orError
    rw [StateT.run, hr]

/-- A payload is accepted as a whole. -/
theorem Checks.Accepts.whole {c : Checks α} {G : α → Bytes → Prop} (h : Checks.Accepts c G)
    (e : Error) (payload : Bytes) :
    (c >>= fun _ => expectEnd e).run' (readerInit payload) = .ok () ↔ ∃ a, G a payload := by
  have hmid : readerInit payload = Cursor.mid [] payload := rfl
  have hend : ∀ r : Reader, (expectEnd e).run r = if r.offset ≠ r.data.length then .error e
      else .ok ((), r) := fun _ => rfl
  rw [hmid]
  change (fun x => x.1) <$> (c >>= fun _ => expectEnd e).run (Cursor.mid [] payload) = _ ↔ _
  rw [StateT.run_bind]
  constructor
  · intro hok
    cases hr : c.run (Cursor.mid [] payload) with
    | error e' =>
      rw [hr] at hok
      cases hok
    | ok x =>
      obtain ⟨a, r⟩ := x
      obtain ⟨bs, post, hG, rfl, rfl⟩ := (h ..).mp hr
      rw [hr] at hok
      change (fun x => x.1) <$> (expectEnd e).run (Cursor.mid ([] ++ bs) post) = _ at hok
      rw [hend] at hok
      split at hok
      · cases hok
      · rename_i hlen
        have hpost : post = [] := by simpa using hlen
        exact ⟨a, by rwa [hpost, List.append_nil]⟩
  · rintro ⟨a, hG⟩
    rw [(h ..).mpr ⟨payload, [], hG, by simp, rfl⟩]
    change (fun x => x.1) <$> (expectEnd e).run (Cursor.mid ([] ++ payload) []) = _
    rw [hend, if_neg (by simp)]
    rfl

/-- The head of a table: a known track and a count within the limit. -/
theorem decodes_tableHead (tracks : List TrackSnapshot) (maxEntries : UInt32) :
    Decodes (readTableHead tracks maxEntries) fun count bs =>
    ∃ trackId generation, bs = writeU32 trackId ++ (writeU32 generation ++ writeUleb128 count) ∧
      count.toNat ≤ maxEntries.toNat ∧
      (findTrack tracks trackId generation).isSome := by
  refine (decodes_u32.bind fun trackId => decodes_u32.bind fun generation =>
    decodes_uleb128.bind fun count =>
    (decodes_guard _).bind fun _ => (decodes_guard _).bind fun _ => decodes_pure count).congr
      fun count bs => ?_
  simp only [not_gt_toUInt64_iff]
  constructor
  · rintro ⟨trackId, _, _, rfl,
      ⟨generation, _, _, rfl, ⟨count, _, _, rfl,
        ⟨_, _, _, ⟨hle, rfl⟩, ⟨_, _, _, ⟨hfind, rfl⟩, ⟨rfl, rfl⟩, rfl⟩, rfl⟩, rfl⟩, rfl⟩, rfl⟩
    exact ⟨trackId, generation, by simp, hle, hfind⟩
  · rintro ⟨trackId, generation, rfl, hle, hfind⟩
    exact ⟨trackId, _, _, rfl,
      ⟨generation, _, _, rfl, ⟨count, _, _, rfl,
        ⟨(), _, _, ⟨hle, rfl⟩, ⟨(), _, _, ⟨hfind, rfl⟩, ⟨rfl, rfl⟩, rfl⟩, rfl⟩, by simp⟩, rfl⟩, rfl⟩

/-! ### Rows in order -/

/-- The rows of a table from the `i`-th on, behind one that left `s`: each passes its own
check and the comparison with what the row before it left, and the last leaves `s'`. -/
def RowsFollow {R : Type} (own : R → Prop) (after : ℕ → S → R → Prop) (leave : R → S) :
    ℕ → S → List R → S → Prop
  | _, s, [], s' => s' = s
  | i, s, row :: rows, s' =>
      (own row ∧ after i s row) ∧ RowsFollow own after leave (i + 1) (leave row) rows s'

section

variable {R : Type} {own : R → Prop}

section

variable {after : ℕ → S → R → Prop} {leave : R → S} {next : R → R → Prop}

/-- Behind a row: it is in order with the first. -/
theorem rowsFollow_succ_iff (hnext : ∀ i a b, after (i + 1) (leave a) b ↔ next a b) (i : ℕ)
    (prev : R) (rows : List R) :
    (∃ s', RowsFollow own after leave (i + 1) (leave prev) rows s') ↔
      (∀ row ∈ rows, own row) ∧ (prev :: rows).IsChain next := by
  induction rows generalizing i prev with
  | nil => simp [RowsFollow]
  | cons row rows ih =>
    simp only [RowsFollow, exists_and_left, ih, List.isChain_cons_cons, List.forall_mem_cons, hnext]
    tauto

/-- From the first row on, which is compared with nothing: each row is in order with the
next. -/
theorem rowsFollow_iff (hnext : ∀ i a b, after (i + 1) (leave a) b ↔ next a b) {s : S}
    (hfirst : ∀ row, after 0 s row) (rows : List R) :
    (∃ s', RowsFollow own after leave 0 s rows s') ↔ (∀ row ∈ rows, own row) ∧
      rows.IsChain next := by
  cases rows with
  | nil => simp [RowsFollow]
  | cons row rows =>
    simp only [RowsFollow, exists_and_left, rowsFollow_succ_iff hnext, List.forall_mem_cons, hfirst]
    tauto

/-- Rows that are each in order with the next are in order with all behind them, when a row
that passes its check leads on from what it follows. -/
theorem isChain_iff_pairwise_of_own {rows : List R} (hown : ∀ row ∈ rows, own row)
    (htrans : ∀ a b c, own b → next a b → next b c → next a c) :
    rows.IsChain next ↔ rows.Pairwise next := by
  refine ⟨fun h => ?_, List.Pairwise.isChain⟩
  induction rows with
  | nil => exact .nil
  | cons a rows ih =>
    have htail := ih (fun row hrow => hown row (List.mem_cons_of_mem a hrow))
      (List.isChain_of_isChain_cons h)
    refine .cons (fun c hc => ?_) htail
    cases rows with
    | nil => cases hc
    | cons b rows =>
      rw [List.isChain_cons_cons] at h
      obtain rfl | hc := List.mem_cons.mp hc
      · exact h.1
      · exact htrans a b c (hown b (by simp)) h.1 ((List.pairwise_cons.mp htail).1 c hc)

/-- **A loop over rows accepts the rows that are in order.** -/
theorem accepts_rowsFollow {bytes : R → Bytes} {entry : ℕ → S → Checks S}
    (h : ∀ i s, Checks.Accepts (entry i s) fun s' bs => ∃ row, bs = bytes row ∧
      (own row ∧ after i s row) ∧ s' = leave row)
    (n i : ℕ) (s : S) :
    Checks.Accepts (forEntries entry n i s) fun s' bs =>
      ∃ rows : List R, rows.length = n ∧ bs = (rows.map bytes).flatten ∧
        RowsFollow own after leave i s rows s' := by
  induction n generalizing i s with
  | zero =>
    apply (accepts_pure s).congr
    intro s' bs
    constructor
    · rintro ⟨rfl, rfl⟩
      exact ⟨[], rfl, rfl, rfl⟩
    · rintro ⟨rows, hlen, rfl, hrows⟩
      obtain rfl := List.eq_nil_of_length_eq_zero hlen
      exact ⟨hrows, rfl⟩
  | succ n ih =>
    apply ((h i s).bind fun next => ih (i + 1) next).congr
    intro s' bs
    constructor
    · rintro ⟨_, _, _, ⟨row, rfl, hrow, rfl⟩, ⟨rows, rfl, rfl, hrows⟩, rfl⟩
      exact ⟨row :: rows, rfl, rfl, hrow, hrows⟩
    · rintro ⟨rows, hlen, rfl, hrows⟩
      cases rows with
      | nil => cases hlen
      | cons row rows =>
        exact ⟨_, _, _, ⟨row, rfl, hrows.1, rfl⟩, ⟨rows, Nat.succ.inj hlen, rfl, hrows.2⟩, rfl⟩

/-- **What a table that is accepted looks like**: a head that gives the number of rows, and
that many rows, each in order with the next. -/
theorem chained_accepted_iff {bytes : R → Bytes} {head : Checks UInt64} {H : UInt64 → Bytes → Prop}
    {entry : ℕ → S → Checks S} (hhead : Checks.Accepts head H)
    (h : ∀ i s, Checks.Accepts (entry i s) fun s' bs => ∃ row, bs = bytes row ∧
      (own row ∧ after i s row) ∧ s' = leave row)
    (hnext : ∀ i a b, after (i + 1) (leave a) b ↔ next a b) {s : S} (hfirst : ∀ row, after 0 s row)
    (e : Error) (payload : Bytes) :
    (do
      let count ← head
      let _ ← forEntries entry count.toNat 0 s
      expectEnd e : Checks Unit).run' (readerInit payload) = .ok () ↔
    ∃ (bs : Bytes) (rows : List R), H (UInt64.ofNat rows.length) bs ∧ rows.length < 2 ^ 64 ∧
      payload = bs ++ (rows.map bytes).flatten ∧
      (∀ row ∈ rows, own row) ∧ rows.IsChain next := by
  rw [← bind_assoc, (hhead.bind fun count => accepts_rowsFollow h count.toNat 0 s).whole]
  constructor
  · rintro ⟨s', count, bs, _, hH, ⟨rows, hlen, rfl, hrows⟩, rfl⟩
    have hcount : UInt64.ofNat rows.length = count := by rw [hlen, UInt64.ofNat_toNat]
    exact ⟨bs, rows, hcount ▸ hH, hlen ▸ count.toNat_lt, rfl,
      (rowsFollow_iff hnext hfirst rows).mp ⟨s', hrows⟩⟩
  · rintro ⟨bs, rows, hH, hlen, rfl, hrows⟩
    obtain ⟨s', hrows⟩ := (rowsFollow_iff hnext hfirst rows).mpr hrows
    exact ⟨s', _, bs, _, hH, ⟨rows, (UInt64.toNat_ofNat_of_lt' hlen).symm, rfl, hrows⟩, rfl⟩

end

variable [LT S] {low high : R → S}

/-- A row that is read and compared with what the row before it left. -/
theorem accepts_row {bytes : R → Bytes} [DecidableLT S] {read : Reads UInt8 α} {value : R → α}
    (h : Decodes read fun a bs => ∃ row, bs = bytes row ∧ own row ∧ a = value row)
    (lower upper : α → S) (e e' : Error) (i : ℕ) (s : S) :
    Checks.Accepts (do
      let a ← orError e read
      orError e' (guard (¬(i ≠ 0 ∧ lower a < s)))
      return upper a) fun s' bs =>
        ∃ row, bs = bytes row ∧ (own row ∧ ¬(i ≠ 0 ∧ lower (value row) < s)) ∧
          s' = upper (value row) := by
  refine ((accepts_orError h e).bind fun a => (accepts_orError (decodes_guard _) e').bind fun _ =>
    accepts_pure _).congr fun s' bs => ?_
  constructor
  · rintro ⟨_, _, _, ⟨row, rfl, hown, rfl⟩, ⟨_, _, _, ⟨hle, rfl⟩, ⟨rfl, rfl⟩, rfl⟩, rfl⟩
    exact ⟨row, by simp, ⟨hown, hle⟩, rfl⟩
  · rintro ⟨row, rfl, ⟨hown, hle⟩, rfl⟩
    exact ⟨_, _, _, ⟨row, rfl, hown, rfl⟩, ⟨(), _, _, ⟨hle, rfl⟩, ⟨rfl, rfl⟩, rfl⟩, by simp⟩

/-- **What a table that is accepted looks like**: a head that gives the number of rows, and
that many rows in order. -/
theorem table_accepted_iff {bytes : R → Bytes} {head : Checks UInt64} {H : UInt64 → Bytes → Prop}
    {entry : ℕ → S → Checks S} (hhead : Checks.Accepts head H)
    (h : ∀ i s, Checks.Accepts (entry i s) fun s' bs => ∃ row, bs = bytes row ∧
      (own row ∧ ¬(i ≠ 0 ∧ low row < s)) ∧ s' = high row)
    (s : S) (e : Error) (payload : Bytes) :
    (do
      let count ← head
      let _ ← forEntries entry count.toNat 0 s
      expectEnd e : Checks Unit).run' (readerInit payload) = .ok () ↔
    ∃ (bs : Bytes) (rows : List R), H (UInt64.ofNat rows.length) bs ∧ rows.length < 2 ^ 64 ∧
      payload = bs ++ (rows.map bytes).flatten ∧
      (∀ row ∈ rows, own row) ∧ rows.IsChain fun a b => ¬low b < high a :=
  chained_accepted_iff hhead h (fun i a b => by simp) (fun row h => h.1 rfl) e payload

end

/-! ### A table is written in one way -/

section

variable {R : Type} {bytes : R → Bytes} {width : ℕ}

theorem length_rows (hwidth : ∀ row, (bytes row).length = width) (rows : List R) :
    (rows.map bytes).flatten.length = rows.length * width := by
  induction rows with
  | nil => simp
  | cons row rows ih => simp [hwidth, ih, Nat.succ_mul, Nat.add_comm]

theorem rows_inj (hwidth : ∀ row, (bytes row).length = width) (hinj : Function.Injective bytes)
    {rows rows' : List R} (hlen : rows.length = rows'.length)
    (h : (rows.map bytes).flatten = (rows'.map bytes).flatten) : rows = rows' := by
  induction rows generalizing rows' with
  | nil => exact (List.eq_nil_of_length_eq_zero hlen.symm).symm
  | cons row rows ih =>
    cases rows' with
    | nil => cases hlen
    | cons row' rows' =>
      simp only [List.map_cons, List.flatten_cons] at h
      obtain ⟨hrow, hrows⟩ := List.append_inj h (by rw [hwidth, hwidth])
      rw [hinj hrow, ih (Nat.succ.inj hlen) hrows]

/-- Rows that are longer than a count, behind a head of a fixed length. -/
theorem table_inj (hwidth : ∀ row, (bytes row).length = width) (hinj : Function.Injective bytes)
    (h10 : 10 ≤ width) {head head' : Bytes} (hhead : head.length = head'.length)
    {rows rows' : List R}
    (h : head ++ (writeUleb128 (UInt64.ofNat rows.length) ++ (rows.map bytes).flatten) = head' ++
      (writeUleb128 (UInt64.ofNat rows'.length) ++ (rows'.map bytes).flatten)) :
    rows = rows' := by
  have hrest := List.append_inj_right h hhead
  have hlen : rows.length = rows'.length := by
    have := congrArg List.length hrest
    simp only [List.length_append, length_rows hwidth] at this
    have hu := length_writeUleb128 (UInt64.ofNat rows.length)
    have hu' := length_writeUleb128 (UInt64.ofNat rows'.length)
    by_contra hne
    rcases Nat.lt_or_gt_of_ne hne with hlt | hlt
    · have := Nat.mul_le_mul_right width hlt
      rw [Nat.succ_mul] at this
      omega
    · have := Nat.mul_le_mul_right width hlt
      rw [Nat.succ_mul] at this
      omega
  rw [hlen] at hrest
  exact rows_inj hwidth hinj hlen (List.append_cancel_left hrest)

end

end Tide
