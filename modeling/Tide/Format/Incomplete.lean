import Tide.Format.Feed

/-!
# Incomplete and malformed prefixes

`tide_reader_read_uleb128` answers 0 both when it runs out of bytes and when the varint
is malformed: not minimal, or wider than 64 bits. `tide_decode_record_prefix` makes
`TRUNCATED` of both. Bytes that hold no malformed varint (`PrefixSound`) are
incomplete, and there are bytes that complete them; of a malformed one the answer is
`TRUNCATED` whatever follows, so the decoder waits for ever and the parser takes the
rest of the file for a partial tail.
-/

namespace Tide

open Theory

variable {σ : Type}

/-! ### Varints -/

/-- Bytes that are all to be continued, and fewer than a varint may have. -/
def VarintOpen (bs : Bytes) : Prop := bs.length < 10 ∧ ∀ b ∈ bs, 0x80 ≤ b

instance (bs : Bytes) :
    Decidable (VarintOpen bs) := @instDecidableAnd _ _ (Nat.decLt _ _) (List.decidableBAll _ _)

/-- The bytes end inside a varint, or there is a whole one, minimal and of 64 bits, and the
rest is as `next` says. -/
def VarintThen (next : Bytes → Prop) (bs : Bytes) : Prop :=
  VarintOpen bs ∨ ∃ (v : UInt64) (rest : Bytes), bs = writeUleb128 v ++ rest ∧ next rest

/-- All bytes of a minimal encoding but the last are to be continued. -/
theorem continued_of_leb128 {n : ℕ} {bs tail : Bytes} (h : bs ++ tail = leb128 n)
    (ht : tail ≠ []) : ∀ b ∈ bs, 0x80 ≤ b := by
  induction bs generalizing n with
  | nil => nofun
  | cons c bs ih =>
    obtain ⟨-, -, hnil⟩ | ⟨hc, n', -, -, hn'⟩ := (cons_eq_leb128_iff ..).mp h
    · exact absurd (List.append_eq_nil_iff.mp hnil).2 ht
    · exact List.forall_mem_cons.mpr ⟨UInt8.le_iff_toNat_le.mpr hc, ih hn'⟩

/-- Bytes to be continued are completed by a one. -/
theorem leb128_of_continued {bs : Bytes} (h : ∀ b ∈ bs, 0x80 ≤ b) :
    ∃ n, bs ++ [1] = leb128 n ∧ n ≠ 0 ∧ n < 2 ^ (7 * bs.length + 1) := by
  induction bs with
  | nil => exact ⟨1, by rw [leb128_of_lt (by decide)]; rfl, by decide, by decide⟩
  | cons b bs ih =>
    obtain ⟨hb, hbs⟩ := List.forall_mem_cons.mp h
    obtain ⟨n, hn, hne, hlt⟩ := ih hbs
    refine ⟨b.toNat % 128 + n * 128, ?_, by omega, ?_⟩
    · exact (cons_eq_leb128_iff ..).mpr (.inr ⟨UInt8.le_iff_toNat_le.mp hb, n, hne, rfl, hn⟩)
    · rw [List.length_cons, show 7 * (bs.length + 1) + 1 = 7 * bs.length + 1 +
        7 by omega, Nat.pow_add]
      omega

/-- Bytes that end inside a varint are completed by a one. -/
theorem VarintOpen.complete {bs : Bytes} (h : VarintOpen bs) :
    ∃ v : UInt64, bs ++ [1] = writeUleb128 v := by
  obtain ⟨n, hn, -, hlt⟩ := leb128_of_continued h.2
  have hpow : 2 ^ (7 * bs.length + 1) ≤ 2 ^ 64 :=
    Nat.pow_le_pow_right (by decide) (by have := h.1; omega)
  refine ⟨UInt64.ofNat n, ?_⟩
  rw [writeUleb128_eq, UInt64.toNat_ofNat_of_lt' (show n < 2 ^ 64 by omega), hn]

/-- Bytes that begin with a varint once some are added hold no malformed one. -/
theorem varintThen_of_append {bs t rest : Bytes} {v : UInt64}
    (h : bs ++ t = writeUleb128 v ++ rest) :
    VarintThen (fun r => r ++ t = rest) bs := by
  obtain ⟨tail, hv, rfl⟩ | ⟨c, rfl, rfl⟩ := List.append_eq_append_iff.mp h
  · by_cases htail : tail = []
    · subst htail
      exact .inr ⟨v, [], by simpa using hv.symm, rfl⟩
    · refine .inl ⟨?_, continued_of_leb128 (by rw [← hv, writeUleb128_eq]) htail⟩
      have h10 := (length_writeUleb128 v).2
      have hpos := List.length_pos_iff.mpr htail
      rw [hv, List.length_append] at h10
      omega
  · exact .inr ⟨v, c, rfl, rfl⟩

/-! ### Prefixes -/

/-- The bytes behind the first eight hold no malformed varint: they end inside the
payload size or inside the sequence number, or hold them both. -/
def PrefixSound (bs : Bytes) : Prop :=
  bs.length < 8 ∨ VarintThen (VarintThen fun _ => True) (bs.drop 8)

/-- What is read of a prefix: any eight bytes and two varints. -/
theorem exists_readPrefix_iff (bs : Bytes) : (∃ x, readPrefix.run (readerInit bs) = some x) ↔
    ∃ (fixed : Bytes) (v v' : UInt64) (rest : Bytes), fixed.length = 8 ∧
      bs = fixed ++ (writeUleb128 v ++ (writeUleb128 v' ++ rest)) := by
  constructor
  · rintro ⟨⟨p, r⟩, hrun⟩
    obtain ⟨_, rest, ⟨reserved, rfl⟩, rfl, -⟩ := (readPrefix_run_iff ..).mp hrun
    exact ⟨writeU16 p.type ++
      (writeU16 p.flags ++ (writeU16 p.headerSize ++ ([p.alignmentLog2] ++ [reserved]))),
        p.payloadSize, p.sequence, rest, rfl, by simp⟩
  · rintro ⟨fixed, v, v', rest, h8, rfl⟩
    match fixed, h8 with
    | [a, b, c, d, e, f, alignment, reserved], _ =>
      let p : PrefixFields := ⟨joinU16 [a, b], joinU16 [c, d], joinU16 [e, f], alignment, v, v'⟩
      refine ⟨(p, _), (readPrefix_run_iff ..).mpr ⟨_, rest, ⟨reserved, rfl⟩, ?_, rfl⟩⟩
      simp only [p, writeU16_joinU16 (show [a, b].length = 2 from rfl),
        writeU16_joinU16 (show [c, d].length = 2 from rfl),
          writeU16_joinU16 (show [e, f].length = 2 from rfl)]
      simp

/-- Bytes that are read as a prefix once some are added hold no malformed varint. -/
theorem prefixSound_of_append {bs t : Bytes} {x : PrefixFields × Reader}
    (h : readPrefix.run (readerInit (bs ++ t)) = some x) :
    PrefixSound bs := by
  obtain ⟨fixed, v, v', rest, h8, heq⟩ := (exists_readPrefix_iff _).mp ⟨x, h⟩
  by_cases hlt : bs.length < 8
  · exact .inl hlt
  have hdrop := congrArg (List.drop 8) heq
  rw [List.drop_append_of_le_length (by omega), ← h8, List.drop_left, h8] at hdrop
  obtain hopen | ⟨w, r, hw, hr⟩ := varintThen_of_append hdrop
  · exact .inr (.inl hopen)
  · refine .inr (.inr ⟨w, r, hw, ?_⟩)
    obtain hopen | ⟨w', r', hw', -⟩ := varintThen_of_append hr
    · exact .inl hopen
    · exact .inr ⟨w', r', hw', trivial⟩

/-- Bytes that hold no malformed varint are completed to a prefix by ten bytes at most. -/
theorem PrefixSound.complete {bs : Bytes} (h : PrefixSound bs) :
    ∃ t x, t.length ≤ 10 ∧ readPrefix.run (readerInit (bs ++ t)) = some x := by
  have hzero : writeUleb128 0 = [0] := by rw [writeUleb128_eq]; exact leb128_of_lt (by decide)
  suffices hsuff : ∃ (t fixed : Bytes) (v v' : UInt64) (rest : Bytes), t.length ≤ 10 ∧
    fixed.length = 8 ∧
      bs ++ t = fixed ++ (writeUleb128 v ++ (writeUleb128 v' ++ rest)) by
    obtain ⟨t, fixed, v, v', rest, h10, h8, heq⟩ := hsuff
    obtain ⟨x, hx⟩ := (exists_readPrefix_iff _).mpr ⟨fixed, v, v', rest, h8, heq⟩
    exact ⟨t, x, h10, hx⟩
  by_cases hlt : bs.length < 8
  · refine ⟨List.replicate (8 - bs.length) 0 ++ (writeUleb128 0 ++ writeUleb128 0),
      bs ++ List.replicate (8 - bs.length) 0, 0, 0, [], ?_, ?_, by simp⟩
    · simp only [hzero, List.length_append, List.length_replicate, List.length_cons,
        List.length_nil]
      omega
    · simp only [List.length_append, List.length_replicate]
      omega
  have hfixed : (bs.take 8).length = 8 := List.length_take_of_le (by omega)
  have hsplit : bs = bs.take 8 ++ bs.drop 8 := (List.take_append_drop 8 bs).symm
  obtain hopen | ⟨v, rest, hv, hrest⟩ := h.resolve_left hlt
  · obtain ⟨v, hv⟩ := hopen.complete
    refine ⟨1 :: writeUleb128 0, bs.take 8, v, 0, [], by rw [hzero]; decide, hfixed, ?_⟩
    rw [← hv, List.append_assoc, ← List.append_assoc (bs.take 8), ← hsplit, List.append_nil]
    rfl
  · obtain hopen | ⟨v', rest', rfl, -⟩ := hrest
    · obtain ⟨v', hv'⟩ := hopen.complete
      refine ⟨[1], bs.take 8, v, v', [], by decide, hfixed, ?_⟩
      rw [← hv', List.append_nil, ← List.append_assoc (writeUleb128 v), ← hv, ← List.append_assoc,
        ← hsplit]
    · refine ⟨[], bs.take 8, v, v', rest', by decide, hfixed, ?_⟩
      rw [← hv, ← hsplit, List.append_nil]

/-! ### `tide_decode_record_prefix` -/

section

variable {data : Bytes} {n offset : ℕ} {depth : UInt8}

/-- What lies behind `offset`, when bytes are added. -/
theorem slice_extended (hoff : offset ≤ n) (hn : n ≤ data.length) (S : Bytes) :
    slice (data.take n ++ S) offset (n + S.length - offset) =
      slice data offset (n - offset) ++ S := by
  rw [slice, slice, List.drop_append_of_le_length (by rw [List.length_take_of_le hn]; exact hoff),
    List.drop_take, List.take_of_length_le]
  rw [List.length_append, List.length_take, List.length_drop]
  omega

/-- **A malformed varint is `TRUNCATED` whatever follows.** -/
theorem truncated_of_not_sound (hoff : offset ≤ n) (hn : n ≤ data.length)
    (hs : ¬ PrefixSound (slice data offset (n - offset))) (depth : UInt8) (S : Bytes) :
    decodeRecordPrefix (data.take n ++ S) (n + S.length) offset depth = .truncated := by
  unfold decodeRecordPrefix
  split
  · rfl
  · rw [slice_extended hoff hn]
    cases hrun : readPrefix.run (readerInit (slice data offset (n - offset) ++ S)) with
    | none => rfl
    | some x => exact absurd (prefixSound_of_append hrun) hs

/-- The checks on a prefix do not answer `TRUNCATED` if there are bytes enough. -/
theorem frameOfPrefix_enough (p : PrefixFields) (consumed offset : ℕ) (depth : UInt8) (m : ℕ) :
    ∃ size, m ≤ size ∧ (m ≤ sizeMax → size ≤ sizeMax) ∧
      frameOfPrefix p consumed size offset depth ≠ .truncated := by
  unfold frameOfPrefix
  by_cases hhead : p.headerSize.toNat ≠ consumed ∨ p.alignmentLog2 > 4
  · exact ⟨m, Nat.le_refl m, id, by rw [if_pos hhead]; nofun⟩
  simp only [if_neg hhead]
  cases hends : frameEnds p offset with
  | none => exact ⟨m, Nat.le_refl m, id, nofun⟩
  | some e =>
    obtain ⟨payloadEnd, paddingEnd, crcEnd⟩ := e
    have hlt := crcEnd.toNat_lt
    refine ⟨max m crcEnd.toNat, Nat.le_max_left .., fun h => by unfold sizeMax at h ⊢; omega, ?_⟩
    dsimp only
    rw [if_neg (by omega)]
    nofun

/-- **What is incomplete can be completed.** -/
theorem exists_not_truncated (hoff : offset ≤ n) (hn : n ≤ data.length)
    (hs : PrefixSound (slice data offset (n - offset))) (depth : UInt8) :
    ∃ S : Bytes, decodeRecordPrefix (data.take n ++ S) (n + S.length) offset depth ≠ .truncated ∧
      (n + 10 ≤ sizeMax → n + S.length ≤ sizeMax) := by
  obtain ⟨t, ⟨p, r⟩, h10, hrun⟩ := hs.complete
  obtain ⟨size, hle, hmax, hne⟩ := frameOfPrefix_enough p r.offset offset depth (n + t.length)
  have hrun' := decodes_prefix.extend (Nat.zero_le _) hrun
    (List.replicate (size - (n + t.length)) 0)
  have hsize : n + (t ++ List.replicate (size - (n + t.length)) 0).length = size := by
    rw [List.length_append, List.length_replicate]
    omega
  refine ⟨t ++ List.replicate (size - (n + t.length)) 0, ?_,
    fun h => by rw [hsize]; exact hmax (by omega)⟩
  have h8 : 8 ≤ size - offset := by
    obtain ⟨fixed, v, v', rest, hfixed, heq⟩ := (exists_readPrefix_iff _).mp ⟨_, hrun⟩
    have := congrArg List.length heq
    simp only [List.length_append, slice, List.length_take, List.length_drop] at this
    omega
  unfold decodeRecordPrefix
  rw [slice_extended hoff hn, hsize, if_neg (by omega), ← List.append_assoc, readerInit, hrun']
  exact hne

/-- The record at `offset` is complete: it is refused, or it ends with the bytes. -/
def RecordComplete (data : Bytes) (size offset : ℕ) (depth : UInt8) : Prop :=
  (∃ e, decodeRecordPrefix data size offset depth = .rejected e) ∨
    ∃ f, decodeRecordPrefix data size offset depth = .frame f ∧ f.crcEnd = size

/-- Bytes that complete a record, and no more. -/
theorem exists_exact (hoff : offset ≤ n) (hn : n ≤ data.length)
    (hs : PrefixSound (slice data offset (n - offset)))
    (ht : decodeRecordPrefix data n offset depth = .truncated) (hmax : n + 10 ≤ sizeMax) :
    ∃ S : Bytes, n + S.length ≤ sizeMax ∧ RecordComplete (data.take n ++ S)
    (n + S.length) offset depth := by
  obtain ⟨S, hne, hle⟩ := exists_not_truncated hoff hn hs depth
  have hle := hle hmax
  cases hdec : decodeRecordPrefix (data.take n ++ S) (n + S.length) offset depth with
  | truncated => exact absurd hdec hne
  | rejected e => exact ⟨S, hle, .inl ⟨e, hdec⟩⟩
  | frame f =>
    have hcrc := (ends_le_of_frame hdec).2
    have hlt : n < f.crcEnd := by
      by_contra hnot
      have hcut := decodeRecordPrefix_shrink hle hdec (Nat.le_add_right n S.length)
        (Nat.not_lt.mp hnot)
      have hsame : decodeRecordPrefix (data.take n ++ S) n offset depth =
          decodeRecordPrefix data n offset depth :=
        decodeRecordPrefix_congr (by
          rw [List.take_append_of_le_length (by rw [List.length_take_of_le hn]), List.take_take,
            Nat.min_self]) depth
      rw [← hsame, hcut] at ht
      cases ht
    have hlen : n + (S.take (f.crcEnd - n)).length = f.crcEnd := by
      rw [List.length_take_of_le (by omega)]
      omega
    refine ⟨S.take (f.crcEnd - n), by omega, .inr ⟨f, ?_, hlen.symm⟩⟩
    have hcut := decodeRecordPrefix_shrink hle hdec hcrc (Nat.le_refl _)
    rw [hlen, ← hcut]
    refine decodeRecordPrefix_congr ?_ depth
    rw [List.take_append, List.take_append, List.length_take_of_le hn, List.take_take,
      List.take_take, Nat.min_self]

end

/-! ### Waiting -/

section

variable {callbacks : Callbacks σ} {trace : σ → List Event} {data : Bytes} {pos : ℕ} {p : Parsing σ}

/-- A round behind the header asks for more exactly if `tide_decode_record_prefix` does. -/
theorem fileStep_eq_more_iff (h72 : 72 ≤ pos) :
    fileStep data pos p = .more ↔ decodeRecordPrefix data data.length pos 0 = .truncated := by
  rw [fileStep, if_neg (by omega)]
  exact recordStep_eq_more_iff ..

/-- A loop that waits at a malformed varint waits there whatever follows. -/
theorem runs_of_not_sound (h72 : 72 ≤ pos) (hlt : pos < data.length)
    (hs : ¬ PrefixSound (data.drop pos)) (S : Bytes) :
    Runs fileStep (data ++ S) pos p (.wait pos p) := by
  refine .more (by rw [List.length_append]; omega) ((fileStep_eq_more_iff h72).mpr ?_)
  have hslice : slice data pos (data.length - pos) = data.drop pos := by
    rw [slice, List.take_of_length_le (by simp)]
  have htr := truncated_of_not_sound (Nat.le_of_lt hlt) (Nat.le_refl _)
    (by rw [hslice]; exact hs) 0 S
  rwa [List.take_length, ← List.length_append] at htr

/-- A loop that waits inside a record goes on once the record is complete: it refuses
it, or it ends behind it. -/
theorem runs_of_sound (hc : p.Calm fun _ => True) (h72 : 72 ≤ pos) (hlt : pos < data.length)
    (hs : PrefixSound (data.drop pos)) (ht : decodeRecordPrefix data data.length pos 0 = .truncated)
    (hmax : data.length + 10 ≤ sizeMax) :
    ∃ S : Bytes, (data ++ S).length ≤ sizeMax ∧ RecordComplete (data ++ S)
    (data ++ S).length pos 0 ∧
      ((∃ r, r.1.Rejects ∧ Runs fileStep (data ++ S) pos p (.stop r)) ∨
        ∃ p', pos < (data ++ S).length ∧
          Runs fileStep (data ++ S) pos p (.wait (data ++ S).length p')) := by
  have hslice : slice data pos (data.length - pos) = data.drop pos := by
    rw [slice, List.take_of_length_le (by simp)]
  obtain ⟨S, hle, hdec⟩ := exists_exact (Nat.le_of_lt hlt) (Nat.le_refl _)
    (by rw [hslice]; exact hs) ht hmax
  rw [List.take_length, ← List.length_append] at hdec
  rw [← List.length_append] at hle
  have hpos : pos < (data ++ S).length := by rw [List.length_append]; omega
  refine ⟨S, hle, hdec, ?_⟩
  have hstep : fileStep (data ++ S) pos p = recordStep (parseRecords (data ++ S)) (data ++ S)
      (data ++ S).length pos 0 p := by
    rw [fileStep, if_neg (by omega)]
  obtain hmore | ⟨r, hstop, hrej, -⟩ | ⟨record, p', hr, hpass, hgo⟩ :=
    recordStep_round 0 (Nat.le_refl _) hle hc h72
  · have htr := (fileStep_eq_more_iff h72).mp (hstep.trans hmore)
    rcases hdec with ⟨e, he⟩ | ⟨f, hf, -⟩
    · rw [htr] at he; cases he
    · rw [htr] at hf; cases hf
  · exact .inl ⟨r, hrej, .stop hpos (hstep.trans hstop)⟩
  · refine .inr ⟨p', hpos, ?_⟩
    have hend : pos + record.bytes.length = (data ++ S).length := by
      rw [show UInt8.ofNat 0 = 0 from rfl] at hgo
      rcases hdec with ⟨e, he⟩ | ⟨f, hf, hcrc⟩
      · unfold recordStep at hgo
        rw [he] at hgo
        cases hgo
      · rw [← hcrc]
        exact recordStep_go_crcEnd hf hgo
    rw [hend] at hgo
    exact .go hpos (hstep.trans hgo) .done

/-- **A truncation verdict means that bytes are missing if and only if there is no malformed
varint.** -/
theorem truncated_completes_iff (data : Bytes) {n offset : ℕ} (hoff : offset ≤ n)
    (hn : n ≤ data.length) (depth : UInt8) :
    (decodeRecordPrefix data n offset depth = .truncated →
        ∃ S : Bytes, decodeRecordPrefix (data.take n ++ S)
          (n + S.length) offset depth ≠ .truncated) ↔
      PrefixSound (slice data offset (n - offset)) := by
  constructor
  · intro h
    by_contra hs
    have hnever := truncated_of_not_sound hoff hn hs depth
    have htr : decodeRecordPrefix data n offset depth = .truncated := by
      rw [← hnever []]
      exact decodeRecordPrefix_congr
        (by rw [List.append_nil]; exact (List.take_take.trans (by rw [Nat.min_self])).symm) depth
    obtain ⟨S, hS⟩ := h htr
    exact hS (hnever S)
  · intro hs _
    obtain ⟨S, hS, -⟩ := exists_not_truncated hoff hn hs depth
    exact ⟨S, hS⟩

/-- **A partial tail may be completed if and only if it holds no malformed varint.** -/
theorem partial_completes_iff {B : Bytes} (hB : B.length + 10 ≤ sizeMax) (L : Limits)
    (hcb : callbacks.Traces trace) (user : σ)
    (hpart : (parseTideBytes B true (some L) callbacks user (Stream'.const true)).1 = .partialTail)
    (h72 : 72 ≤ (parseTideBytes B true (some L) callbacks user
      (Stream'.const true)).2.validPrefix) :
    (∃ S : Bytes, (B ++ S).length ≤ sizeMax ∧
        (parseTideBytes (B ++ S) true (some L) callbacks user (Stream'.const true)).1 ≠
          .partialTail) ↔
      PrefixSound (B.drop (parseTideBytes B true (some L) callbacks user
        (Stream'.const true)).2.validPrefix) := by
  have hc := hcb.calm (some L) user
  obtain ⟨o, hruns, hparse, hset⟩ := runs_parseTideBytes (show B.length ≤ sizeMax by omega) hc
  -- the parser's answer is that of any outcome of the loop
  have hanswer : ∀ S : Bytes, (B ++ S).length ≤ sizeMax → ∀ o',
      Runs fileStep (B ++ S) 0 (Parsing.start (some L) callbacks user (Stream'.const true)) o' →
      parseTideBytes (B ++ S) true (some L) callbacks user (Stream'.const true) =
        fileVerdict (B ++ S) o' := by
    intro S hS o' ho'
    obtain ⟨o'', hruns'', hparse'', -⟩ := runs_parseTideBytes hS hc
    rw [hparse'', hruns''.det ho']
  rw [hparse] at hpart h72 ⊢
  cases o with
  | stop r => exact absurd hpart (hset.resolve_right (by simp)).2.1
  | wait pos p =>
    obtain ⟨h72', hle, hvp, hcalm⟩ | h0 := hset
    swap
    · cases h0
      exact absurd h72 (show ¬ 72 ≤ 0 by decide)
    rw [fileVerdict, if_neg (show ¬ pos = 0 by omega)] at hpart h72 ⊢
    have hlt : pos < B.length := by
      by_contra hge
      rw [if_pos (by omega)] at hpart
      cases hpart
    rw [hvp]
    constructor
    · rintro ⟨S, hS, hne⟩
      by_contra hs
      have hwait := hruns.resume stepMono_fileStep hS (runs_of_not_sound h72' hlt hs S)
      rw [hanswer S hS _ hwait, fileVerdict, if_neg (by omega),
        if_neg (by rw [List.length_append]; omega)] at hne
      exact hne rfl
    · intro hs
      have htr := (fileStep_eq_more_iff h72').mp (hruns.at_wait.resolve_left (by omega)).2
      obtain ⟨S, hS, -, ⟨r, hrej, hstop⟩ | ⟨p', -, hwait⟩⟩ := runs_of_sound hcalm h72' hlt hs htr hB
      · refine ⟨S, hS, ?_⟩
        rw [hanswer S hS _ (hruns.resume stepMono_fileStep hS hstop)]
        exact hrej.2.1
      · refine ⟨S, hS, ?_⟩
        rw [hanswer S hS _ (hruns.resume stepMono_fileStep hS hwait), fileVerdict,
          if_neg (by rw [List.length_append]; omega), if_pos rfl]
        simp

/-- Feeding pieces one after the other, none of them the last, as long as the status is
`OK`. -/
def decoderFeedAll (d : Decoder σ) : List Bytes → Status × Decoder σ
  | [] => (.ok, d)
  | piece :: pieces =>
    andThen ((decoderFeed d piece false).status, (decoderFeed d piece false).decoder)
      (decoderFeedAll · pieces)

/-- A decoder that has answered `OK` to all its pieces waits where the loop waits. -/
theorem Waits.feedAll {limit : ℕ} {d : Decoder σ} (hw : Waits callbacks limit d data pos p)
    (hcb : callbacks.Traces trace) (pieces : List Bytes)
    (hmax : (data ++ pieces.flatten).length ≤ sizeMax)
    (hlimit : limit = 0 ∨ (data ++ pieces.flatten).length ≤ limit)
    (hok : (decoderFeedAll d pieces).1 = .ok) (hrun : Runs fileStep data pos p (.wait pos p)) :
    ∃ pos' p', Waits callbacks limit (decoderFeedAll d pieces).2 (data ++ pieces.flatten) pos' p' ∧
      Runs fileStep (data ++ pieces.flatten) pos' p' (.wait pos' p') := by
  induction pieces generalizing d data pos p with
  | nil => exact ⟨pos, p, by simpa [decoderFeedAll] using hw, by simpa using hrun⟩
  | cons piece pieces ih =>
    rw [List.flatten_cons, ← List.append_assoc] at hmax hlimit ⊢
    have hle : (data ++ piece).length ≤ (data ++ piece ++ pieces.flatten).length := by
      simp only [List.length_append]
      omega
    obtain ⟨d', hw', hfeed⟩ := hw.fed (hle.trans hmax) (hlimit.imp_right hle.trans)
    obtain ⟨o, hruns, hmore⟩ := hw'.more hcb (hle.trans hmax)
    rw [decoderFeedAll, hfeed] at hok ⊢
    simp only [Bool.false_eq_true, ↓reduceIte] at hok ⊢
    generalize feedMore d' = r at hmore hok ⊢
    rcases r with ⟨status, d''⟩
    obtain ⟨rfl, hok⟩ := (andThen_fst_eq_ok_iff ..).mp hok
    cases o with
    | stop q => exact absurd hmore.2.status.symm hmore.1
    | wait pos' p' =>
      exact ih hmore.2 hmax hlimit hok hruns.again

/-- **A decoder that waits is set going by some bytes if the record it waits for holds no
malformed varint, and waits for ever if it does.** -/
theorem Waits.completes {limit : ℕ} {d : Decoder σ} (hw : Waits callbacks limit d data pos p)
    (hcb : callbacks.Traces trace) (hrun : Runs fileStep data pos p (.wait pos p)) (h72 : 72 ≤ pos)
    (hlt : pos < data.length) (hmax : data.length + 10 ≤ sizeMax) :
    (PrefixSound (data.drop pos) →
        ∃ S, (data ++ S).length ≤ sizeMax ∧ RecordComplete (data ++ S) (data ++ S).length pos 0 ∧
          ((decoderFeed d S false).status ≠ .ok ∨
            (decoderFeed d S false).decoder.parseOffset ≠ pos)) ∧
      (¬ PrefixSound (data.drop pos) → ∀ S : Bytes, (data ++ S).length ≤ sizeMax →
        (limit = 0 ∨ (data ++ S).length ≤ limit) →
        (decoderFeed d S false).status = .ok ∧
          (decoderFeed d S false).decoder.parseOffset = pos) := by
  constructor
  · intro hs
    have htr := (fileStep_eq_more_iff h72).mp (hrun.at_wait.resolve_left (by omega)).2
    obtain ⟨S, hS, hcomplete, hgoes⟩ := runs_of_sound (hw.calm hcb) h72 hlt hs htr hmax
    refine ⟨S, hS, hcomplete, ?_⟩
    by_cases hlimit : limit = 0 ∨ (data ++ S).length ≤ limit
    swap
    · -- the bytes do not fit
      obtain ⟨-, ⟨-, -, hfits⟩ | ⟨hres, -⟩⟩ := bufferAppend_cases d.buffer S
      · rw [Buffer.Fits, hw.bytes, hw.bufferLimit] at hfits
        rw [List.length_append] at hlimit
        exact absurd hfits.2 hlimit
      · have happend : bufferAppend d.buffer S = (.resource, (bufferAppend d.buffer S).2) :=
          Prod.ext hres rfl
        rw [decoderFeed, if_neg (by simp [hw.cancelled]), if_neg (by simp [hw.terminal]), happend]
        exact .inl (by simp)
    obtain ⟨d', hw', hfeed⟩ := hw.fed hS hlimit
    obtain ⟨o, hruns, hmore⟩ := hw'.more hcb hS
    rw [hfeed]
    simp only [Bool.false_eq_true, ↓reduceIte]
    rcases hgoes with ⟨r, hrej, hstop⟩ | ⟨p', -, hwait⟩
    · obtain rfl := hruns.det hstop
      exact .inl (hmore.2.status ▸ hrej.1)
    · obtain rfl := hruns.det hwait
      refine .inr ?_
      rw [hmore.2.offset, List.length_append]
      omega
  · intro hs S hS hlimit
    obtain ⟨d', hw', hfeed⟩ := hw.fed hS hlimit
    obtain ⟨o, hruns, hmore⟩ := hw'.more hcb hS
    obtain rfl := hruns.det (runs_of_not_sound h72 hlt hs S)
    rw [hfeed]
    exact ⟨hmore.1, hmore.2.offset⟩

end

/-- **When a truncation verdict means that bytes are missing**: exactly when the bytes
behind the eight fixed ones hold no malformed varint. Then some bytes complete the
record, and with it a partial tail, and set a decoder going that waits for it; else no bytes do. -/
theorem truncation_verdict_iff {σ : Type} :
    (∀ (data : Bytes) (n offset : ℕ) (depth : UInt8), offset ≤ n → n ≤ data.length →
      ((decodeRecordPrefix data n offset depth = .truncated →
          ∃ S : Bytes, decodeRecordPrefix (data.take n ++ S)
            (n + S.length) offset depth ≠ .truncated) ↔
        PrefixSound (slice data offset (n - offset)))) ∧
    (∀ (B : Bytes) (L : Limits) (callbacks : Callbacks σ) (trace : σ → List Event) (user : σ),
      B.length + 10 ≤ sizeMax →
      callbacks.Traces trace →
      let parse := fun B => parseTideBytes B true (some L) callbacks user (Stream'.const true)
      (parse B).1 = .partialTail → 72 ≤ (parse B).2.validPrefix →
      ((∃ S : Bytes, (B ++ S).length ≤ sizeMax ∧ (parse (B ++ S)).1 ≠ .partialTail) ↔
        PrefixSound (B.drop (parse B).2.validPrefix))) ∧
    (∀ (pieces : List Bytes) (L : Limits) (callbacks : Callbacks σ) (trace : σ →
      List Event) (user : σ), pieces.flatten.length + 10 ≤ sizeMax →
      (L.maxAggregateAlloc = 0 ∨ pieces.flatten.length ≤ L.maxAggregateAlloc.toNat) →
        callbacks.Traces trace →
      let r := decoderFeedAll (decoderInit (some L) callbacks user (Stream'.const true)
        (Stream'.const true)) pieces
      r.1 = .ok → r.2.headerValidated → r.2.parseOffset < pieces.flatten.length →
      (PrefixSound (pieces.flatten.drop r.2.parseOffset) →
        ∃ S, (pieces.flatten ++ S).length ≤ sizeMax ∧
        RecordComplete (pieces.flatten ++ S) (pieces.flatten ++ S).length r.2.parseOffset 0 ∧
        ((decoderFeed r.2 S false).status ≠ .ok ∨ (decoderFeed r.2 S false).decoder.parseOffset ≠
          r.2.parseOffset)) ∧
      (¬ PrefixSound (pieces.flatten.drop r.2.parseOffset) →
        ∀ S : Bytes, (pieces.flatten ++ S).length ≤ sizeMax →
        (L.maxAggregateAlloc = 0 ∨ (pieces.flatten ++ S).length ≤ L.maxAggregateAlloc.toNat) →
        (decoderFeed r.2 S false).status = .ok ∧ (decoderFeed r.2 S false).decoder.parseOffset =
          r.2.parseOffset)) := by
  refine ⟨fun data n offset depth hoff hn => truncated_completes_iff data hoff hn depth, ?_, ?_⟩
  · intro B L callbacks trace user hB hcb parse hpart h72
    exact partial_completes_iff hB L hcb user hpart h72
  · intro pieces L callbacks trace user hB hlimit hcb r hok hheader hlt
    have hw := waits_decoderInit L callbacks user
    obtain ⟨pos, p, hwaits, hruns⟩ :=
      hw.feedAll hcb pieces (show pieces.flatten.length ≤ sizeMax by omega)
      (Limits.aggregate_covers hlimit) hok .done
    have hpos : r.2.parseOffset = pos := hwaits.offset
    have h72 : 72 ≤ pos := by
      have hne := hwaits.headerValidated
      have hbehind := hwaits.behind
      rw [show (decoderFeedAll _ pieces).2.headerValidated = true from hheader] at hne
      have := of_decide_eq_true hne.symm
      omega
    rw [hpos] at hlt ⊢
    obtain ⟨hgoes, hsticks⟩ := hwaits.completes hcb hruns h72 hlt hB
    exact ⟨hgoes, fun hs S hS hl => hsticks hs S hS (Limits.aggregate_covers hl)⟩

/-- The small file, cut four bytes behind its header: record, tail and decoder can be
completed. -/
theorem sampleFile_completes :
    (∃ S : Bytes, decodeRecordPrefix (sampleFile.take 76 ++ S) (76 + S.length) 72 0 ≠ .truncated) ∧
      (∃ S : Bytes, (parseTideBytes (sampleFile.take 76 ++ S) true (some limitsDefault) recorder []
        (Stream'.const true)).1 ≠
        .partialTail) ∧
      ∃ S : Bytes, let d :=
        (decoderFeedAll (decoderInit (some limitsDefault) recorder [] (Stream'.const true)
          (Stream'.const true))
          [sampleFile.take 76]).2
        RecordComplete (sampleFile.take 76 ++ S) (sampleFile.take 76 ++ S).length 72 0 ∧
          ((decoderFeed d S false).status ≠ .ok ∨
            (decoderFeed d S false).decoder.parseOffset ≠ d.parseOffset) := by
  obtain ⟨hhead, htail, hfeed⟩ := @truncation_verdict_iff (List Event)
  refine ⟨(hhead sampleFile 76 72 0 (by decide) (by decide +kernel)).mpr (.inl (by decide +kernel))
    (by decide +kernel), ?_, ?_⟩
  · obtain ⟨S, -, hS⟩ :=
      (htail (sampleFile.take 76) limitsDefault recorder id [] (by decide +kernel) recorder_traces
      (by decide +kernel) (by decide +kernel)).mpr (.inl (by decide +kernel))
    exact ⟨S, hS⟩
  · have hoffset : (decoderFeedAll (decoderInit (some limitsDefault) recorder []
        (Stream'.const true) (Stream'.const true)) [sampleFile.take 76]).2.parseOffset = 72 := by
      decide +kernel
    have hflat : [sampleFile.take 76].flatten = sampleFile.take 76 := List.flatten_singleton
    obtain ⟨S, -, hcomplete, hgoes⟩ :=
      (hfeed [sampleFile.take 76] limitsDefault recorder id [] (by decide +kernel)
      (.inr (by decide +kernel)) recorder_traces (by decide +kernel) (by decide +kernel)
        (by decide +kernel)).1 (.inl (by decide +kernel))
    rw [hoffset, hflat] at hcomplete
    exact ⟨S, hcomplete, hgoes⟩

/-- Eight fixed bytes and a payload size that is not minimal. -/
def malformedPrefix : Bytes := [1, 0, 0, 0, 10, 0, 0, 0, 0x80, 0x00]

theorem malformedPrefix_not_sound : ¬ PrefixSound malformedPrefix := by
  rintro (h | h | ⟨v, rest, h, -⟩)
  · exact absurd h (by decide)
  · exact absurd h (by decide)
  · have hrun := (decodes_uleb128 [] (malformedPrefix.drop 8) v _).mpr ⟨_, rest, rfl, h, rfl⟩
    have hnone : readerReadUleb128.run (Cursor.mid [] (malformedPrefix.drop 8)) = none := by
      decide +kernel
    rw [hnone] at hrun
    cases hrun

/-- No bytes make anything else than `TRUNCATED` of the malformed prefix. -/
theorem malformedPrefix_truncated :
    ¬ ∀ (data : Bytes) (n offset : ℕ) (depth : UInt8), offset ≤ n → n ≤ data.length →
      decodeRecordPrefix data n offset depth = .truncated →
        ∃ S : Bytes, decodeRecordPrefix (data.take n ++ S) (n + S.length) offset depth ≠
          .truncated := by
  intro h
  obtain ⟨S, hS⟩ := h malformedPrefix 10 0 0 (by decide) (by decide) (by decide +kernel)
  have hn : 10 ≤ malformedPrefix.length := by decide
  exact hS (truncated_of_not_sound (Nat.zero_le 10) hn malformedPrefix_not_sound 0 S)

end Tide
