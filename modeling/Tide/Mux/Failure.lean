import Tide.Mux.Output

/-!
# Calls to a mux that fail

`tide_write_record` appends a record in four pieces, and takes none back if one of them
finds no room. A call that fails may thus leave the beginning of a record in the output,
and the mux goes on behind it: the calls after it may succeed, and the file is written with
the fragment inside. `tide_mux_append_footer` has no such failure, since it writes the record
to a buffer of its own first.

* `Mux.keeps_iff_whole`: a call that fails leaves the output as it was if and only if the
  record, once begun, finds room as a whole (`Mux.Whole`), which is a condition on the
  state before the call.
* `failedCalls_keep_iff`: along a run of calls, whatever they return, this is the case at
  each call if and only if no failed call changes the output and the output in the end is
  the header, one record for each call that returned `OK`, and the footer.
-/

namespace Tide

/-- The sizes of the pieces of a record with `n` bytes of payload. -/
def recordSizes (h : RecordHead) (n : ℕ) : List ℕ :=
  [h.headerSize n, n, h.paddedSize n - (h.headerSize n + n), 4]

theorem map_length_recordPieces (h : RecordHead) (payload : Bytes) :
    (recordPieces h payload).map List.length = recordSizes h payload.length := by
  simp [recordPieces, recordSizes]

/-! ### One call -/

/-- The record of `c` is begun: its payload can be encoded, its sizes do not wrap, and there is
room for its prefix. -/
def Mux.Begins (mux : Mux) (c : Content) : Prop :=
  mux.Encodes c ∧ (c.head mux.sequence).SizeFits c.payload.length ∧
    mux.buffer.HasRoom [(c.head mux.sequence).headerSize c.payload.length]

/-- If the record of `c` is begun, there is room for all of it. -/
def Mux.Whole (mux : Mux) (c : Content) : Prop :=
  mux.Begins c → mux.buffer.HasRoom (recordSizes (c.head mux.sequence) c.payload.length)

instance (mux : Mux) (c : Content) : Decidable (mux.Begins c) :=
  inferInstanceAs (Decidable (mux.Encodes c ∧ _ ≤ sizeMax ∧ Buffer.HasRoom _ _))

instance (mux : Mux) (c : Content) : Decidable (mux.Whole c) :=
  inferInstanceAs (Decidable (mux.Begins c → Buffer.HasRoom _ _))

/-- If the call fails, the output is what it was. -/
def Mux.Keeps (mux : Mux) (c : Content) : Prop :=
  (mux.call c).1 ≠ .ok → (mux.call c).2.buffer.data = mux.buffer.data

/-- Appending the pieces of a record fails without a trace if and only if there is no room
for the first of them, or room for them all. -/
theorem appendAll_keeps_iff (b : Buffer) {p : Bytes} (hp : p ≠ []) (ps : List Bytes) :
    ((appendAll b (p :: ps)).1 ≠ .ok → (appendAll b (p :: ps)).2.data = b.data) ↔
      (b.HasRoom [p.length] → b.HasRoom ((p :: ps).map List.length)) := by
  have hfirst : b.HasRoom [p.length] ↔ (bufferAppend b p).1 = .ok := by
    rw [b.hasRoom_cons_iff]
    exact and_iff_left trivial
  rw [← appendAll_eq_ok_iff, hfirst]
  constructor
  · intro hkeeps hok
    by_contra hfail
    -- the first piece is there, and nothing is taken back
    have hr : bufferAppend b p = (.ok, (bufferAppend b p).2) := Prod.ext hok rfl
    have hdata := hkeeps hfail
    have hpre := appendAll_isPrefix (bufferAppend b p).2 ps
    rw [appendAll, hr, andThen_ok] at hdata
    rw [hdata, bufferAppend_ok hok] at hpre
    have hle := hpre.length_le
    rw [List.length_append] at hle
    exact hp (List.eq_nil_of_length_eq_zero (by omega))
  · intro hall hfail
    obtain ⟨-, ⟨hok, -⟩ | ⟨hres, hdata⟩⟩ := bufferAppend_cases b p
    · exact absurd (hall hok) hfail
    · rw [appendAll, andThen_of_ne (by simp [hres]), hdata]

/-- **A call that fails leaves the output as it was** if and only if a record that is begun
has room as a whole. -/
theorem Mux.keeps_iff_whole (mux : Mux) (c : Content) : mux.Keeps c ↔ mux.Whole c := by
  unfold Mux.Keeps Mux.Whole Mux.Begins
  obtain ⟨hnot, -, -, hbuffer⟩ | ⟨henc, hsize, -, error, hcall⟩ := mux.call_cases c
  · exact ⟨fun _ h => absurd h.1 hnot, fun _ _ => by rw [hbuffer]⟩
  rw [hcall]
  dsimp only
  have h3 : (3 : UInt8) ≤ 4 := by decide
  by_cases hfits : (c.head mux.sequence).SizeFits c.payload.length
  · have hwrite := writeRecord_eq mux.buffer c.type.code 0 h3 mux.sequence hsize hfits
    have hne : (c.head mux.sequence).prefixBytes c.payload.length ≠ [] := by
      have hbounds := (c.head mux.sequence).headerSize_bounds c.payload.length
      rw [← List.length_pos_iff, RecordHead.length_prefixBytes]
      omega
    have hiff := appendAll_keeps_iff mux.buffer hne
      ((recordPieces (c.head mux.sequence) c.payload).tail)
    rw [RecordHead.length_prefixBytes] at hiff
    rw [hwrite, ← map_length_recordPieces]
    exact hiff.trans ⟨fun h h' => h h'.2.2, fun h h' => h ⟨henc, hfits, h'⟩⟩
  · rw [writeRecord_wraps mux.buffer c.type.code 0 h3 mux.sequence hsize hfits]
    exact ⟨fun _ h => absurd h.2.1 hfits, fun _ _ => rfl⟩

/-! ### Runs -/

/-- The mux after the calls, whatever they returned. -/
def Mux.after (mux : Mux) : List Content → Mux
  | [] => mux
  | c :: cs => (mux.call c).2.after cs

/-- `P` holds of each call in the state in which it is made. -/
def Mux.Along (P : Mux → Content → Prop) (mux : Mux) : List Content → Prop
  | [] => True
  | c :: cs => P mux c ∧ (mux.call c).2.Along P cs

/-- The contents of the calls that returned `OK`, each with the sequence number it got. -/
def Mux.successes (mux : Mux) : List Content → List (UInt64 × Content)
  | [] => []
  | c :: cs =>
    if (mux.call c).1 = .ok then
      (mux.sequence, c) :: (mux.call c).2.successes cs else (mux.call c).2.successes cs

/-- The records of contents with their sequence numbers. -/
def recordsBytes (rs : List (UInt64 × Content)) : Bytes :=
  rs.flatMap fun r => (r.2.head r.1).bytes r.2.payload

theorem Mux.along_congr {P Q : Mux → Content → Prop} (h : ∀ mux c, P mux c ↔ Q mux c) (mux : Mux)
    (cs : List Content) :
    mux.Along P cs ↔ mux.Along Q cs := by
  induction cs generalizing mux with
  | nil => rfl
  | cons c cs ih => exact and_congr (h mux c) (ih _)

/-- No call closes a mux or changes whether it writes a footer. -/
theorem Mux.call_frame (mux : Mux) (c : Content) :
    (mux.call c).2.closed = mux.closed ∧ (mux.call c).2.writeFooter = mux.writeFooter := by
  obtain ⟨-, -, hext, -⟩ | ⟨-, -, -, error, hcall⟩ := mux.call_cases c
  · exact ⟨hext.closed, hext.writeFooter⟩
  · rw [hcall]
    exact ⟨rfl, rfl⟩

theorem Mux.after_frame (mux : Mux) (cs : List Content) :
    (mux.after cs).closed = mux.closed ∧ (mux.after cs).writeFooter = mux.writeFooter := by
  induction cs generalizing mux with
  | nil => exact ⟨rfl, rfl⟩
  | cons c cs ih =>
    obtain ⟨h1, h2⟩ := mux.call_frame c
    obtain ⟨h3, h4⟩ := ih (mux.call c).2
    exact ⟨h3.trans h1, h4.trans h2⟩

/-- **The output after calls none of which leaves a fragment**: one record for each call that
returned `OK`. -/
theorem Mux.after_data {mux : Mux} {cs : List Content} (h : mux.Along Mux.Keeps cs) :
    (mux.after cs).buffer.data = mux.buffer.data ++ recordsBytes (mux.successes cs) := by
  induction cs generalizing mux with
  | nil => exact (List.append_nil _).symm
  | cons c cs ih =>
    obtain ⟨hkeeps, hrest⟩ := h
    rw [Mux.after, ih hrest, Mux.successes]
    by_cases hok : (mux.call c).1 = .ok
    · rw [if_pos hok, (Mux.call_ok hok).1.data, recordsBytes, recordsBytes, List.flatMap_cons,
        List.append_assoc]
    · rw [if_neg hok, hkeeps hok]

/-- The header, the records and the footer, if there is one, with this sequence number. -/
def wholeOutput (options : Option MuxOptions) (rs : List (UInt64 × Content))
    (sequence : UInt64) : Bytes :=
  let output := (muxHeader options).bytes ++ recordsBytes rs
  output ++ (if muxWriteFooter options then footerForest sequence output else .nil).bytes

/-- **When failed calls leave no trace.** Along a run of calls to a mux no failed call changes
the output, and what is handed to `fwrite` in the end is the header, one record for each
call that returned `OK` and the footer, if and only if at each call a record that is begun
has room as a whole. -/
theorem failedCalls_keep_iff (options : Option MuxOptions) (opened : Bool) (allocs : Stream' Bool)
    (scratch : Stream' (Stream' Bool)) (mux : Mux)
    (hcreate : muxCreate options opened allocs scratch = (.ok, some mux)) (cs : List Content) :
    (mux.Along Mux.Keeps cs ∧ ∀ written flushed bytes, (muxClose (mux.after cs) written flushed).2 =
      some bytes →
        bytes = wholeOutput options (mux.successes cs) (mux.after cs).sequence) ↔
      mux.Along Mux.Whole cs := by
  have hiff := Mux.along_congr Mux.keeps_iff_whole mux cs
  refine ⟨fun h => hiff.mp h.1, fun hwhole => ⟨hiff.mpr hwhole, ?_⟩⟩
  intro written flushed bytes hclose
  obtain ⟨-, hdata, -, -, -, hclosed, hfooter⟩ := muxCreate_ok hcreate
  obtain ⟨hframe, hframe'⟩ := mux.after_frame cs
  obtain ⟨hfinish, rfl⟩ := muxClose_eq_some hclose
  have hafter := Mux.after_data (hiff.mpr hwhole)
  rw [hdata] at hafter
  rw [(Mux.finish_ok (hframe.trans hclosed) hfinish).1, hafter, hframe', hfooter]
  rfl

/-! ### Two runs -/

/-- A mux without a footer whose output may grow to `limit` bytes. -/
def tightOptions (limit : UInt64) : Option MuxOptions :=
  some ⟨{ limitsDefault with maxAggregateAlloc := limit }, ⟨1, 1000⟩, false⟩

/-- What `tide_mux_create` answers with these options on a machine on which nothing fails. -/
def tightCreate (limit : UInt64) : Status × Option Mux :=
  muxCreate (tightOptions limit) true (Stream'.const true) (Stream'.const (Stream'.const true))

/-- A mux with room for a stream and a packet. -/
def snugMux : Mux := (tightCreate 180).2.get (by decide +kernel)

/-- A mux with room for its header and not much more. -/
def tightMux : Mux := (tightCreate 100).2.get (by decide +kernel)

/-- A stream and two packets of it; for the second one the mux with 180 bytes has no room. -/
def threeContents : List Content :=
  [.stream ⟨1, 0, 2, 7, ⟨1, 1000⟩, []⟩, .packet ⟨1, 0, 0, 0, 0, 40, 1, [0x2a]⟩,
    .packet ⟨1, 0, 1, 40, 40, 40, 1, [0x2b]⟩]

theorem threeContents_keep :
    ((snugMux.after (threeContents.take 2)).call (.packet ⟨1, 0, 1, 40, 40, 40, 1, [0x2b]⟩)).1 =
      .resource ∧
      snugMux.Along Mux.Keeps threeContents ∧ ∀ written flushed bytes,
        (muxClose (snugMux.after threeContents) written flushed).2 = some bytes →
          bytes = wholeOutput (tightOptions 180) (snugMux.successes threeContents)
            (snugMux.after threeContents).sequence := by
  have hok : (tightCreate 180).1 = .ok := by decide +kernel
  have hcreate : tightCreate 180 = (.ok, some snugMux) := Prod.ext hok (Option.some_get _).symm
  have hwhole : snugMux.Along Mux.Whole threeContents :=
    ⟨by decide +kernel, by decide +kernel, by decide +kernel, trivial⟩
  exact ⟨by decide +kernel, (failedCalls_keep_iff _ _ _ _ snugMux hcreate threeContents).mpr hwhole⟩

/-- The prefix of a packet is left in the output by a call that fails with `RESOURCE`. -/
theorem fragment_left :
    ¬ ∀ (options : Option MuxOptions) (opened : Bool) (allocs : Stream' Bool)
    (scratch : Stream' (Stream' Bool))
    (mux : Mux) (_ : muxCreate options opened allocs scratch = (.ok, some mux)) (cs : List Content),
    mux.Along Mux.Keeps cs ∧ ∀ written flushed bytes, (muxClose (mux.after cs) written flushed).2 =
      some bytes →
      bytes = wholeOutput options (mux.successes cs) (mux.after cs).sequence := by
  intro hall
  have hok : (tightCreate 100).1 = .ok := by decide +kernel
  have hcreate : tightCreate 100 = (.ok, some tightMux) := Prod.ext hok (Option.some_get _).symm
  obtain ⟨⟨hkeeps, -⟩, -⟩ := hall _ _ _ _ tightMux hcreate [.packet ⟨1, 0, 0, 0, 0, 40, 1, [0x2a]⟩]
  have hfail : (tightMux.call (.packet ⟨1, 0, 0, 0, 0, 40, 1, [0x2a]⟩)).1 ≠ .ok := by decide +kernel
  have hleft : (tightMux.call (.packet ⟨1, 0, 0, 0, 0, 40, 1, [0x2a]⟩)).2.buffer.data.length = 82 :=
    by decide +kernel
  have hbefore : tightMux.buffer.data.length = 72 := by decide +kernel
  have hlen := congrArg List.length (hkeeps hfail)
  rw [hleft, hbefore] at hlen
  exact absurd hlen (by decide)

end Tide
