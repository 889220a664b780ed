import Tide.Format.Canonical

/-!
# Bursts

`tide_crc32c` tells apart any two strings of one length that differ within four consecutive
bytes (`crc32c_ne_of_burst`), so `tide_validate_record_integrity` refuses a record with a
changed payload or padding when the change lies within four consecutive bytes
(`bursts_refused`): it finds a padding byte that is not zero, or a checksum that does not
match.
-/

namespace Tide

/-- Strings of one length that differ at most at the `n` places from `k` on. -/
def SameOutside (a b : Bytes) (k n : ℕ) : Prop :=
  a.length = b.length ∧ ∀ i, i < k ∨ k + n ≤ i → a[i]? = b[i]?

theorem SameOutside.take_eq {a b : Bytes} {k n m : ℕ} (h : SameOutside a b k n) (hm : m ≤ k) :
    a.take m = b.take m := by
  apply List.ext_getElem?
  intro i
  rw [List.getElem?_take, List.getElem?_take]
  by_cases hi : i < m
  · rw [if_pos hi, if_pos hi, h.2 i (.inl (by omega))]
  · rw [if_neg hi, if_neg hi]

theorem SameOutside.drop_eq {a b : Bytes} {k n m : ℕ} (h : SameOutside a b k n) (hm : k + n ≤ m) :
    a.drop m = b.drop m := by
  apply List.ext_getElem?
  intro i
  rw [List.getElem?_drop, List.getElem?_drop, h.2 (m + i) (.inr (by omega))]

/-- The same places of both strings differ as the strings do. -/
theorem SameOutside.slice {a b : Bytes} {k n : ℕ} (h : SameOutside a b k n) (offset size : ℕ) :
    SameOutside (slice a offset size) (slice b offset size) (k - offset) n := by
  refine ⟨by simp [Tide.slice, h.1], fun i hi => ?_⟩
  rw [Tide.slice, Tide.slice, List.getElem?_take, List.getElem?_take, List.getElem?_drop,
    List.getElem?_drop]
  split
  · exact h.2 _ (by omega)
  · rfl

/-- **Bursts of 32 bits are detected**: strings of one length that differ, but only within four
consecutive bytes, have different checksums. -/
theorem crc32c_ne_of_burst {a b : Bytes} {k : ℕ} (h : SameOutside a b k 4) (hne : a ≠ b) :
    crc32c a ≠ crc32c b := by
  -- before the window, the window, and behind it
  have split : ∀ x : Bytes, x.take k ++ ((x.drop k).take 4 ++ x.drop (k + 4)) = x := fun x => by
    rw [← List.drop_drop, List.take_append_drop, List.take_append_drop]
  have hlen : ((a.drop k).take 4).length = ((b.drop k).take 4).length := by
    rw [List.length_take, List.length_take, List.length_drop, List.length_drop, h.1]
  intro hcrc
  rw [← split a, ← split b, h.take_eq (Nat.le_refl _), h.drop_eq (Nat.le_refl _)] at hcrc
  have hwindow := crc32c_window_inj hlen (List.length_take_le ..) hcrc
  refine hne ?_
  rw [← split a, ← split b, h.take_eq (Nat.le_refl _), h.drop_eq (Nat.le_refl _), hwindow]

/-- The check fails with `FORMAT` or with `INTEGRITY`. -/
theorem code_of_integrity {data : Bytes} {f : RecordFrame} {e : Error}
    (h : validateRecordIntegrity data f = .error e) :
    e.code = .format ∨ e.code = .integrity := by
  unfold validateRecordIntegrity at h
  split at h
  · cases h
    exact .inl rfl
  dsimp only at h
  split at h
  · cases h
    exact .inr rfl
  · cases h

/-- A frame that passes the check holds the checksum of its bytes. -/
theorem stored_of_integrity {data : Bytes} {f : RecordFrame}
    (h : validateRecordIntegrity data f = .ok ()) :
    joinU32 (slice data f.paddingEnd 4) =
      crc32c (slice data f.offset (f.paddingEnd - f.offset)) := by
  unfold validateRecordIntegrity at h
  split at h
  · cases h
  dsimp only at h
  split at h
  · cases h
  · rename_i hstored
    exact not_not.mp hstored

/-- The parts of an accepted record lie one behind the other. -/
theorem Accepts.parts {data : Bytes} {size offset : ℕ} {depth : UInt8} {f : RecordFrame}
    (hacc : Accepts data size offset depth f) :
    f.offset ≤ f.payloadOffset ∧ f.payloadOffset ≤ f.paddingEnd := by
  obtain ⟨h, n, -, -, -, -, rfl⟩ := (decodeRecordPrefix_eq_frame_iff hacc.sized).mp hacc.framed
  have hpad := h.le_paddedSize n
  simp only [RecordHead.frameAt]
  omega

/-- A record whose payload and padding differ from those of an accepted one, only within four
consecutive bytes, is refused. -/
theorem integrity_ne_ok_of_burst {data data' : Bytes} {f : RecordFrame} {k : ℕ}
    (hoff : f.offset ≤ f.payloadOffset) (hpad : f.payloadOffset ≤ f.paddingEnd)
    (hok : validateRecordIntegrity data f = .ok ()) (hburst : SameOutside data data' k 4)
    (hrest : ∀ i, i < f.payloadOffset ∨ f.paddingEnd ≤ i → data[i]? = data'[i]?)
    (hne : data ≠ data') :
    validateRecordIntegrity data' f ≠ .ok () := by
  have hinside : SameOutside data data' f.payloadOffset (f.paddingEnd - f.payloadOffset) :=
    ⟨hburst.1, fun i hi => hrest i (by omega)⟩
  have hbody : slice data f.offset (f.paddingEnd - f.offset) ≠ slice data' f.offset (f.paddingEnd -
      f.offset) := by
    intro heq
    refine hne ?_
    -- before the record, its bytes up to the checksum, and what follows
    have split : ∀ x : Bytes, x.take f.offset ++ (slice x f.offset (f.paddingEnd - f.offset) ++
        x.drop f.paddingEnd) = x := by
      intro x
      have hend : f.offset + (f.paddingEnd - f.offset) = f.paddingEnd := by omega
      rw [slice, ← hend, ← List.drop_drop, hend, List.take_append_drop, List.take_append_drop]
    rw [← split data, ← split data', hinside.take_eq hoff, heq, hinside.drop_eq (by omega)]
  have hstored : slice data f.paddingEnd 4 = slice data' f.paddingEnd 4 := by
    rw [slice, slice, hinside.drop_eq (by omega)]
  intro hok'
  have hcrc := stored_of_integrity hok
  rw [hstored, stored_of_integrity hok'] at hcrc
  exact crc32c_ne_of_burst (hburst.slice f.offset (f.paddingEnd - f.offset)) hbody hcrc.symm

/-- The prefix of a record is read as it was as long as its own bytes are those they were. -/
theorem Accepts.framed_of_take {data data' : Bytes} {size offset : ℕ} {depth : UInt8}
    {f : RecordFrame} (hacc : Accepts data size offset depth f)
    (htake : data.take f.payloadOffset = data'.take f.payloadOffset) :
    decodeRecordPrefix data' size offset depth = .frame f := by
  have hsize := hacc.within
  obtain ⟨h, n, ha, hfit, hle, hpre, rfl⟩ :=
    (decodeRecordPrefix_eq_frame_iff hacc.sized).mp hacc.framed
  refine (decodeRecordPrefix_eq_frame_iff hacc.sized).mpr ⟨h, n, ha, hfit, hle, ?_, rfl⟩
  have hpad := h.le_paddedSize n
  have hwhole : h.size n = h.paddedSize n + 4 := rfl
  have hfirst : h.headerSize n ≤ size - offset := by omega
  rw [slice_of_le hfirst] at hpre ⊢
  have hbytes : h.prefixBytes n = slice data offset (h.headerSize n) := by
    refine (List.prefix_of_prefix_length_le hpre (List.prefix_append ..) ?_).eq_of_length ?_ <;>
      rw [length_slice (by omega), h.length_prefixBytes]
  rw [hbytes, slice_congr htake (Nat.le_refl _)]
  exact List.prefix_append ..

/-- **Bursts are refused.** Strings of one length that differ only within four consecutive bytes
have different checksums; and where a record is accepted, any change of payload and padding within
four consecutive bytes leaves its prefix accepted and makes the check of its integrity answer
`FORMAT` or `INTEGRITY`. -/
theorem bursts_refused :
    (∀ (a b : Bytes) (k : ℕ), SameOutside a b k 4 → a ≠ b → crc32c a ≠ crc32c b) ∧
      ∀ (data data' : Bytes) (size offset k : ℕ) (depth : UInt8) (f : RecordFrame),
        Accepts data size offset depth f →
        SameOutside data data' k 4 → (∀ i, i < f.payloadOffset ∨ f.paddingEnd ≤ i →
          data[i]? = data'[i]?) → data ≠ data' →
        decodeRecordPrefix data' size offset depth = .frame f ∧
          ∃ e, validateRecordIntegrity data' f = .error e ∧
            (e.code = .format ∨ e.code = .integrity) := by
  refine ⟨fun a b k h hne => crc32c_ne_of_burst h hne, ?_⟩
  intro data data' size offset k depth f hacc hburst hrest hne
  obtain ⟨hoff, hpad⟩ := hacc.parts
  have htake : data.take f.payloadOffset = data'.take f.payloadOffset := by
    have hinside : SameOutside data data' f.payloadOffset (f.paddingEnd - f.payloadOffset) :=
      ⟨hburst.1, fun i hi => hrest i (by omega)⟩
    exact hinside.take_eq (Nat.le_refl _)
  refine ⟨hacc.framed_of_take htake, ?_⟩
  have hbad := integrity_ne_ok_of_burst hoff hpad hacc.intact hburst hrest hne
  cases hres : validateRecordIntegrity data' f with
  | ok u => exact absurd hres hbad
  | error e => exact ⟨e, rfl, code_of_integrity hres⟩

/-- The sample with another payload is refused. -/
theorem sampleRecord_burst : crc32c sampleRecord ≠ crc32c (sampleRecord.set 10 5) ∧
    ∃ e, validateRecordIntegrity (sampleRecord.set 10 5) sampleFrame = .error e ∧
      (e.code = .format ∨ e.code = .integrity) := by
  have hsame : ∀ i, i ≠ 10 → sampleRecord[i]? = (sampleRecord.set 10 5)[i]? := fun i hi =>
    (List.getElem?_set_ne (fun h => hi h.symm)).symm
  have hburst : SameOutside sampleRecord (sampleRecord.set 10 5) 10 4 :=
    ⟨(List.length_set ..).symm, fun i hi => hsame i (by omega)⟩
  have hne : sampleRecord ≠ sampleRecord.set 10 5 := by decide
  have hrest : ∀ i, i < sampleFrame.payloadOffset ∨ sampleFrame.paddingEnd ≤ i →
      sampleRecord[i]? = (sampleRecord.set 10 5)[i]? := by
    intro i hi
    change i < 10 ∨ 11 ≤ i at hi
    exact hsame i (by omega)
  exact ⟨bursts_refused.1 _ _ _ hburst hne,
    (bursts_refused.2 _ _ 15 0 10 0 _ sampleRecord_accepted hburst hrest hne).2⟩

end Tide
