import Tide.Format.Reader

/-!
# One encoding for one number

`tide_write_uleb128` and `tide_reader_read_uleb128` are inverse to each other, for all 64-bit
numbers and at all places in all strings (`uleb128_bijection`).

What the reader refuses is said in terms of strings of groups of seven bits in general
(`Spells`), with as many leading zeros as one likes and for numbers of any size: it refuses
all that spell a number beyond 64 bits, and all that are longer than they need be.
-/

namespace Tide

open Theory

/-- Groups of seven bits, low group first, and the number they spell; all groups but the last
have the high bit of their byte set. -/
inductive Spells : Bytes → ℕ → Prop where
  | last {b : UInt8} : b.toNat < 128 → Spells [b] b.toNat
  | more {b : UInt8} {bs : Bytes} {n : ℕ} : 128 ≤ b.toNat → Spells bs n →
      Spells (b :: bs) (b.toNat % 128 + n * 128)

/-- The minimal encoding spells its number. -/
theorem spells_leb128 (n : ℕ) : Spells (leb128 n) n := by
  induction n using Nat.strongRecOn with
  | ind n ih =>
    by_cases hn : n < 128
    · have hb : (UInt8.ofNat n).toNat = n := UInt8.toNat_ofNat_of_lt' (by change n < 256; omega)
      have h := Spells.last (b := UInt8.ofNat n) (by rw [hb]; exact hn)
      rwa [hb, ← leb128_of_lt hn] at h
    · have hb : (UInt8.ofNat (n % 128 + 128)).toNat = n % 128 + 128 :=
        UInt8.toNat_ofNat_of_lt' (by change _ < 256; omega)
      have h := Spells.more (b := UInt8.ofNat (n % 128 + 128)) (by rw [hb]; omega)
        (ih (n / 128) (by omega))
      rwa [hb, ← leb128_of_le (by omega), show (n % 128 + 128) % 128 + n / 128 * 128 =
        n by omega] at h

/-- Nothing shorter spells the number. -/
theorem length_leb128_le_of_spells {bs : Bytes} {n : ℕ} (h : Spells bs n) :
    (leb128 n).length ≤ bs.length := by
  induction h with
  | last hb => simp [leb128_of_lt hb]
  | @more b bs n hb h ih =>
    by_cases hn : n = 0
    · rw [leb128_of_lt (by omega)]
      simp
    · rw [leb128_of_le (by omega), List.length_cons, List.length_cons,
        show (b.toNat % 128 + n * 128) / 128 = n by omega]
      exact Nat.succ_le_succ ih

/-- No string of groups begins with another. -/
theorem Spells.unique_append {a b : Bytes} {m n : ℕ} (ha : Spells a m) (hb : Spells b n)
    {x y : Bytes} (h : a ++ x = b ++ y) :
    a = b ∧ m = n := by
  induction ha generalizing b n with
  | last hlt =>
    cases hb with
    | last _ =>
      obtain ⟨rfl, -⟩ := List.cons.inj h
      exact ⟨rfl, rfl⟩
    | more hge _ =>
      obtain ⟨rfl, -⟩ := List.cons.inj h
      omega
  | more hge _ ih =>
    cases hb with
    | last hlt =>
      obtain ⟨rfl, -⟩ := List.cons.inj h
      omega
    | more _ hb =>
      obtain ⟨rfl, hrest⟩ := List.cons.inj h
      obtain ⟨rfl, rfl⟩ := ih hb hrest
      exact ⟨rfl, rfl⟩

/-- Beyond the end of its string a reader reads no varint. -/
theorem readUleb128_run_of_lt {reader : Reader} (h : reader.data.length < reader.offset) :
    readerReadUleb128.run reader = none := by
  have hhas : ¬ readerHas reader 1 := fun hhas => absurd hhas.1 (Nat.not_le.mpr h)
  have hbyte : readerReadU8.run reader = none := if_neg hhas
  rw [readerReadUleb128, readUleb128Loop, StateT.run_bind, hbyte]
  rfl

/-- **What is read at any position**: the encoding that stands there. -/
theorem readUleb128_run_iff (reader reader' : Reader) (v : UInt64) :
    readerReadUleb128.run reader = some (v, reader') ↔
      writeUleb128 v <+: reader.data.drop reader.offset ∧
        reader' = { reader with offset := reader.offset + (writeUleb128 v).length } := by
  by_cases hoff : reader.offset ≤ reader.data.length
  · have hmid := Cursor.eq_mid hoff
    have hlen : (reader.data.take reader.offset).length = reader.offset :=
      List.length_take_of_le hoff
    have hdata : ∀ bs post, reader.data.drop reader.offset = bs ++ post →
        Cursor.mid (reader.data.take reader.offset ++ bs) post =
          { reader with offset := reader.offset + bs.length } := by
      intro bs post h
      rw [Cursor.mid, List.append_assoc, ← h, List.take_append_drop, List.length_append, hlen]
    rw [hmid, decodes_uleb128, ← hmid]
    constructor
    · rintro ⟨bs, post, rfl, hrest, rfl⟩
      exact ⟨⟨post, hrest.symm⟩, hdata _ _ hrest⟩
    · rintro ⟨⟨post, hrest⟩, rfl⟩
      exact ⟨_, post, rfl, hrest.symm, (hdata _ _ hrest.symm).symm⟩
  · have hpos := (length_writeUleb128 v).1
    rw [readUleb128_run_of_lt (Nat.not_le.mp hoff), List.drop_eq_nil_of_le (by omega)]
    refine iff_of_false (by simp) fun h => ?_
    rw [List.prefix_nil.mp h.1] at hpos
    cases hpos

/-- **Numbers and accepted encodings are in bijection.** A number is written in up to ten bytes,
as many as the size function says, and read back from them with whatever before and behind; what is
read anywhere is what is written for the number read. What spells a number beyond 64 bits, or one
that a shorter string spells, is not read. -/
theorem uleb128_bijection :
    (∀ v : UInt64, (writeUleb128 v).length = uleb128Size v ∧ uleb128Size v ≤ 10) ∧
      (∀ (v : UInt64) (before after : Bytes),
        readerReadUleb128.run ⟨before ++ (writeUleb128 v ++ after), before.length⟩ =
          some (v, ⟨before ++ (writeUleb128 v ++ after), before.length + uleb128Size v⟩)) ∧
      (∀ (reader reader' : Reader) (v : UInt64), readerReadUleb128.run reader = some (v, reader') →
        reader'.data = reader.data ∧ reader'.offset = reader.offset + uleb128Size v ∧
          (reader.data.drop reader.offset).take (uleb128Size v) = writeUleb128 v) ∧
      ∀ (bs : Bytes) (n : ℕ), Spells bs n → (2 ^ 64 ≤ n ∨ ∃ bs', Spells bs' n ∧
        bs'.length < bs.length) →
        ∀ before after : Bytes, readerReadUleb128.run ⟨before ++ (bs ++ after), before.length⟩ =
          none := by
  refine ⟨fun v => ?_, ?_, ?_, ?_⟩
  · rw [uleb128Size_eq]
    exact ⟨rfl, (length_writeUleb128 v).2⟩
  · intro v before after
    refine (readUleb128_run_iff ..).mpr ⟨?_, by rw [uleb128Size_eq]⟩
    rw [List.drop_left]
    exact List.prefix_append ..
  · intro reader reader' v hrun
    obtain ⟨hpre, rfl⟩ := (readUleb128_run_iff ..).mp hrun
    rw [uleb128Size_eq]
    exact ⟨rfl, rfl, (List.prefix_iff_eq_take.mp hpre).symm⟩
  · intro bs n hbs hbad before after
    rw [Option.eq_none_iff_forall_ne_some]
    rintro ⟨v, reader'⟩ hrun
    obtain ⟨⟨post, hpost⟩, -⟩ := (readUleb128_run_iff ..).mp hrun
    rw [List.drop_left, writeUleb128_eq] at hpost
    obtain ⟨rfl, rfl⟩ := (spells_leb128 v.toNat).unique_append hbs hpost
    rcases hbad with hbig | ⟨bs', hbs', hshort⟩
    · exact absurd v.toNat_lt (Nat.not_lt.mpr hbig)
    · exact absurd (length_leb128_le_of_spells hbs') (Nat.not_le.mpr hshort)

end Tide
