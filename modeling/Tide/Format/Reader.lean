import Tide.Common
import Tide.Theory.Cursor
import Mathlib.Tactic.Ring

/-!
# The primitive reader and writer

The model of `src/format/reader.c`. A `tide_reader` is a cursor over bytes, and a
function of the reader is a program that reads from it and fails where the source
returns 0. Fixed-width integers are little-endian; lengths and counts are
canonical ULEB128.

Each reading function is given its grammar, which is what the writing function of
the same width writes: `readerReadU16` accepts exactly `writeU16 v` and returns
`v`, and so on up to `readerReadUleb128`, which accepts exactly the minimal
encodings of 64-bit numbers (`decodes_uleb128`).
-/

namespace Tide

open Theory

/-! ### `tide_reader` -/

/-- `tide_reader`: `size` is the length of `data`. -/
abbrev Reader := Cursor UInt8

/-- `tide_reader_init`. -/
def readerInit (data : Bytes) : Reader := ⟨data, 0⟩

/-- `tide_reader_has`. -/
def readerHas (reader : Reader) (size : ℕ) : Prop :=
  reader.offset ≤ reader.data.length ∧ size ≤ reader.data.length - reader.offset

instance (reader : Reader) (size : ℕ) :
    Decidable (readerHas reader size) := by unfold readerHas; infer_instance

/-- `tide_reader_read_bytes`. -/
def readerReadBytes (size : ℕ) : Reads UInt8 Bytes := Cursor.span size

/-- `tide_reader_skip`. -/
def readerSkip (size : ℕ) : Reads UInt8 Unit := do
  let _ ← readerReadBytes size

/-- The word of two bytes, low byte first. -/
def joinU16 (p : Bytes) : UInt16 := (p.getD 0 0).toUInt16 ||| ((p.getD 1 0).toUInt16 <<< 8)

/-- The word of four bytes, low byte first. -/
def joinU32 (p : Bytes) : UInt32 :=
  (p.getD 0 0).toUInt32 ||| ((p.getD 1 0).toUInt32 <<< 8) ||| ((p.getD 2 0).toUInt32 <<< 16) |||
    ((p.getD 3 0).toUInt32 <<< 24)

/-- `tide_reader_read_u8`. -/
def readerReadU8 : Reads UInt8 UInt8 := fun reader =>
  if readerHas reader 1 then
    some (reader.data.getD reader.offset 0, { reader with offset := reader.offset + 1 })
  else none

/-- `tide_reader_read_u16`. -/
def readerReadU16 : Reads UInt8 UInt16 := fun reader =>
  if readerHas reader 2 then
    some (joinU16 (reader.data.drop reader.offset), { reader with offset := reader.offset + 2 })
  else none

/-- `tide_reader_read_u32`. -/
def readerReadU32 : Reads UInt8 UInt32 := fun reader =>
  if readerHas reader 4 then
    some (joinU32 (reader.data.drop reader.offset), { reader with offset := reader.offset + 4 })
  else none

/-- `tide_reader_read_u64`. -/
def readerReadU64 : Reads UInt8 UInt64 := do
  let lo ← readerReadU32
  let hi ← readerReadU32
  return lo.toUInt64 ||| (hi.toUInt64 <<< 32)

/-- `tide_reader_read_i64`: the bytes of the `u64`. -/
def readerReadI64 : Reads UInt8 Int64 := do
  let raw ← readerReadU64
  return raw.toInt64

/-- The loop of `tide_reader_read_uleb128`, from its `i`-th byte, with `fuel` bytes
allowed. -/
def readUleb128Loop : (fuel i : ℕ) → (value : UInt64) → (shift : ℕ) → Reads UInt8 UInt64
  | 0, _, _, _ => failure
  | fuel + 1, i, value, shift => do
    let byte ← readerReadU8
    if shift = 63 ∧ byte &&& 0x7e ≠ 0 then failure
    else
      let value := value ||| ((byte &&& 0x7f).toUInt64 <<< UInt64.ofNat shift)
      if byte &&& 0x80 = 0 then
        if i > 0 ∧ byte = 0 then failure else return value
      else readUleb128Loop fuel (i + 1) value (shift + 7)

/-- `tide_reader_read_uleb128`, of at most `TIDE_MAX_HEADER_VARINT_BYTES` bytes. -/
def readerReadUleb128 : Reads UInt8 UInt64 := readUleb128Loop 10 0 0 0

/-! ### Writing -/

/-- `tide_write_u16`. -/
def writeU16 (value : UInt16) : Bytes :=
  [(value &&& 0xff).toUInt8, ((value >>> 8) &&& 0xff).toUInt8]

/-- `tide_write_u32`. -/
def writeU32 (value : UInt32) : Bytes :=
  [(value &&& 0xff).toUInt8, ((value >>> 8) &&& 0xff).toUInt8, ((value >>> 16) &&& 0xff).toUInt8,
    ((value >>> 24) &&& 0xff).toUInt8]

/-- `tide_write_u64`. -/
def writeU64 (value : UInt64) : Bytes :=
  writeU32 (value &&& 0xffffffff).toUInt32 ++ writeU32 (value >>> 32).toUInt32

/-- `tide_write_i64`. -/
def writeI64 (value : Int64) : Bytes := writeU64 value.toUInt64

/-- `tide_write_uleb128`: the bytes it writes; the count it returns is their number. -/
def writeUleb128 (value : UInt64) : Bytes :=
  let byte := (value &&& 0x7f).toUInt8
  let value' := value >>> 7
  if value' ≠ 0 then (byte ||| 0x80) :: writeUleb128 value' else [byte]
termination_by value.toNat
decreasing_by
  have hne : value'.toNat ≠ 0 := fun h => ‹value' ≠ 0› (UInt64.toNat_inj.mp (by simpa using h))
  simp only [value', UInt64.toNat_shiftRight, UInt64.reduceToNat, Nat.reduceMod,
    Nat.shiftRight_eq_div_pow] at hne ⊢
  omega

/-- `tide_uleb128_size`. -/
def uleb128Size (value : UInt64) : ℕ := if value ≥ 0x80 then uleb128Size (value >>> 7) + 1 else 1
termination_by value.toNat
decreasing_by
  have hge : 128 ≤ value.toNat := UInt64.le_iff_toNat_le.mp ‹value ≥ 0x80›
  simp only [UInt64.toNat_shiftRight, UInt64.reduceToNat, Nat.reduceMod, Nat.shiftRight_eq_div_pow]
  omega

/-! ### Fixed-width integers -/

theorem or_shiftLeft_eq_add {x y k : ℕ} (hx : x < 2 ^ k) : x ||| y <<< k = x + y * 2 ^ k := by
  rw [Nat.or_comm, Nat.shiftLeft_eq, Nat.mul_comm, ← Nat.two_pow_add_eq_or_of_lt hx, Nat.add_comm,
    Nat.mul_comm]

theorem and_255 (x : ℕ) : (x &&& 255) % 2 ^ 8 = x % 256 := by
  rw [show 255 = 2 ^ 8 - 1 by rfl, Nat.and_two_pow_sub_one_eq_mod]
  omega

theorem toNat_joinU16 (a b : UInt8) : (joinU16 [a, b]).toNat = a.toNat + b.toNat * 2 ^ 8 := by
  have ha := a.toNat_lt
  have hb := b.toNat_lt
  have shl : (b.toUInt16 <<< 8).toNat = b.toNat <<< 8 := by
    rw [UInt16.toNat_shiftLeft, UInt8.toNat_toUInt16]
    change b.toNat <<< 8 % 2 ^ 16 = _
    rw [Nat.shiftLeft_eq, Nat.mod_eq_of_lt (by omega)]
  change (a.toUInt16 ||| b.toUInt16 <<< 8).toNat = _
  rw [UInt16.toNat_or, shl, UInt8.toNat_toUInt16, or_shiftLeft_eq_add ha]

theorem toNat_joinU32 (a b c d : UInt8) :
    (joinU32 [a, b, c, d]).toNat = a.toNat + b.toNat * 2 ^ 8 + c.toNat * 2 ^ 16 +
      d.toNat * 2 ^ 24 := by
  have ha := a.toNat_lt
  have hb := b.toNat_lt
  have hc := c.toNat_lt
  have shl : ∀ (b : UInt8) (k : UInt32), k.toNat ≤ 24 →
      (b.toUInt32 <<< k).toNat = b.toNat <<< k.toNat := by
    intro b k hk
    have hb := b.toNat_lt
    rw [UInt32.toNat_shiftLeft, UInt8.toNat_toUInt32, Nat.mod_eq_of_lt (by omega : k.toNat < 32),
      Nat.shiftLeft_eq, Nat.mod_eq_of_lt]
    have := Nat.mul_lt_mul_of_lt_of_le hb (Nat.pow_le_pow_right (show 0 < 2 by decide) hk)
      (by decide)
    omega
  change (a.toUInt32 ||| b.toUInt32 <<< 8 ||| c.toUInt32 <<< 16 ||| d.toUInt32 <<< 24).toNat = _
  rw [UInt32.toNat_or, UInt32.toNat_or, UInt32.toNat_or, shl b 8 (by decide), shl c 16 (by decide),
    shl d 24 (by decide), UInt8.toNat_toUInt32]
  change ((a.toNat ||| b.toNat <<< 8) ||| c.toNat <<< 16) ||| d.toNat <<< 24 = _
  rw [or_shiftLeft_eq_add ha, or_shiftLeft_eq_add (show a.toNat + b.toNat * 2 ^ 8 <
    2 ^ 16 by omega), or_shiftLeft_eq_add (show a.toNat + b.toNat * 2 ^ 8 + c.toNat * 2 ^ 16 <
      2 ^ 24 by omega)]

theorem writeU16_eq (v : UInt16) :
    writeU16 v = [UInt8.ofNat (v.toNat % 256), UInt8.ofNat (v.toNat / 256 % 256)] := by
  simp only [writeU16, List.cons.injEq, and_true, ← UInt8.toNat_inj]
  refine ⟨?_, ?_⟩
  · rw [UInt16.toNat_toUInt8, UInt16.toNat_and, UInt8.toNat_ofNat']
    exact (and_255 _).trans (by omega)
  · rw [UInt16.toNat_toUInt8, UInt16.toNat_and, UInt16.toNat_shiftRight, UInt8.toNat_ofNat',
      Nat.shiftRight_eq_div_pow]
    exact (and_255 _).trans (by change v.toNat / 256 % 256 = _; omega)

theorem writeU32_eq (v : UInt32) :
    writeU32 v = [UInt8.ofNat (v.toNat % 256), UInt8.ofNat (v.toNat / 2 ^ 8 % 256),
      UInt8.ofNat (v.toNat / 2 ^ 16 % 256), UInt8.ofNat (v.toNat / 2 ^ 24 % 256)] := by
  have shr : ∀ k : UInt32, k.toNat < 32 →
      ((v >>> k) &&& 0xff).toUInt8 = UInt8.ofNat (v.toNat / 2 ^ k.toNat % 256) := by
    intro k hk
    rw [← UInt8.toNat_inj, UInt32.toNat_toUInt8, UInt32.toNat_and, UInt32.toNat_shiftRight,
      Nat.mod_eq_of_lt hk, Nat.shiftRight_eq_div_pow, UInt8.toNat_ofNat']
    exact (and_255 _).trans (by omega)
  have low : (v &&& 0xff).toUInt8 = UInt8.ofNat (v.toNat % 256) := by
    rw [← UInt8.toNat_inj, UInt32.toNat_toUInt8, UInt32.toNat_and, UInt8.toNat_ofNat']
    exact (and_255 _).trans (by omega)
  rw [writeU32, low, shr 8 (by decide), shr 16 (by decide), shr 24 (by decide)]
  rfl

@[simp] theorem length_writeU16 (v : UInt16) : (writeU16 v).length = 2 := rfl
@[simp] theorem length_writeU32 (v : UInt32) : (writeU32 v).length = 4 := rfl
@[simp] theorem length_writeU64 (v : UInt64) : (writeU64 v).length = 8 := rfl
@[simp] theorem length_writeI64 (v : Int64) : (writeI64 v).length = 8 := rfl

theorem joinU16_writeU16 (v : UInt16) : joinU16 (writeU16 v) = v := by
  have hv := v.toNat_lt
  rw [writeU16_eq, ← UInt16.toNat_inj, toNat_joinU16, UInt8.toNat_ofNat', UInt8.toNat_ofNat']
  omega

theorem writeU16_joinU16 {bs : Bytes} (h : bs.length = 2) : writeU16 (joinU16 bs) = bs := by
  obtain ⟨a, b, rfl⟩ := List.length_eq_two.mp h
  have ha := a.toNat_lt
  have hb := b.toNat_lt
  rw [writeU16_eq, toNat_joinU16]
  simp only [List.cons.injEq, and_true, ← UInt8.toNat_inj, UInt8.toNat_ofNat']
  omega

theorem joinU32_writeU32 (v : UInt32) : joinU32 (writeU32 v) = v := by
  have hv := v.toNat_lt
  rw [writeU32_eq, ← UInt32.toNat_inj, toNat_joinU32]
  simp only [UInt8.toNat_ofNat']
  omega

theorem writeU32_joinU32 {bs : Bytes} (h : bs.length = 4) : writeU32 (joinU32 bs) = bs := by
  match bs, h with
  | [a, b, c, d], _ =>
    have ha := a.toNat_lt
    have hb := b.toNat_lt
    have hc := c.toNat_lt
    have hd := d.toNat_lt
    rw [writeU32_eq, toNat_joinU32]
    simp only [List.cons.injEq, and_true, ← UInt8.toNat_inj, UInt8.toNat_ofNat']
    omega

/-- A function that looks at the next `n` bytes and moves past them is a span and
what is made of it. -/
theorem eq_span_of_run {α : Type} {p : Reads UInt8 α} (n : ℕ) (dec : Bytes → α)
    (hp : ∀ r : Reader, p r = if readerHas r n then some (dec (r.data.drop r.offset),
      { r with offset := r.offset + n }) else none)
    (hdec : ∀ bs : Bytes, dec bs = dec (bs.take n)) :
    p = do let bs ← Cursor.span n; return dec bs := by
  funext r
  rw [hp]
  change _ = (Cursor.span n r).bind fun x => some (dec x.1, x.2)
  by_cases h : readerHas r n
  · rw [if_pos h, show Cursor.span n r = some _ from if_pos h, Option.bind_some, ← hdec]
  · rw [if_neg h, show Cursor.span n r = none from if_neg h, Option.bind_none]

theorem getD_take {n i : ℕ} (h : i < n) (bs : Bytes) : (bs.take n).getD i 0 = bs.getD i 0 := by
  simp [h]

theorem decodes_u8 : Decodes readerReadU8 fun b bs => bs = [b] := by
  rw [eq_span_of_run (p := readerReadU8) 1 fun bs => bs.getD 0 0]
  · refine decodes_fixed (fun _ => rfl) (fun _ => rfl) fun bs h => ?_
    obtain ⟨b, rfl⟩ := List.length_eq_one_iff.mp h
    rfl
  · intro r
    simp [readerReadU8, List.getElem?_drop]
  · exact fun bs => (getD_take (by decide) bs).symm

theorem decodes_u16 : Decodes readerReadU16 fun v bs => bs = writeU16 v := by
  rw [eq_span_of_run (p := readerReadU16) 2 joinU16 fun _ => rfl]
  · exact decodes_fixed length_writeU16 joinU16_writeU16 fun _ => writeU16_joinU16
  · intro bs
    simp only [joinU16, getD_take (show 0 < 2 by decide), getD_take (show 1 < 2 by decide)]

theorem decodes_u32 : Decodes readerReadU32 fun v bs => bs = writeU32 v := by
  rw [eq_span_of_run (p := readerReadU32) 4 joinU32 fun _ => rfl]
  · exact decodes_fixed length_writeU32 joinU32_writeU32 fun _ => writeU32_joinU32
  · intro bs
    simp only [joinU32, getD_take (show 0 < 4 by decide), getD_take (show 1 < 4 by decide),
      getD_take (show 2 < 4 by decide), getD_take (show 3 < 4 by decide)]

/-- A double word is its low word and its high word. -/
theorem writeU64_joinU64 (lo hi : UInt32) :
    writeU64 (lo.toUInt64 ||| (hi.toUInt64 <<< 32)) = writeU32 lo ++ writeU32 hi := by
  have hlo := lo.toNat_lt
  have hhi := hi.toNat_lt
  have shl : (hi.toUInt64 <<< 32).toNat = hi.toNat <<< 32 := by
    rw [UInt64.toNat_shiftLeft, UInt32.toNat_toUInt64]
    change hi.toNat <<< 32 % 2 ^ 64 = _
    rw [Nat.shiftLeft_eq, Nat.mod_eq_of_lt (by omega)]
  have hv : (lo.toUInt64 ||| (hi.toUInt64 <<< 32)).toNat = lo.toNat + hi.toNat * 2 ^ 32 := by
    rw [UInt64.toNat_or, shl, UInt32.toNat_toUInt64, or_shiftLeft_eq_add hlo]
  have h1 : ((lo.toUInt64 ||| (hi.toUInt64 <<< 32)) &&& 0xffffffff).toUInt32 = lo := by
    rw [← UInt32.toNat_inj, UInt64.toNat_toUInt32, UInt64.toNat_and, hv]
    change (_ &&& (2 ^ 32 - 1)) % 2 ^ 32 = _
    rw [Nat.and_two_pow_sub_one_eq_mod]
    omega
  have h2 : ((lo.toUInt64 ||| (hi.toUInt64 <<< 32)) >>> 32).toUInt32 = hi := by
    rw [← UInt32.toNat_inj, UInt64.toNat_toUInt32, UInt64.toNat_shiftRight, hv,
      Nat.shiftRight_eq_div_pow]
    change (_ / 2 ^ 32) % 2 ^ 32 = _
    omega
  rw [writeU64, h1, h2]

theorem joinU64_split (v : UInt64) :
    (v &&& 0xffffffff).toUInt32.toUInt64 ||| ((v >>> 32).toUInt32.toUInt64 <<< 32) = v := by
  have hv := v.toNat_lt
  have hlo : (v &&& 0xffffffff).toUInt32.toNat = v.toNat % 2 ^ 32 := by
    rw [UInt64.toNat_toUInt32, UInt64.toNat_and]
    change (_ &&& (2 ^ 32 - 1)) % 2 ^ 32 = _
    rw [Nat.and_two_pow_sub_one_eq_mod]
    omega
  have hhi : (v >>> 32).toUInt32.toNat = v.toNat / 2 ^ 32 := by
    rw [UInt64.toNat_toUInt32, UInt64.toNat_shiftRight, Nat.shiftRight_eq_div_pow]
    change (_ / 2 ^ 32) % 2 ^ 32 = _
    omega
  have shl : ((v >>> 32).toUInt32.toUInt64 <<< 32).toNat = (v.toNat / 2 ^ 32) <<< 32 := by
    rw [UInt64.toNat_shiftLeft, UInt32.toNat_toUInt64, hhi]
    change (v.toNat / 2 ^ 32) <<< 32 % 2 ^ 64 = _
    rw [Nat.shiftLeft_eq, Nat.mod_eq_of_lt (by omega)]
  rw [← UInt64.toNat_inj, UInt64.toNat_or, shl, UInt32.toNat_toUInt64, hlo,
    or_shiftLeft_eq_add (Nat.mod_lt _ (by decide))]
  omega

theorem decodes_u64 : Decodes readerReadU64 fun v bs => bs = writeU64 v := by
  refine (decodes_u32.bind fun lo => decodes_u32.bind fun hi => decodes_pure _).congr fun v bs => ?_
  constructor
  · rintro ⟨lo, _, _, rfl, ⟨hi, _, _, rfl, ⟨rfl, rfl⟩, rfl⟩, rfl⟩
    rw [writeU64_joinU64, List.append_nil]
  · rintro rfl
    exact ⟨_, _, _, rfl, ⟨_, _, _, rfl, ⟨(joinU64_split v).symm, rfl⟩, rfl⟩,
      by rw [List.append_nil]; rfl⟩

theorem decodes_i64 : Decodes readerReadI64 fun v bs => bs = writeI64 v := by
  refine (decodes_u64.bind fun raw => decodes_pure _).congr fun v bs => ?_
  constructor
  · rintro ⟨raw, _, _, rfl, ⟨rfl, rfl⟩, rfl⟩
    simp [writeI64]
  · rintro rfl
    exact ⟨v.toUInt64, _, _, rfl, ⟨by simp, rfl⟩, by rw [List.append_nil]; rfl⟩

theorem decodes_bytes (n : ℕ) :
    Decodes (readerReadBytes n) fun a bs => a = bs ∧ bs.length = n := decodes_span n

theorem decodes_skip (n : ℕ) : Decodes (readerSkip n) fun _ bs => bs.length = n := by
  refine ((decodes_bytes n).bind fun _ => decodes_pure ()).congr fun _ bs => ?_
  constructor
  · rintro ⟨_, bs, _, ⟨rfl, hn⟩, ⟨-, rfl⟩, rfl⟩
    simpa using hn
  · intro h
    exact ⟨bs, bs, [], ⟨rfl, h⟩, ⟨rfl, rfl⟩, by simp⟩

/-! ### A number is written in one way -/

theorem writeU16_inj {v v' : UInt16} (h : writeU16 v = writeU16 v') : v = v' :=
  decodes_u16.unique rfl h

theorem writeU32_inj {v v' : UInt32} (h : writeU32 v = writeU32 v') : v = v' :=
  decodes_u32.unique rfl h

theorem writeU64_inj {v v' : UInt64} (h : writeU64 v = writeU64 v') : v = v' :=
  decodes_u64.unique rfl h

theorem writeI64_inj {v v' : Int64} (h : writeI64 v = writeI64 v') : v = v' :=
  decodes_i64.unique rfl h

/-! ### ULEB128 -/

/-- The minimal ULEB128 encoding of a number of any size. -/
def leb128 (n : ℕ) : Bytes :=
  if n < 128 then [UInt8.ofNat n] else UInt8.ofNat (n % 128 + 128) :: leb128 (n / 128)
termination_by n
decreasing_by omega

theorem leb128_of_lt {n : ℕ} (h : n < 128) : leb128 n = [UInt8.ofNat n] := by rw [leb128, if_pos h]

theorem leb128_of_le {n : ℕ} (h : 128 ≤ n) :
    leb128 n = UInt8.ofNat (n % 128 + 128) :: leb128 (n / 128) := by
  rw [leb128, if_neg (by omega)]

theorem toNat_shiftRight_seven (v : UInt64) : (v >>> 7).toNat = v.toNat / 128 := by
  rw [UInt64.toNat_shiftRight, Nat.shiftRight_eq_div_pow]
  rfl

/-- What `tide_write_uleb128` writes is the minimal encoding. -/
theorem writeUleb128_eq (v : UInt64) : writeUleb128 v = leb128 v.toNat := by
  induction hn : v.toNat using Nat.strongRecOn generalizing v with
  | ind n ih =>
    subst hn
    have hb : (v &&& 0x7f).toUInt8.toNat = v.toNat % 128 := by
      rw [UInt64.toNat_toUInt8, UInt64.toNat_and]
      change (_ &&& (2 ^ 7 - 1)) % 2 ^ 8 = _
      rw [Nat.and_two_pow_sub_one_eq_mod]
      omega
    have hor : ∀ b : UInt8, b.toNat < 128 → (b ||| 0x80).toNat = b.toNat + 128 := by
      intro b h
      rw [UInt8.toNat_or]
      exact or_shiftLeft_eq_add (y := 1) (k := 7) h
    have hzero : v >>> 7 = 0 ↔ v.toNat < 128 := by
      rw [← UInt64.toNat_inj, toNat_shiftRight_seven]
      change _ / 128 = 0 ↔ _
      omega
    rw [writeUleb128]
    by_cases h : v.toNat < 128
    · rw [if_neg (not_not.mpr (hzero.mpr h)), leb128_of_lt h, List.cons.injEq, ← UInt8.toNat_inj,
        hb, UInt8.toNat_ofNat']
      exact ⟨by omega, rfl⟩
    · rw [if_pos (by rw [Ne, hzero]; exact h), leb128_of_le (by omega),
        ih (v.toNat / 128) (by omega) (v >>> 7) (toNat_shiftRight_seven v), List.cons.injEq,
          ← UInt8.toNat_inj,
        hor _ (by rw [hb]; omega), hb, UInt8.toNat_ofNat']
      exact ⟨by omega, rfl⟩

/-- A number below 128 is written as it is. -/
theorem writeUleb128_of_lt {n : ℕ} (h : n < 128) :
    writeUleb128 (UInt64.ofNat n) = [UInt8.ofNat n] := by
  rw [writeUleb128_eq, UInt64.toNat_ofNat_of_lt' (by change n < 2 ^ 64; omega), leb128_of_lt h]

theorem length_leb128_le (k n : ℕ) (h : n < 2 ^ (7 * (k + 1))) : (leb128 n).length ≤ k + 1 := by
  induction k generalizing n with
  | zero => rw [leb128_of_lt (by omega)]; rfl
  | succ k ih =>
    by_cases hn : n < 128
    · rw [leb128_of_lt hn]; simp
    · have hdiv : n / 128 < 2 ^ (7 * (k + 1)) := by
        rw [Nat.div_lt_iff_lt_mul (by decide)]
        rwa [show 7 * (k + 1 + 1) = 7 * (k + 1) + 7 by omega, Nat.pow_add] at h
      rw [leb128_of_le (by omega), List.length_cons]
      exact Nat.succ_le_succ (ih _ hdiv)

/-- As many bytes as are taken hold the number. -/
theorem lt_of_length_leb128 (n : ℕ) : n < 2 ^ (7 * (leb128 n).length) := by
  induction n using Nat.strongRecOn with
  | ind n ih =>
    by_cases hn : n < 128
    · rw [leb128_of_lt hn]
      exact hn
    · have hdiv := ih (n / 128) (by omega)
      rw [leb128_of_le (by omega), List.length_cons, Nat.mul_succ, Nat.pow_add]
      exact (Nat.div_lt_iff_lt_mul (by decide)).mp hdiv

theorem length_leb128_pos (n : ℕ) : 0 < (leb128 n).length := by
  rw [leb128]; split_ifs <;> simp

/-- A 64-bit number takes one to ten bytes. -/
theorem length_writeUleb128 (v : UInt64) :
    1 ≤ (writeUleb128 v).length ∧ (writeUleb128 v).length ≤ 10 := by
  rw [writeUleb128_eq]
  exact ⟨length_leb128_pos _, length_leb128_le 9 _ (by have := v.toNat_lt; omega)⟩

/-- `tide_uleb128_size` is the number of bytes written. -/
theorem uleb128Size_eq (v : UInt64) : uleb128Size v = (writeUleb128 v).length := by
  rw [writeUleb128_eq]
  induction hn : v.toNat using Nat.strongRecOn generalizing v with
  | ind n ih =>
    subst hn
    have hge : v ≥ 0x80 ↔ 128 ≤ v.toNat := UInt64.le_iff_toNat_le
    rw [uleb128Size]
    by_cases h : 128 ≤ v.toNat
    · rw [if_pos (hge.mpr h), ih (v.toNat / 128) (by omega) (v >>> 7) (toNat_shiftRight_seven v),
        leb128_of_le h, List.length_cons]
    · rw [if_neg (mt hge.mp h), leb128_of_lt (by omega)]
      rfl

/-- The bits of a byte that the loop looks at. -/
theorem uleb128_byte (b : UInt8) :
    (b &&& 0x7e = 0 ↔ b.toNat % 128 ≤ 1) ∧ (b &&& 0x80 = 0 ↔ b.toNat < 128) ∧
    (b &&& 0x7f).toNat = b.toNat % 128 := by
  have h : ∀ i : Fin 256, ((i.val &&& 0x7e = 0 ↔ i.val % 128 ≤ 1) ∧
      (i.val &&& 0x80 = 0 ↔ i.val < 128)) ∧ i.val &&& 0x7f = i.val % 128 := by decide +kernel
  simp only [← UInt8.toNat_inj, UInt8.toNat_and]
  exact and_assoc.mp (h ⟨b.toNat, b.toNat_lt⟩)

/-- Adding seven bits at `shift` to a number below `2 ^ shift`. -/
theorem toNat_or_shiftLeft {value : UInt64} {b : UInt8} {shift : ℕ} (hs : shift < 64)
    (hv : value.toNat < 2 ^ shift) (hb : b.toNat * 2 ^ shift < 2 ^ 64) :
    (value ||| (b.toUInt64 <<< UInt64.ofNat shift)).toNat = value.toNat + b.toNat * 2 ^ shift := by
  have hshift : (UInt64.ofNat shift).toNat = shift :=
    UInt64.toNat_ofNat_of_lt' (Nat.lt_trans hs (by decide))
  have hshl : (b.toUInt64 <<< UInt64.ofNat shift).toNat = b.toNat <<< shift := by
    rw [UInt64.toNat_shiftLeft, UInt8.toNat_toUInt64, hshift, Nat.mod_eq_of_lt hs, Nat.shiftLeft_eq,
      Nat.mod_eq_of_lt hb]
  rw [UInt64.toNat_or, hshl, or_shiftLeft_eq_add hv]

/-- The first byte of a minimal encoding: the last one, or seven bits and more to come. -/
theorem cons_eq_leb128_iff (b : UInt8) (bs : Bytes) (u : ℕ) : b :: bs = leb128 u ↔
    b.toNat < 128 ∧ u = b.toNat ∧ bs = [] ∨
      128 ≤ b.toNat ∧ ∃ u', u' ≠ 0 ∧ u = b.toNat % 128 + u' * 128 ∧ bs = leb128 u' := by
  have hb := b.toNat_lt
  by_cases hu : u < 128
  · rw [leb128_of_lt hu, List.cons.injEq, ← UInt8.toNat_inj, UInt8.toNat_ofNat',
      Nat.mod_eq_of_lt (by omega)]
    constructor
    · rintro ⟨rfl, rfl⟩
      exact .inl ⟨hu, rfl, rfl⟩
    · rintro (⟨-, rfl, rfl⟩ | ⟨-, u', hne, rfl, -⟩)
      · exact ⟨rfl, rfl⟩
      · omega
  · rw [leb128_of_le (by omega), List.cons.injEq, ← UInt8.toNat_inj, UInt8.toNat_ofNat',
      Nat.mod_eq_of_lt (by omega)]
    constructor
    · rintro ⟨hbu, rfl⟩
      exact .inr ⟨by omega, u / 128, by omega, by omega, rfl⟩
    · rintro (⟨h, rfl, -⟩ | ⟨h, u', -, rfl, rfl⟩)
      · exact absurd h hu
      · exact ⟨by omega, by congr 1; omega⟩

/-- What the loop reads from its `i`-th byte: the minimal encoding of the part of the
number above the `7 * i` bits already there, which is not zero once there are some. -/
def UlebTail (i : ℕ) (value : UInt64) (v : UInt64) (bs : Bytes) : Prop :=
  ∃ u, v.toNat = value.toNat + u * 2 ^ (7 * i) ∧ bs = leb128 u ∧ (0 < i → u ≠ 0)

/-- A tenth byte of more than one bit is in no encoding. -/
theorem not_ulebTail_of_overflow {i : ℕ} {value v : UInt64} {b : UInt8} {bs : Bytes}
    (h63 : 7 * i = 63) (hb : 1 < b.toNat % 128) : ¬ UlebTail i value v (b :: bs) := by
  rintro ⟨u, hu, hbs, -⟩
  have hv := v.toNat_lt
  rw [h63] at hu
  rcases (cons_eq_leb128_iff b bs u).mp hbs with ⟨h, rfl, -⟩ | ⟨-, u', hne, rfl, -⟩ <;> omega

/-- A last byte is in an encoding unless it is a zero after others. -/
theorem ulebTail_last_iff {i : ℕ} {value v value' : UInt64} {b : UInt8} {bs : Bytes}
    (hb : b.toNat < 128) (hval : value'.toNat = value.toNat + b.toNat * 2 ^ (7 * i)) :
    UlebTail i value v (b :: bs) ↔ ¬ (i > 0 ∧ b = 0) ∧ v = value' ∧ bs = [] := by
  have hb0 : b = 0 ↔ b.toNat = 0 := UInt8.toNat_inj.symm
  rw [hb0, ← UInt64.toNat_inj, hval]
  constructor
  · rintro ⟨u, hu, hbs, hne⟩
    rcases (cons_eq_leb128_iff b bs u).mp hbs with ⟨-, rfl, rfl⟩ | ⟨h, -⟩
    · exact ⟨fun h => hne h.1 h.2, hu, rfl⟩
    · omega
  · rintro ⟨hz, hv, rfl⟩
    exact ⟨b.toNat, hv, (cons_eq_leb128_iff ..).mpr (.inl ⟨hb, rfl, rfl⟩), fun hi h0 => hz ⟨hi, h0⟩⟩

/-- A byte that says more is to come is in an encoding if what follows is. -/
theorem ulebTail_more_iff {i : ℕ} {value v value' : UInt64} {b : UInt8} {bs : Bytes}
    (hb : 128 ≤ b.toNat) (hval : value'.toNat = value.toNat + b.toNat % 128 * 2 ^ (7 * i)) :
    UlebTail i value v (b :: bs) ↔ UlebTail (i + 1) value' v bs := by
  have hpow : ∀ u, (b.toNat % 128 + u * 128) * 2 ^ (7 * i) = b.toNat % 128 * 2 ^ (7 * i) + u *
      2 ^ (7 * (i + 1)) := by
    intro u
    rw [show 7 * (i + 1) = 7 * i + 7 by omega, Nat.pow_add]
    ring
  constructor
  · rintro ⟨u, hu, hbs, -⟩
    rcases (cons_eq_leb128_iff b bs u).mp hbs with ⟨h, -⟩ | ⟨-, u', hne, rfl, rfl⟩
    · omega
    · exact ⟨u', by rw [hu, hval, hpow, Nat.add_assoc], rfl, fun _ => hne⟩
  · rintro ⟨u, hu, rfl, hne⟩
    have hne := hne (by omega)
    refine ⟨b.toNat % 128 + u * 128, by rw [hu, hval, hpow, Nat.add_assoc], ?_, fun _ => by omega⟩
    exact (cons_eq_leb128_iff ..).mpr (.inr ⟨hb, u, hne, rfl, rfl⟩)

/-- The seven bits of a byte, at a place where they are not checked to overflow. -/
theorem uleb128_fits {i : ℕ} {b : UInt8} (hi : i < 10) (hov : ¬ (7 * i = 63 ∧ 1 < b.toNat % 128)) :
    b.toNat % 128 * 2 ^ (7 * i) < 2 ^ 64 := by
  by_cases h63 : 7 * i = 63
  · rw [h63]; omega
  · have hpow : 2 ^ (7 * i) ≤ 2 ^ 56 := Nat.pow_le_pow_right (by decide) (by omega)
    calc b.toNat % 128 * 2 ^ (7 * i) ≤ 127 * 2 ^ 56 := Nat.mul_le_mul (by omega) hpow
      _ < 2 ^ 64 := by decide

theorem decodes_uleb128Loop (fuel i : ℕ) (value : UInt64) (hi : i + fuel = 10)
    (hv : value.toNat < 2 ^ (7 * i)) :
    Decodes (readUleb128Loop fuel i value (7 * i)) (UlebTail i value) := by
  induction fuel generalizing i value with
  | zero =>
    -- at `2 ^ 70` no part of a 64-bit number is left
    refine decodes_failure.congr fun v bs => (iff_of_false id ?_)
    rintro ⟨u, hu, -, hne⟩
    have hi10 : i = 10 := by omega
    subst hi10
    have := v.toNat_lt
    have := hne (by decide)
    omega
  | succ fuel ih =>
    rw [readUleb128Loop]
    refine (decodes_u8.bind (H := fun b v bs => UlebTail i value v (b :: bs)) fun b => ?_).congr
      fun v bs => ?_
    · obtain ⟨h7e, h80, h7f⟩ := uleb128_byte b
      by_cases hov : 7 * i = 63 ∧ b &&& 0x7e ≠ 0
      · rw [if_pos hov]
        rw [Ne, h7e] at hov
        exact decodes_failure.congr fun v bs =>
          iff_of_false id (not_ulebTail_of_overflow hov.1 (by omega))
      rw [if_neg hov]
      rw [Ne, h7e] at hov
      have hval := toNat_or_shiftLeft (b := b &&& 0x7f) (by omega) hv
        (by rw [h7f]; exact uleb128_fits (by omega) (by omega))
      rw [h7f] at hval
      by_cases hlast : b &&& 0x80 = 0
      · rw [if_pos hlast]
        rw [h80] at hlast
        rw [Nat.mod_eq_of_lt hlast] at hval
        by_cases hz : i > 0 ∧ b = 0
        · rw [if_pos hz]
          exact decodes_failure.congr fun v bs => iff_of_false id fun h =>
            ((ulebTail_last_iff hlast hval).mp h).1 hz
        · rw [if_neg hz]
          exact (decodes_pure _).congr fun v bs => by rw [ulebTail_last_iff hlast hval]; simp [hz]
      · rw [if_neg hlast]
        rw [h80] at hlast
        have hv' : value.toNat + b.toNat % 128 * 2 ^ (7 * i) < 2 ^ (7 * (i + 1)) := by
          have : (b.toNat % 128 + 1) * 2 ^ (7 * i) ≤ 128 * 2 ^ (7 * i) :=
            Nat.mul_le_mul_right _ (by omega)
          rw [Nat.add_mul] at this
          rw [Nat.mul_succ, Nat.pow_add]
          omega
        exact (ih (i + 1) _ (by omega) (by rw [hval]; exact hv')).congr fun v bs =>
          (ulebTail_more_iff (by omega) hval).symm
    · constructor
      · rintro ⟨b, _, bs, rfl, h, rfl⟩
        exact h
      · rintro ⟨u, hu, rfl, hne⟩
        obtain ⟨b, bs, hbs⟩ := List.exists_cons_of_length_pos (length_leb128_pos u)
        exact ⟨b, [b], bs, rfl, ⟨u, hu, hbs.symm, hne⟩, hbs⟩

/-- **The varint reader accepts exactly what the writer writes.** -/
theorem decodes_uleb128 : Decodes readerReadUleb128 fun v bs => bs = writeUleb128 v := by
  refine (decodes_uleb128Loop 10 0 0 (by decide) (by decide)).congr fun v bs => ?_
  rw [writeUleb128_eq]
  constructor
  · rintro ⟨u, hu, rfl, -⟩
    congr 1
    simpa using hu.symm
  · rintro rfl
    exact ⟨v.toNat, by simp, rfl, fun h => absurd h (by decide)⟩

end Tide
