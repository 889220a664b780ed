import Tide.Format.Reader
import Tide.Theory.Memory

/-!
# The reader on pointers

`src/format/reader.c` once more, at the level of its pointers: `size_t` is `UInt64` with
arithmetic that wraps, `reader->data` is a pointer into a buffer, and each access to it is a
load, which is stuck outside of the buffer. Each function refines the one of
`Tide.Format.Reader`, which reads a list.
-/

namespace Tide.Memory

open Theory

/-- `tide_reader`. -/
abbrev Reader := Window

/-- `tide_reader_init`. -/
def readerInit (data size : UInt64) : Reader := ⟨data, size, 0⟩

/-- `tide_reader_read_bytes`, with the bytes behind the pointer that it sets, any of which may
be read. -/
def readerReadBytes (size : UInt64) : Scans UInt8 Bytes :=
  Scans.take size fun p => loadMany p size.toNat

/-- `tide_reader_skip`. -/
def readerSkip (size : UInt64) : Scans UInt8 Unit := Scans.take size fun _ => pure ()

/-- `tide_reader_read_u8`. -/
def readerReadU8 : Scans UInt8 UInt8 := Scans.take 1 fun p => load p

/-- `tide_reader_read_u16`. -/
def readerReadU16 : Scans UInt8 UInt16 := Scans.take 2 fun p => do
  let p0 ← load p
  let p1 ← load (p + 1)
  return joinU16 [p0, p1]

/-- `tide_reader_read_u32`. -/
def readerReadU32 : Scans UInt8 UInt32 := Scans.take 4 fun p => do
  let p0 ← load p
  let p1 ← load (p + 1)
  let p2 ← load (p + 2)
  let p3 ← load (p + 3)
  return joinU32 [p0, p1, p2, p3]

/-- `tide_reader_read_u64`. -/
def readerReadU64 : Scans UInt8 UInt64 := do
  let lo ← readerReadU32
  let hi ← readerReadU32
  return lo.toUInt64 ||| (hi.toUInt64 <<< 32)

/-- `tide_reader_read_i64`. -/
def readerReadI64 : Scans UInt8 Int64 := do
  let raw ← readerReadU64
  return raw.toInt64

/-- The loop of `tide_reader_read_uleb128`, from its `i`-th byte, with `fuel` bytes
allowed. -/
def readUleb128Loop : (fuel i : ℕ) → (value : UInt64) → (shift : ℕ) → Scans UInt8 UInt64
  | 0, _, _, _ => failure
  | fuel + 1, i, value, shift => do
    let byte ← readerReadU8
    if shift = 63 ∧ byte &&& 0x7e ≠ 0 then failure
    else
      let value := value ||| ((byte &&& 0x7f).toUInt64 <<< UInt64.ofNat shift)
      if byte &&& 0x80 = 0 then
        if i > 0 ∧ byte = 0 then failure else return value
      else readUleb128Loop fuel (i + 1) value (shift + 7)

/-- `tide_reader_read_uleb128`. -/
def readerReadUleb128 : Scans UInt8 UInt64 := readUleb128Loop 10 0 0 0

/-! ### They refine the reader on lists -/

section

variable {m rest : Bytes} {p : UInt64}

/-- Loading the first bytes of a range, one after the other. -/
theorem load_prefix {n : ℕ} (i : UInt64) (hm : m.length < 2 ^ 64) (hle : p.toNat + n ≤ m.length)
    (hi : i.toNat < n) (hpre : (m.drop p.toNat).take n <+: rest) :
    (load (p + i)).run m = some (rest.getD i.toNat 0) := by
  have hadd : (p + i).toNat = p.toNat + i.toNat := toNat_add_of_lt (by omega)
  have hitem : rest[i.toNat]? = m[(p + i).toNat]? := by
    obtain ⟨tail, rfl⟩ := hpre
    rw [List.getElem?_append_left (by rw [List.length_take, List.length_drop]; omega),
      List.getElem?_take_of_lt hi, List.getElem?_drop, hadd]
  have hload := load_run (m := m) (p := p + i) (by omega)
  rw [hload, List.getD_eq_getElem?_getD, hitem]
  exact congrArg (fun x => some (x.getD 0)) hload.symm

end

theorem refines_readBytes (size : UInt64) :
    Refines size.toNat (readerReadBytes size) (Tide.readerReadBytes size.toNat) := by
  have h := refines_take (n := size) (f := fun p => loadMany p size.toNat)
    (g := fun bs : Bytes => bs.take size.toNat)
    (fun m p rest hm hle hpre => by
      have hlen : ((m.drop p.toNat).take size.toNat).length = size.toNat := by
        rw [List.length_take, List.length_drop]
        omega
      rw [loadMany_run hm hle]
      have heq := List.prefix_iff_eq_take.mp hpre
      rw [hlen] at heq
      exact congrArg some heq)
  exact h

theorem refines_skip (size : UInt64) :
    Refines size.toNat (readerSkip size) (Tide.readerSkip size.toNat) := by
  intro m w c hm hs
  have h := refines_take (n := size) (f := fun _ => pure ()) (g := fun _ : Bytes => ())
    (fun _ _ _ _ _ _ => rfl) m w c hm hs
  have hskip : (Tide.readerSkip size.toNat).run c = if c.offset ≤ c.data.length ∧
      size.toNat ≤ c.data.length - c.offset
        then some ((), { c with offset := c.offset + size.toNat }) else none := by
    change ((if _ then _ else _ : Option (Bytes × Cursor UInt8)).bind fun x => some ((), x.2)) = _
    split <;> rfl
  rw [hskip]
  exact h

theorem refines_u8 : Refines 1 readerReadU8 Tide.readerReadU8 := by
  have h := refines_take (n := 1) (f := load) (g := fun bs : Bytes => bs.getD 0 0)
    (fun m p rest hm hle hpre => by
    simpa using load_prefix 0 hm hle (by decide) hpre)
  intro m w c hm hs
  have hitem : c.data.getD c.offset 0 = (c.data.drop c.offset).getD 0 0 := by simp
  change Same m 1 w (if _ then some (c.data.getD c.offset 0, _) else none) _
  rw [hitem]
  exact h m w c hm hs

theorem refines_u16 : Refines 2 readerReadU16 Tide.readerReadU16 :=
  refines_take (n := 2) (g := joinU16) fun m p rest hm hle hpre => by
    have h0 := load_prefix 0 hm hle (by decide) hpre
    have h1 := load_prefix 1 hm hle (by decide) hpre
    rw [UInt64.add_zero] at h0
    rw [run_bind_of_some h0, run_bind_of_some h1]
    rfl

theorem refines_u32 : Refines 4 readerReadU32 Tide.readerReadU32 :=
  refines_take (n := 4) (g := joinU32) fun m p rest hm hle hpre => by
    have h0 := load_prefix 0 hm hle (by decide) hpre
    have h1 := load_prefix 1 hm hle (by decide) hpre
    have h2 := load_prefix 2 hm hle (by decide) hpre
    have h3 := load_prefix 3 hm hle (by decide) hpre
    rw [UInt64.add_zero] at h0
    rw [run_bind_of_some h0, run_bind_of_some h1, run_bind_of_some h2, run_bind_of_some h3]
    rfl

theorem refines_u64 : Refines 8 readerReadU64 Tide.readerReadU64 :=
  refines_u32.bind fun _ => refines_u32.bind fun _ => refines_pure _

theorem refines_i64 :
    Refines 8 readerReadI64 Tide.readerReadI64 := refines_u64.bind fun _ => refines_pure _

theorem refines_uleb128Loop (fuel i : ℕ) (value : UInt64) (shift : ℕ) :
    Refines 1 (readUleb128Loop fuel i value shift) (Tide.readUleb128Loop fuel i value shift) := by
  induction fuel generalizing i value shift with
  | zero => exact refines_failure 1
  | succ fuel ih =>
    refine Refines.bind (j := 1) (k := 0) refines_u8 fun byte => ?_
    split
    · exact refines_failure 0
    dsimp only
    split
    · split
      · exact refines_failure 0
      · exact refines_pure _
    · exact Refines.mono (ih (i + 1) _ (shift + 7)) (Nat.zero_le 1)

theorem refines_uleb128 :
    Refines 1 readerReadUleb128 Tide.readerReadUleb128 := refines_uleb128Loop 10 0 0 0

end Tide.Memory
