import Tide.Types
import Tide.Format.Crc32c

/-!
# What a record is

A record on its own terms: a head, which is everything its prefix says of it but
the sizes, and a payload. `RecordHead.bytes` lays them out as `docs/TIDE_FORMAT.md`
prescribes,

    type:u16 flags:u16 header_size:u16 alignment_log2:u8 reserved:u8
    payload_size:ULEB128 sequence:ULEB128
    payload, zero padding to the alignment, CRC32C of all of it

and neither the writer nor the decoder is mentioned: `Tide.Format.Writer` proves
that the one writes these bytes, `Tide.Format.Framing` that the other accepts
them and nothing else. The reserved byte is part of the head, since the decoder
does not look at it.
-/

namespace Tide

/-- What a record's prefix says, apart from the sizes. -/
@[ext]
structure RecordHead where
  type : UInt16
  flags : UInt16
  alignmentLog2 : UInt8
  reserved : UInt8
  sequence : UInt64
  deriving DecidableEq, Repr

/-- `n` rounded up to a multiple of `2 ^ k`. -/
def alignUp (k n : ℕ) : ℕ := (n + (2 ^ k - 1)) / 2 ^ k * 2 ^ k

theorem le_alignUp (k n : ℕ) : n ≤ alignUp k n := by
  have hpos := Nat.two_pow_pos k
  have := Nat.div_add_mod (n + (2 ^ k - 1)) (2 ^ k)
  have := Nat.mod_lt (n + (2 ^ k - 1)) hpos
  rw [Nat.mul_comm] at *
  unfold alignUp
  omega

theorem alignUp_lt (k n : ℕ) : alignUp k n < n + 2 ^ k := by
  have hpos := Nat.two_pow_pos k
  have := Nat.div_mul_le_self (n + (2 ^ k - 1)) (2 ^ k)
  unfold alignUp
  omega

namespace RecordHead

variable (h : RecordHead)

/-- The size of the prefix of a record with `n` bytes of payload. -/
def headerSize (n : ℕ) : ℕ :=
  8 + (writeUleb128 (UInt64.ofNat n)).length + (writeUleb128 h.sequence).length

/-- The prefix of a record with `n` bytes of payload. -/
def prefixBytes (n : ℕ) : Bytes :=
  writeU16 h.type ++ writeU16 h.flags ++ writeU16 (UInt16.ofNat (h.headerSize n)) ++
    [h.alignmentLog2, h.reserved] ++
    writeUleb128 (UInt64.ofNat n) ++ writeUleb128 h.sequence

/-- Prefix, payload and padding together. -/
def paddedSize (n : ℕ) : ℕ := alignUp h.alignmentLog2.toNat (h.headerSize n + n)

/-- What the record's checksum covers. -/
def body (payload : Bytes) : Bytes :=
  h.prefixBytes payload.length ++ payload ++
    List.replicate (h.paddedSize payload.length - (h.headerSize payload.length + payload.length)) 0

/-- The record. -/
def bytes (payload : Bytes) : Bytes := h.body payload ++ writeU32 (crc32c (h.body payload))

/-- The size of a record with `n` bytes of payload. -/
def size (n : ℕ) : ℕ := h.paddedSize n + 4

/-- The sizes the writer and the decoder compute on the way do not wrap. -/
def SizeFits (n : ℕ) : Prop := h.headerSize n + n + (2 ^ h.alignmentLog2.toNat - 1) ≤ sizeMax

theorem headerSize_bounds (n : ℕ) : 10 ≤ h.headerSize n ∧ h.headerSize n ≤ 28 := by
  have h1 := length_writeUleb128 (UInt64.ofNat n)
  have h2 := length_writeUleb128 h.sequence
  unfold headerSize
  omega

@[simp] theorem length_prefixBytes (n : ℕ) : (h.prefixBytes n).length = h.headerSize n := by
  simp only [prefixBytes, headerSize, List.length_append, length_writeU16, List.length_cons,
    List.length_nil]

theorem le_paddedSize (n : ℕ) : h.headerSize n + n ≤ h.paddedSize n := le_alignUp ..

@[simp] theorem length_body (payload : Bytes) :
    (h.body payload).length = h.paddedSize payload.length := by
  have := h.le_paddedSize payload.length
  simp only [body, List.length_append, length_prefixBytes, List.length_replicate]
  omega

@[simp] theorem length_bytes (payload : Bytes) :
    (h.bytes payload).length = h.size payload.length := by
  simp [bytes, size]

/-- A record is at least 14 bytes. -/
theorem size_ge (n : ℕ) : 14 + n ≤ h.size n := by
  have h1 := h.headerSize_bounds n
  have h2 := h.le_paddedSize n
  unfold size
  omega

end RecordHead

end Tide
