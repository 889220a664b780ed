import Mathlib.Algebra.Group.Nat.Defs
import Mathlib.Data.Stream.Defs
import Mathlib.Tactic.Common

/-!
# Statuses, errors, limits, checked arithmetic and buffers

The model of `include/tide/error.h`, `include/tide/limits.h`, `src/common` and of
the rationals of `src/model/time.c`.

A pointer with a size is a string of bytes, so a null pointer with a nonzero size
is not a value of the model. A `size_t` is a natural number; the arithmetic the
source does on it with a check is done here with the same check, against
`sizeMax`, the `SIZE_MAX` and the `UINT64_MAX` of a 64-bit machine. The other
integers have the widths of the source.

Whether an allocation succeeds is up to the machine. An object that allocates
carries the outcomes of its allocations still to come, a `Stream' Bool`; every
pattern of successes and failures is such a stream, and `Stream'.const true` is
a machine that does not run out of memory.
-/

namespace Tide

/-- A string of bytes. -/
abbrev Bytes := List UInt8

/-- `SIZE_MAX`, which is also `UINT64_MAX`. -/
def sizeMax : ℕ := 2 ^ 64 - 1

/-! ### `error.h` -/

/-- `tide_status`. -/
inductive Status where
  | ok
  /-- `TIDE_STATUS_PARTIAL`. -/
  | partialTail
  | wouldBlock
  | cancelled
  | invalidArgument
  | format
  | truncated
  | unsupported
  | integrity
  | timeline
  | index
  | resource
  | io
  | internal
  deriving DecidableEq, Repr

/-- `if (status != TIDE_STATUS_OK) return status;` between one operation on a state and
the next. -/
def andThen {S : Type} (r : Status × S) (f : S → Status × S) : Status × S :=
  match r with
  | (.ok, s) => f s
  | r => r

@[simp] theorem andThen_ok {S : Type} (s : S) (f : S → Status × S) : andThen (.ok, s) f = f s := rfl

theorem andThen_of_ne {S : Type} {r : Status × S} (h : r.1 ≠ .ok)
    (f : S → Status × S) : andThen r f = r := by
  rcases r with ⟨st, s⟩
  cases st <;> first | exact absurd rfl h | rfl

@[simp] theorem andThen_pure {S : Type} (r : Status × S) : andThen r (fun s => (.ok, s)) = r := by
  rcases r with ⟨st, s⟩
  cases st <;> rfl

/-- The second operation succeeds only after the first. -/
theorem andThen_fst_eq_ok_iff {S : Type} (r : Status × S) (f : S → Status × S) :
    (andThen r f).1 = .ok ↔ r.1 = .ok ∧ (f r.2).1 = .ok := by
  rcases r with ⟨st, s⟩
  cases st <;> simp [andThen]

/-- `tide_severity`. -/
inductive Severity where
  | info
  | warning
  | error
  | fatal
  deriving DecidableEq, Repr

/-- `tide_error`. The fields `track_id`, `generation` and `packet_seq` are cleared
with the rest and written by no function. -/
@[ext]
structure Error where
  code : Status
  severity : Severity
  offset : ℕ
  recordType : UInt16
  depth : UInt8
  component : String
  message : String
  deriving DecidableEq, Repr

/-- `tide_error_clear`: all bytes zero. -/
def errorClear : Error := ⟨.ok, .info, 0, 0, 0, "", ""⟩

/-- `tide_copy_text`: as much of `src` as fits before the terminating zero. -/
def copyText (dstSize : ℕ) (src : String) : String := String.ofList (src.toList.take (dstSize - 1))

/-- `tide_error_set`. -/
def errorSet (code : Status) (severity : Severity) (offset : ℕ) (recordType : UInt16)
    (depth : UInt8) (component message : String) : Error :=
  ⟨code, severity, offset, recordType, depth, copyText 24 component, copyText 120 message⟩

/-! ### `limits.h` -/

/-- `tide_limits`. -/
structure Limits where
  maxFileSize : UInt64
  maxRecordSize : UInt64
  maxPayloadSize : UInt64
  maxSingleAlloc : UInt64
  maxAggregateAlloc : UInt64
  maxDepth : UInt32
  maxTracks : UInt32
  maxEditEntries : UInt32
  maxPacketTableEntries : UInt32
  reorderDepth : UInt32
  deriving DecidableEq, Repr

/-- `tide_limits_default`. -/
def limitsDefault : Limits where
  maxFileSize := 512 * 1024 * 1024
  maxRecordSize := 64 * 1024 * 1024
  maxPayloadSize := 64 * 1024 * 1024
  maxSingleAlloc := 32 * 1024 * 1024
  maxAggregateAlloc := 128 * 1024 * 1024
  maxDepth := 16
  maxTracks := 64
  maxEditEntries := 256
  maxPacketTableEntries := 1000000
  reorderDepth := 16

/-- `tide_checked_add_u64`. -/
def checkedAddU64 (a b : UInt64) : Option UInt64 :=
  if 0xffffffffffffffff - a < b then none else some (a + b)

/-- `tide_align_u64`. -/
def alignU64 (value alignment : UInt64) : Option UInt64 :=
  if alignment = 0 ∨ alignment &&& (alignment - 1) ≠ 0 then none
  else
    let mask := alignment - 1
    (checkedAddU64 value mask).map (· &&& ~~~mask)

/-- `tide_gcd_u64`. -/
def gcdU64 (a b : UInt64) : UInt64 := if b = 0 then a else gcdU64 b (a % b)
termination_by b.toNat
decreasing_by
  have hb : b.toNat ≠ 0 := fun h => ‹¬ b = 0› (UInt64.toNat_inj.mp (by simpa using h))
  simpa using Nat.mod_lt a.toNat (Nat.pos_of_ne_zero hb)

theorem checkedAddU64_eq_some_iff (a b c : UInt64) :
    checkedAddU64 a b = some c ↔ a.toNat + b.toNat = c.toNat := by
  have ha := a.toNat_lt
  have hc := c.toNat_lt
  have hsub : (0xffffffffffffffff - a).toNat = 2 ^ 64 - 1 - a.toNat := by
    rw [UInt64.toNat_sub_of_le _ _ (by rw [UInt64.le_iff_toNat_le]; change _ ≤ 2 ^ 64 - 1; omega)]
    rfl
  unfold checkedAddU64
  constructor
  · intro h
    split at h
    · cases h
    · rename_i hlt
      rw [UInt64.lt_iff_toNat_lt, hsub] at hlt
      rw [← Option.some.inj h, UInt64.toNat_add, Nat.mod_eq_of_lt (by omega)]
  · intro h
    rw [if_neg (by rw [UInt64.lt_iff_toNat_lt, hsub]; omega), Option.some.injEq]
    apply UInt64.toNat_inj.mp
    rw [UInt64.toNat_add, Nat.mod_eq_of_lt (by omega), h]

/-- Clearing the low `k` bits of a 64-bit number. -/
theorem and_high_bits {x k : ℕ} (hx : x < 2 ^ 64) (hk : k ≤ 64) :
    x &&& (2 ^ 64 - 2 ^ k) = x / 2 ^ k * 2 ^ k := by
  have hmask : 2 ^ 64 - 2 ^ k = (2 ^ (64 - k) - 1) <<< k := by
    rw [Nat.shiftLeft_eq, Nat.sub_mul, ← Nat.pow_add, Nat.sub_add_cancel hk, Nat.one_mul]
  rw [hmask, ← Nat.shiftRight_eq_div_pow, ← Nat.shiftLeft_eq]
  apply Nat.eq_of_testBit_eq
  intro i
  simp only [Nat.testBit_and, Nat.testBit_shiftLeft, Nat.testBit_two_pow_sub_one,
    Nat.testBit_shiftRight]
  by_cases hik : k ≤ i
  · by_cases hi : i < 64
    · simp [hik, show i - k < 64 - k by omega]
    · have : x.testBit i = false :=
        Nat.testBit_lt_two_pow (Nat.lt_of_lt_of_le hx (Nat.pow_le_pow_right (by decide) (by omega)))
      simp [hik, this]
  · simp [hik]

/-- Aligning to `2 ^ k`, given as a word whose lower neighbour is the mask of the low
`k` bits. -/
theorem alignU64_two_pow (v w al : UInt64) {k : ℕ} (hk : k ≤ 64)
    (hal : al ≠ 0 ∧ al &&& (al - 1) = 0) (hmask : (al - 1).toNat = 2 ^ k - 1)
    (hnot : (~~~(al - 1)).toNat = 2 ^ 64 - 2 ^ k) :
    alignU64 v al = some w ↔
      v.toNat + (2 ^ k - 1) < 2 ^ 64 ∧ w.toNat = (v.toNat + (2 ^ k - 1)) / 2 ^ k * 2 ^ k := by
  rw [alignU64, if_neg (by simp [hal]), Option.map_eq_some_iff]
  constructor
  · rintro ⟨s, hs, rfl⟩
    rw [checkedAddU64_eq_some_iff, hmask] at hs
    rw [UInt64.toNat_and, hnot, and_high_bits s.toNat_lt hk, hs]
    exact ⟨s.toNat_lt, rfl⟩
  · rintro ⟨hlt, hw⟩
    have hs : (UInt64.ofNat (v.toNat + (2 ^ k - 1))).toNat = v.toNat + (2 ^ k - 1) :=
      UInt64.toNat_ofNat_of_lt' hlt
    refine ⟨UInt64.ofNat (v.toNat + (2 ^ k - 1)),
      (checkedAddU64_eq_some_iff ..).mpr (by rw [hs, hmask]), ?_⟩
    apply UInt64.toNat_inj.mp
    rw [UInt64.toNat_and, hnot, and_high_bits (UInt64.toNat_lt _) hk, hs, hw]

/-- Aligning to a power of two up to 16 rounds up, when the sum with the mask does
not wrap. -/
theorem alignU64_eq_some_iff (v w : UInt64) {a : UInt8} (ha : a ≤ 4) :
    alignU64 v (1 <<< a.toUInt64) = some w ↔
      v.toNat + (2 ^ a.toNat - 1) < 2 ^ 64 ∧ w.toNat = (v.toNat + (2 ^ a.toNat - 1)) / 2 ^ a.toNat *
        2 ^ a.toNat := by
  have hcases : a = 0 ∨ a = 1 ∨ a = 2 ∨ a = 3 ∨ a = 4 := by
    have h : a.toNat ≤ 4 := UInt8.le_iff_toNat_le.mp ha
    have : a.toNat = 0 ∨ a.toNat = 1 ∨ a.toNat = 2 ∨ a.toNat = 3 ∨ a.toNat = 4 := by omega
    simp only [← UInt8.toNat_inj]
    exact this
  rcases hcases with rfl | rfl | rfl | rfl | rfl
  · exact alignU64_two_pow v w (1 <<< UInt8.toUInt64 0) (by decide) (by decide) (by decide)
      (by decide)
  · exact alignU64_two_pow v w (1 <<< UInt8.toUInt64 1) (by decide) (by decide) (by decide)
      (by decide)
  · exact alignU64_two_pow v w (1 <<< UInt8.toUInt64 2) (by decide) (by decide) (by decide)
      (by decide)
  · exact alignU64_two_pow v w (1 <<< UInt8.toUInt64 3) (by decide) (by decide) (by decide)
      (by decide)
  · exact alignU64_two_pow v w (1 <<< UInt8.toUInt64 4) (by decide) (by decide) (by decide)
      (by decide)

/-! ### `time.c`: rationals -/

/-- `tide_rational`. -/
structure Rational where
  numerator : UInt32
  denominator : UInt32
  deriving DecidableEq, Repr

/-- `tide_rational_is_valid`. -/
def rationalIsValid (value : Rational) : Bool :=
  value.numerator != 0 && value.denominator != 0 &&
    gcdU64 value.numerator.toUInt64 value.denominator.toUInt64 == 1

/-- `tide_gcd_u64` is the greatest common divisor. -/
theorem toNat_gcdU64 (a b : UInt64) : (gcdU64 a b).toNat = Nat.gcd a.toNat b.toNat := by
  induction hn : b.toNat using Nat.strongRecOn generalizing a b with
  | ind n ih =>
    subst hn
    rw [gcdU64]
    by_cases hb : b = 0
    · rw [if_pos hb, hb]
      simp
    have hpos : 0 < b.toNat := Nat.pos_of_ne_zero fun h =>
      hb (UInt64.toNat_inj.mp (by simpa using h))
    rw [if_neg hb, ih (a % b).toNat (by simpa using Nat.mod_lt a.toNat hpos) b (a % b) rfl,
      UInt64.toNat_mod, Nat.gcd_comm b.toNat, ← Nat.gcd_rec, Nat.gcd_comm]

/-- A valid rational is positive and reduced. -/
theorem rationalIsValid_iff (r : Rational) : rationalIsValid r = true ↔
    0 < r.numerator.toNat ∧ 0 < r.denominator.toNat ∧
      Nat.gcd r.numerator.toNat r.denominator.toNat = 1 := by
  have hzero : ∀ x : UInt32, x ≠ 0 ↔ 0 < x.toNat := fun x => by
    rw [Nat.pos_iff_ne_zero, Ne, Ne, ← UInt32.toNat_inj]
    rfl
  rw [← hzero, ← hzero]
  simp only [rationalIsValid, Bool.and_eq_true, bne_iff_ne, beq_iff_eq, ← UInt64.toNat_inj,
    toNat_gcdU64, UInt32.toNat_toUInt64, and_assoc]
  rfl

/-! ### `checked.c`: buffers -/

/-- `tide_buffer`. The bytes beyond `size` that the source keeps are not part of the
value; `allocs` are the outcomes of the reallocations to come. -/
structure Buffer where
  data : Bytes
  capacity : ℕ
  aggregateLimit : ℕ
  allocs : Stream' Bool

/-- A buffer `= {0}` with a limit. -/
def Buffer.empty (aggregateLimit : ℕ) (allocs : Stream' Bool) : Buffer :=
  ⟨[], 0, aggregateLimit, allocs⟩

/-- The doubling loop of `tide_buffer_reserve`. It doubles at most 64 times, and the
fuel is never used up (`le_growCapacity`). -/
def growCapacity (needed : ℕ) : ℕ → ℕ → ℕ
  | 0, next => next
  | fuel + 1, next =>
    if next < needed then
      if next > sizeMax / 2 then needed else growCapacity needed fuel (next * 2)
    else next

/-- `tide_buffer_reserve`. -/
def bufferReserve (buffer : Buffer) (additional : ℕ) : Status × Buffer :=
  if additional > sizeMax - buffer.data.length then (.resource, buffer)
  else
    let needed := buffer.data.length + additional
    if needed > buffer.aggregateLimit ∧ buffer.aggregateLimit ≠ 0 then (.resource, buffer)
    else if needed ≤ buffer.capacity then (.ok, buffer)
    else
      let next := growCapacity needed 65 (if buffer.capacity = 0 then 256 else buffer.capacity)
      if buffer.allocs.head then
        (.ok, { buffer with capacity := next, allocs := buffer.allocs.tail })
      else (.resource, { buffer with allocs := buffer.allocs.tail })

/-- `tide_buffer_append`. -/
def bufferAppend (buffer : Buffer) (data : Bytes) : Status × Buffer :=
  match bufferReserve buffer data.length with
  | (.ok, b) => (.ok, { b with data := b.data ++ data })
  | r => r

/-- `tide_buffer_append_zero`. -/
def bufferAppendZero (buffer : Buffer) (size : ℕ) : Status × Buffer :=
  match bufferReserve buffer size with
  | (.ok, b) => (.ok, { b with data := b.data ++ List.replicate size 0 })
  | r => r

theorem le_growCapacity_of_lt (needed : ℕ) (hn : needed ≤ sizeMax) (fuel next : ℕ)
    (h : sizeMax < next * 2 ^ fuel) :
    needed ≤ growCapacity needed fuel next := by
  induction fuel generalizing next with
  | zero => rw [growCapacity]; omega
  | succ fuel ih =>
    rw [growCapacity]
    split_ifs
    · exact Nat.le_refl _
    · exact ih (next * 2) (by rw [Nat.mul_assoc, Nat.mul_comm 2, ← Nat.pow_succ]; exact h)
    · omega

/-- The doubling loop ends with room for what is needed. -/
theorem le_growCapacity {needed next : ℕ} (hn : needed ≤ sizeMax) (hnext : 0 < next) :
    needed ≤ growCapacity needed 65 next :=
  le_growCapacity_of_lt needed hn 65 next (by unfold sizeMax; omega)

/-- The bytes and `n` more stay within `size_t` and within the limit, zero being no
limit. -/
def Buffer.Fits (b : Buffer) (n : ℕ) : Prop :=
  n ≤ sizeMax - b.data.length ∧ (b.aggregateLimit = 0 ∨ b.data.length + n ≤ b.aggregateLimit)

/-- Reserving changes neither the bytes nor the limit; it succeeds only if they fit,
and fails with `RESOURCE`. -/
theorem bufferReserve_cases (b : Buffer) (n : ℕ) :
    (bufferReserve b n).2.data = b.data ∧ (bufferReserve b n).2.aggregateLimit = b.aggregateLimit ∧
      ((bufferReserve b n).1 = .ok ∧ b.Fits n ∨ (bufferReserve b n).1 = .resource) := by
  unfold bufferReserve Buffer.Fits
  dsimp only
  split_ifs <;> simp <;> omega

/-- On a machine with memory enough, reserving succeeds if the bytes fit. -/
theorem bufferReserve_fits {b : Buffer} {n : ℕ} (hb : b.allocs = Stream'.const true)
    (h : b.Fits n) :
    (bufferReserve b n).1 = .ok ∧ (bufferReserve b n).2.allocs = Stream'.const true := by
  obtain ⟨h1, h2⟩ := h
  have htail : (Stream'.const true).tail = Stream'.const true := rfl
  have hhead : (Stream'.const true).head = true := rfl
  unfold bufferReserve
  dsimp only
  rw [if_neg (by omega), if_neg (by omega), hb, hhead, htail, if_pos rfl]
  by_cases hc : b.data.length + n ≤ b.capacity
  · rw [if_pos hc]; exact ⟨rfl, hb⟩
  · rw [if_neg hc]; exact ⟨rfl, rfl⟩

/-- Both ways of appending reserve room for the bytes and then add them. -/
theorem bufferAppend_eq (b : Buffer) (bs : Bytes) : bufferAppend b bs =
    if (bufferReserve b bs.length).1 = .ok then
      (.ok, { (bufferReserve b bs.length).2 with data := (bufferReserve b bs.length).2.data ++ bs })
    else bufferReserve b bs.length := by
  unfold bufferAppend
  rcases bufferReserve b bs.length with ⟨st, b'⟩
  cases st <;> rfl

theorem bufferAppendZero_eq (b : Buffer) (n : ℕ) :
    bufferAppendZero b n = bufferAppend b (List.replicate n 0) := by
  unfold bufferAppendZero bufferAppend
  rw [List.length_replicate]

/-- **What appending does**: it adds the bytes, which fit, or it fails with
`RESOURCE` and the bytes are those before. -/
theorem bufferAppend_cases (b : Buffer) (bs : Bytes) :
    (bufferAppend b bs).2.aggregateLimit = b.aggregateLimit ∧
      ((bufferAppend b bs).1 = .ok ∧ (bufferAppend b bs).2.data = b.data ++ bs ∧ b.Fits bs.length ∨
        (bufferAppend b bs).1 = .resource ∧ (bufferAppend b bs).2.data = b.data) := by
  obtain ⟨hd, hl, ⟨hok, hf⟩ | hr⟩ := bufferReserve_cases b bs.length
  · rw [bufferAppend_eq, if_pos hok]
    exact ⟨hl, .inl ⟨rfl, by rw [hd], hf⟩⟩
  · rw [bufferAppend_eq, if_neg (by rw [hr]; decide)]
    exact ⟨hl, .inr ⟨hr, hd⟩⟩

theorem bufferAppend_ok {b : Buffer} {bs : Bytes} (h : (bufferAppend b bs).1 = .ok) :
    (bufferAppend b bs).2.data = b.data ++ bs := by
  obtain ⟨-, ⟨-, hd, -⟩ | ⟨hr, -⟩⟩ := bufferAppend_cases b bs
  · exact hd
  · rw [h] at hr; cases hr

/-- Appending one piece after another, as long as it succeeds. -/
def appendAll (b : Buffer) : List Bytes → Status × Buffer
  | [] => (.ok, b)
  | p :: ps => andThen (bufferAppend b p) fun b => appendAll b ps

/-- Pieces that could all be appended are there. -/
theorem appendAll_ok {b : Buffer} {ps : List Bytes} (h : (appendAll b ps).1 = .ok) :
    (appendAll b ps).2.data = b.data ++ ps.flatten ∧
      (appendAll b ps).2.aggregateLimit = b.aggregateLimit := by
  induction ps generalizing b with
  | nil => exact ⟨by simp [appendAll], rfl⟩
  | cons p ps ih =>
    rw [appendAll] at h ⊢
    obtain ⟨h1, h2⟩ := (andThen_fst_eq_ok_iff ..).mp h
    have hd := bufferAppend_ok h1
    have hl := (bufferAppend_cases b p).1
    obtain ⟨ihd, ihl⟩ := ih h2
    have hr : bufferAppend b p = (.ok, (bufferAppend b p).2) := Prod.ext h1 rfl
    rw [hr, andThen_ok, ihd, ihl, hd, hl]
    exact ⟨by simp, rfl⟩

/-- On a machine with memory enough, appending succeeds if the bytes fit. -/
theorem bufferAppend_fits {b : Buffer} {bs : Bytes} (hb : b.allocs = Stream'.const true)
    (h : b.Fits bs.length) :
    (bufferAppend b bs).1 = .ok ∧ (bufferAppend b bs).2.allocs = Stream'.const true := by
  obtain ⟨hok, ha⟩ := bufferReserve_fits hb h
  rw [bufferAppend_eq, if_pos hok]
  exact ⟨rfl, ha⟩

/-- On a machine with memory enough, pieces can all be appended if they fit together. -/
theorem appendAll_fits {b : Buffer} {ps : List Bytes} (hb : b.allocs = Stream'.const true)
    (h : b.Fits ps.flatten.length) :
    (appendAll b ps).1 = .ok := by
  induction ps generalizing b with
  | nil => rfl
  | cons p ps ih =>
    obtain ⟨hsize, hlimit⟩ := h
    rw [List.flatten_cons, List.length_append] at hsize hlimit
    obtain ⟨hok, hallocs⟩ := @bufferAppend_fits b p hb ⟨by omega, by omega⟩
    refine (andThen_fst_eq_ok_iff ..).mpr ⟨hok, ih hallocs ⟨?_, ?_⟩⟩
    · rw [bufferAppend_ok hok, List.length_append]
      omega
    · rw [bufferAppend_ok hok, List.length_append, (bufferAppend_cases b p).1]
      omega

/-- The bytes are within `size_t` and within the limit. -/
structure Buffer.Bounded (b : Buffer) : Prop where
  size : b.data.length ≤ sizeMax
  limit : b.aggregateLimit = 0 ∨ b.data.length ≤ b.aggregateLimit

theorem Buffer.bounded_empty (aggregateLimit : ℕ) (allocs : Stream' Bool) :
    (Buffer.empty aggregateLimit allocs).Bounded :=
  ⟨Nat.zero_le _, .inr (Nat.zero_le _)⟩

/-- Appending keeps a buffer within its bounds. -/
theorem bufferAppend_bounded {b : Buffer} (hb : b.Bounded) (bs : Bytes) :
    (bufferAppend b bs).2.Bounded := by
  obtain ⟨hlim, ⟨-, hdata, hsize, hfits⟩ | ⟨-, hdata⟩⟩ := bufferAppend_cases b bs
  · have hlen := hb.size
    constructor
    · rw [hdata, List.length_append]
      omega
    · rw [hdata, hlim, List.length_append]
      exact hfits
  · constructor
    · rw [hdata]
      exact hb.size
    · rw [hdata, hlim]
      exact hb.limit

theorem appendAll_bounded {b : Buffer} (hb : b.Bounded) (ps : List Bytes) :
    (appendAll b ps).2.Bounded := by
  induction ps generalizing b with
  | nil => exact hb
  | cons p ps ih =>
    rw [appendAll]
    by_cases hok : (bufferAppend b p).1 = .ok
    · have hr : bufferAppend b p = (.ok, (bufferAppend b p).2) := Prod.ext hok rfl
      rw [hr, andThen_ok]
      exact ih (bufferAppend_bounded hb p)
    · rw [andThen_of_ne hok]
      exact bufferAppend_bounded hb p

/-! ### When there is room -/

/-- Pieces of these sizes find room one after the other in a buffer of this size and capacity:
each stays within `size_t` and within the limit, and where the capacity does not do, the
reallocation succeeds. -/
def HasRoom (limit : ℕ) : (size capacity : ℕ) → Stream' Bool → List ℕ → Prop
  | _, _, _, [] => True
  | size, capacity, allocs, n :: ns =>
    n ≤ sizeMax - size ∧ (limit = 0 ∨ size + n ≤ limit) ∧
      if size + n ≤ capacity then HasRoom limit (size + n) capacity allocs ns
      else
        allocs.head = true ∧
          HasRoom limit (size + n) (growCapacity (size + n) 65 (if capacity = 0 then 256
            else capacity)) allocs.tail ns

instance decidableHasRoom (limit : ℕ) :
    (size capacity : ℕ) → (allocs : Stream' Bool) → (ns : List ℕ) →
      Decidable (HasRoom limit size capacity allocs ns)
  | _, _, _, [] => isTrue trivial
  | size, capacity, allocs, n :: ns =>
    have := decidableHasRoom limit (size + n) capacity allocs ns
    have := decidableHasRoom limit (size + n) (growCapacity (size + n) 65 (if capacity = 0 then 256
      else capacity)) allocs.tail ns
    inferInstanceAs (Decidable (n ≤ sizeMax - size ∧ (limit = 0 ∨ size + n ≤ limit) ∧
      if size + n ≤ capacity then HasRoom limit (size + n) capacity allocs ns
      else allocs.head = true ∧ HasRoom limit (size + n) _ allocs.tail ns))

/-- A buffer has room for pieces of these sizes. -/
def Buffer.HasRoom (b : Buffer) (ns : List ℕ) : Prop :=
  Tide.HasRoom b.aggregateLimit b.data.length b.capacity b.allocs ns

instance (b : Buffer) (ns : List ℕ) : Decidable (b.HasRoom ns) :=
  inferInstanceAs (Decidable (Tide.HasRoom b.aggregateLimit b.data.length b.capacity b.allocs ns))

/-- There is room for the next piece if and only if it can be appended. -/
theorem Buffer.hasRoom_cons_iff (b : Buffer) (bs : Bytes) (ns : List ℕ) :
    b.HasRoom (bs.length :: ns) ↔ (bufferAppend b bs).1 = .ok ∧
      (bufferAppend b bs).2.HasRoom ns := by
  unfold Buffer.HasRoom bufferAppend bufferReserve
  rw [Tide.HasRoom]
  dsimp only
  by_cases hsize : bs.length > sizeMax - b.data.length
  · rw [if_pos hsize]
    exact ⟨fun h => absurd h.1 (by omega), fun h => by cases h.1⟩
  rw [if_neg hsize]
  by_cases hlimit : b.data.length + bs.length > b.aggregateLimit ∧ b.aggregateLimit ≠ 0
  · rw [if_pos hlimit]
    exact ⟨fun h => absurd h.2.1 (by omega), fun h => by cases h.1⟩
  rw [if_neg hlimit]
  by_cases hcap : b.data.length + bs.length ≤ b.capacity
  · rw [if_pos hcap, if_pos hcap, List.length_append]
    exact ⟨fun h => ⟨rfl, h.2.2⟩, fun h => ⟨by omega, by omega, h.2⟩⟩
  rw [if_neg hcap, if_neg hcap]
  cases hhead : b.allocs.head with
  | false => exact ⟨fun h => absurd h.2.2.1 nofun, fun h => by cases h.1⟩
  | true =>
    rw [if_pos rfl, List.length_append]
    exact ⟨fun h => ⟨rfl, h.2.2.2⟩, fun h => ⟨by omega, by omega, rfl, h.2⟩⟩

/-- **Pieces can all be appended** if and only if there is room for them. -/
theorem appendAll_eq_ok_iff (b : Buffer) (ps : List Bytes) :
    (appendAll b ps).1 = .ok ↔ b.HasRoom (ps.map List.length) := by
  induction ps generalizing b with
  | nil => exact ⟨fun _ => trivial, fun _ => rfl⟩
  | cons p ps ih => rw [appendAll, andThen_fst_eq_ok_iff, List.map_cons, b.hasRoom_cons_iff, ih]

/-- What was there stays there. -/
theorem appendAll_isPrefix (b : Buffer) (ps : List Bytes) : b.data <+: (appendAll b ps).2.data := by
  induction ps generalizing b with
  | nil => exact List.prefix_refl _
  | cons p ps ih =>
    rw [appendAll]
    obtain ⟨-, ⟨hok, hdata, -⟩ | ⟨hfail, hdata⟩⟩ := bufferAppend_cases b p
    · have hr : bufferAppend b p = (.ok, (bufferAppend b p).2) := Prod.ext hok rfl
      have hrest := ih (bufferAppend b p).2
      rw [hdata] at hrest
      rw [hr, andThen_ok]
      exact (List.prefix_append _ _).trans hrest
    · rw [andThen_of_ne (by rw [hfail]; nofun)]
      exact ⟨[], (List.append_nil _).trans hdata.symm⟩

end Tide
