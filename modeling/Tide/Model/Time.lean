import Mathlib
import Tide.Common
import Tide.Theory.Rounding

/-!
# Timestamps between time bases

The model of `time.c`. A timestamp counts ticks of a time base, a fraction of a second. The
source converts one in 128-bit integers: it cancels the two fractions crosswise, multiplies,
divides towards zero and then corrects the quotient by its remainder. An operation on
128-bit integers that overflows is undefined; here it gives `none`.
-/

namespace Tide

open Theory

/-- `tide_rounding`. -/
inductive Rounding
  | floor
  | ceil
  | nearestEven
  deriving Repr, DecidableEq

/-- The result of an operation on `__int128`. -/
def i128 (x : ℤ) : Option ℤ := if -2 ^ 127 ≤ x ∧ x < 2 ^ 127 then some x else none

/-- The branches of `tide_round_div_i128` that correct the quotient `q` by the size `r` of the
remainder. The low bit of a two's complement `q` is its remainder by 2. -/
def correctQuotient (numerator denominator q r : ℤ) : Rounding → Option ℤ
  | .floor => if numerator < 0 ∧ r ≠ 0 then i128 (q - 1) else some q
  | .ceil => if numerator > 0 ∧ r ≠ 0 then i128 (q + 1) else some q
  | .nearestEven => do
    let twice ← i128 (r * 2)
    if twice > denominator ∨ twice = denominator ∧ q % 2 ≠ 0 then
      i128 (q + if numerator ≥ 0 then 1 else -1) else some q

/-- `tide_round_div_i128`. -/
def roundDivI128 (numerator denominator : ℤ) (rounding : Rounding) :
    Option (Status × Option Int64) :=
  if denominator ≤ 0 then some (.invalidArgument, none)
  else do
    let q ← i128 (numerator.tdiv denominator)
    let r ← i128 (numerator.tmod denominator)
    let r ← (if r < 0 then i128 (-r) else some r)
    let q ← correctQuotient numerator denominator q r rounding
    if q < Int64.minValue.toInt ∨ q > Int64.maxValue.toInt then some (.timeline, none)
    else some (.ok, some (Int64.ofInt q))

/-- `tide_time_convert`. -/
def timeConvert (value : Int64) (source destination : Rational) (rounding : Rounding) :
    Option (Status × Option Int64) :=
  if !rationalIsValid source || !rationalIsValid destination then some (.timeline, none)
  else do
    let num := source.numerator.toUInt64
    let den := source.denominator.toUInt64
    let gcd1 := gcdU64 num destination.numerator.toUInt64
    let num := num / gcd1
    let denominator : ℤ := (destination.numerator.toUInt64 / gcd1).toNat
    let gcd2 := gcdU64 destination.denominator.toUInt64 den
    let denominator ← i128 (denominator * (den / gcd2).toNat)
    let numerator ← i128 (value.toInt * num.toNat)
    let numerator ← i128 (numerator * (destination.denominator.toUInt64 / gcd2).toNat)
    roundDivI128 numerator denominator rounding

/-! ### What a conversion is for -/

/-- A fraction in lowest terms, of positive numbers. -/
def Rational.Valid (r : Rational) : Prop :=
  0 < r.numerator.toNat ∧ 0 < r.denominator.toNat ∧
    Nat.gcd r.numerator.toNat r.denominator.toNat = 1

instance (r : Rational) : Decidable r.Valid := inferInstanceAs (Decidable (_ ∧ _ ∧ _))

/-- The fraction as a number. -/
def Rational.value (r : Rational) : ℚ := r.numerator.toNat / r.denominator.toNat

/-- The integer that a number is rounded to. -/
def Rounding.round : Rounding → ℚ → ℤ
  | .floor, x => ⌊x⌋
  | .ceil, x => ⌈x⌉
  | .nearestEven, x => Theory.nearestEven x

/-- An integer given out in 64 bits, if they hold it. -/
def givenOut (y : ℤ) : Status × Option Int64 :=
  if -2 ^ 63 ≤ y ∧ y < 2 ^ 63 then (.ok, some (Int64.ofInt y)) else (.timeline, none)

/-- The ticks of `source` in ticks of `destination`, rounded. -/
def converted (value : Int64) (source destination : Rational) (rounding : Rounding) : ℤ :=
  rounding.round (value.toInt * source.value / destination.value)

/-! ### No operation overflows -/

theorem i128_of_abs_lt {x : ℤ} (h : |x| < 2 ^ 127) : i128 x = some x := by
  obtain ⟨hlo, hhi⟩ := abs_lt.mp h
  exact if_pos ⟨hlo.le, hhi⟩

/-- The product of a timestamp and two 32-bit numbers. -/
theorem abs_product_lt (v : Int64) {a b : ℕ} (ha : a < 2 ^ 32) (hb : b < 2 ^ 32) :
    |v.toInt * a| < 2 ^ 127 ∧ |v.toInt * a * b| < 2 ^ 127 - 1 := by
  have hv : |v.toInt| ≤ 2 ^ 63 := abs_le.mpr ⟨v.le_toInt, v.toInt_lt.le⟩
  have hva : |v.toInt * a| ≤ 2 ^ 63 * (2 ^ 32 - 1) := by
    rw [abs_mul, Nat.abs_cast]
    exact mul_le_mul hv (by omega) (by positivity) (by positivity)
  have hvab : |v.toInt * a * b| ≤ 2 ^ 63 * (2 ^ 32 - 1) * (2 ^ 32 - 1) := by
    rw [abs_mul, Nat.abs_cast]
    exact mul_le_mul hva (by omega) (by positivity) (by positivity)
  omega

/-- Dividing and correcting the quotient is rounding. -/
theorem roundDivI128_eq {n d : ℤ} (rounding : Rounding) (hn : |n| < 2 ^ 127 - 1) (hd : 0 < d)
    (hmax : d < 2 ^ 126) :
    roundDivI128 n d rounding = some (givenOut (rounding.round (n / d))) := by
  have h := isTruncated_tdiv n hd
  have hq : |n.tdiv d| ≤ |n| := by
    rw [Int.abs_eq_natAbs, Int.abs_eq_natAbs]
    exact_mod_cast Int.natAbs_tdiv_le_natAbs n d
  have hr := h.lt
  have hnn := h.nonneg
  have hsize : (if n.tmod d < 0 then i128 (-n.tmod d) else some (n.tmod d)) = some |n.tmod d| := by
    split
    · rename_i hneg
      rw [← abs_of_neg hneg]
      exact i128_of_abs_lt (by rw [abs_abs]; omega)
    · rename_i hpos
      rw [abs_of_nonneg (not_lt.mp hpos)]
  have hstep : ∀ y, |y| ≤ 1 → i128 (n.tdiv d + y) = some (n.tdiv d + y) := fun y hy =>
    i128_of_abs_lt ((abs_add_le _ _).trans_lt (by omega))
  have htwice : i128 (|n.tmod d| * 2) = some (|n.tmod d| * 2) :=
    i128_of_abs_lt (by rw [abs_of_nonneg] <;> omega)
  have hround : correctQuotient n d (n.tdiv d) |n.tmod d| rounding =
      some (rounding.round (n / d)) := by
    cases rounding with
    | floor =>
      rw [correctQuotient, Rounding.round, h.floor, Int.sub_eq_add_neg, hstep _ (by simp)]
      split <;> rfl
    | ceil =>
      rw [correctQuotient, Rounding.round, h.ceil, hstep _ (by simp)]
      split <;> rfl
    | nearestEven =>
      rw [correctQuotient, Rounding.round, h.nearestEven, htwice, hstep _ (by split <;> simp)]
      simp only [Option.bind_eq_bind, Option.bind_some]
      split <;> rfl
  rw [roundDivI128, if_neg hd.not_ge, i128_of_abs_lt (by omega), i128_of_abs_lt (by omega)]
  simp only [Option.bind_eq_bind, Option.bind_some, hsize, hround, givenOut]
  have hmin : Int64.minValue.toInt = -2 ^ 63 := rfl
  have hmaxv : Int64.maxValue.toInt = 2 ^ 63 - 1 := rfl
  rw [hmin, hmaxv]
  grind

theorem timeConvert_of_not_valid {source destination : Rational}
    (h : ¬(source.Valid ∧ destination.Valid)) (value : Int64) (rounding : Rounding) :
    timeConvert value source destination rounding = some (.timeline, none) := by
  have hvalid : ∀ r : Rational, rationalIsValid r = true ↔ r.Valid := rationalIsValid_iff
  rw [← hvalid, ← hvalid] at h
  rw [timeConvert, if_pos]
  grind

theorem timeConvert_of_valid {source destination : Rational} (hs : source.Valid)
    (hd : destination.Valid) (value : Int64) (rounding : Rounding) :
    timeConvert value source destination rounding =
      some (givenOut (converted value source destination rounding)) := by
  have hs' := (rationalIsValid_iff _).mpr hs
  have hd' := (rationalIsValid_iff _).mpr hd
  obtain ⟨hsn, hsd, -⟩ := hs
  obtain ⟨hdn, hdd, -⟩ := hd
  rw [timeConvert, hs', hd', if_neg (by simp)]
  simp only [UInt64.toNat_div, toNat_gcdU64, UInt32.toNat_toUInt64, converted, Rational.value]
  rw [← cancelled_div _ hsn hsd]
  set g := Nat.gcd source.numerator.toNat destination.numerator.toNat
  set g' := Nat.gcd destination.denominator.toNat source.denominator.toNat
  have hpos : 0 < destination.numerator.toNat / g :=
    Nat.div_pos (Nat.gcd_le_right _ hdn) (Nat.gcd_pos_of_pos_left _ hsn)
  have hpos' : 0 < source.denominator.toNat / g' :=
    Nat.div_pos (Nat.gcd_le_right _ hsd) (Nat.gcd_pos_of_pos_left _ hdd)
  have hlt := (Nat.div_le_self _ g).trans_lt source.numerator.toNat_lt
  have hlt' := (Nat.div_le_self _ g').trans_lt destination.denominator.toNat_lt
  have hden : (destination.numerator.toNat / g) * (source.denominator.toNat / g') <
      2 ^ 32 * 2 ^ 32 :=
    Nat.mul_lt_mul'' ((Nat.div_le_self _ _).trans_lt destination.numerator.toNat_lt)
      ((Nat.div_le_self _ _).trans_lt source.denominator.toNat_lt)
  have hden0 := Nat.mul_pos hpos hpos'
  obtain ⟨hnum, hnum'⟩ := abs_product_lt value hlt hlt'
  rw [← Nat.cast_mul, i128_of_abs_lt (by rw [Nat.abs_cast]; omega), Option.bind_eq_bind,
    Option.bind_some, i128_of_abs_lt hnum, Option.bind_some, i128_of_abs_lt (by omega),
      Option.bind_some, roundDivI128_eq rounding hnum' (by exact_mod_cast hden0) (by omega)]
  push_cast
  rfl

/-- **Timestamps are converted exactly**: by any rounding, to the integer that the number of
ticks of the destination is rounded to, if 64 bits hold it. Nothing overflows on the way. -/
theorem timeConvert_exact (value : Int64) (source destination : Rational) (rounding : Rounding) :
    timeConvert value source destination rounding =
      some (if source.Valid ∧
        destination.Valid then givenOut (converted value source destination rounding)
        else (.timeline, none)) := by
  split
  · rename_i h
    exact timeConvert_of_valid h.1 h.2 value rounding
  · rename_i h
    exact timeConvert_of_not_valid h value rounding

/-! ### Conversions keep the order and can be undone -/

theorem givenOut_eq_ok_iff {y : ℤ} {w : Int64} : givenOut y = (.ok, some w) ↔ y = w.toInt := by
  constructor
  · intro h
    rw [givenOut] at h
    split at h
    · rename_i hfits
      obtain ⟨-, hw⟩ := Prod.mk.inj h
      rw [← Option.some.inj hw, Int64.toInt_ofInt_of_le hfits.1 hfits.2]
    · simp at h
  · rintro rfl
    rw [givenOut, if_pos ⟨w.le_toInt, w.toInt_lt⟩, Int64.ofInt_toInt]

theorem timeConvert_eq_ok_iff {v w : Int64} {a b : Rational} {rounding : Rounding} :
    timeConvert v a b rounding = some (.ok, some w) ↔ (a.Valid ∧ b.Valid) ∧
      converted v a b rounding = w.toInt := by
  by_cases h : a.Valid ∧ b.Valid
  · simp [timeConvert_of_valid h.1 h.2, givenOut_eq_ok_iff, h]
  · simp [timeConvert_of_not_valid h, h]

theorem Rational.Valid.value_pos {r : Rational} (h : r.Valid) : 0 < r.value :=
  div_pos (by exact_mod_cast h.1) (by exact_mod_cast h.2.1)

theorem Rounding.round_mono (rounding : Rounding) : Monotone rounding.round := by
  intro x y hle
  cases rounding with
  | floor => exact Int.floor_mono hle
  | ceil => exact Int.ceil_mono hle
  | nearestEven => exact (isNearestEven_nearestEven x).mono (isNearestEven_nearestEven y) hle

/-- Rounding `there` from a coarse base to a fine one is undone by rounding `back`. -/
inductive Undone : Rounding → Rounding → Prop
  | nearestEven : Undone .nearestEven .nearestEven
  | floorCeil : Undone .floor .ceil
  | ceilFloor : Undone .ceil .floor

theorem Undone.round {there back : Rounding} (h : Undone there back) (v : ℤ) {s : ℚ} (hs : 1 ≤ s) :
    back.round (there.round (v * s) / s) = v := by
  cases h with
  | nearestEven => exact nearestEven_nearestEven hs
  | floorCeil => exact ceil_floor hs
  | ceilFloor => exact floor_ceil hs

/-- **Conversions never reorder timestamps, and through a finer base they come back.** -/
theorem timeConvert_orderly (a b : Rational) :
    (∀ rounding (v v' w w' : Int64), v ≤ v' → timeConvert v a b rounding = some (.ok, some w) →
      timeConvert v' a b rounding = some (.ok, some w') → w ≤ w') ∧
    (b.value ≤ a.value → ∀ there back, Undone there back → ∀ v w : Int64,
      timeConvert v a b there = some (.ok, some w) →
        timeConvert w b a back = some (.ok, some v)) := by
  constructor
  · intro rounding v v' w w' hle h h'
    obtain ⟨⟨ha, hb⟩, hw⟩ := timeConvert_eq_ok_iff.mp h
    obtain ⟨-, hw'⟩ := timeConvert_eq_ok_iff.mp h'
    rw [Int64.le_iff_toInt_le, ← hw, ← hw']
    apply rounding.round_mono
    have := ha.value_pos
    have := hb.value_pos
    have : (v.toInt : ℚ) ≤ v'.toInt := by exact_mod_cast Int64.le_iff_toInt_le.mp hle
    gcongr
  · intro hfine there back hundone v w h
    obtain ⟨⟨ha, hb⟩, hw⟩ := timeConvert_eq_ok_iff.mp h
    have hpos := hb.value_pos
    have hscale : 1 ≤ a.value / b.value := (one_le_div hpos).mpr hfine
    rw [timeConvert_eq_ok_iff]
    refine ⟨⟨hb, ha⟩, ?_⟩
    calc converted w b a back
        = back.round (there.round (v.toInt * (a.value / b.value)) / (a.value / b.value)) := by
          rw [converted, ← hw, converted, div_div_eq_mul_div, ← mul_div_assoc]
      _ = v.toInt := hundone.round v.toInt hscale

/-- One tick and two at 48 kHz are one and three at 90 kHz, rounded down; the one comes back
rounded up. -/
theorem timeConvert_orderly_sample :
    timeConvert 1 ⟨1, 48000⟩ ⟨1, 90000⟩ .floor = some (.ok, some 1) ∧
    timeConvert 2 ⟨1, 48000⟩ ⟨1, 90000⟩ .floor = some (.ok, some 3) ∧ (1 : Int64) ≤ 3 ∧
    timeConvert 1 ⟨1, 90000⟩ ⟨1, 48000⟩ .ceil = some (.ok, some 1) := by
  have hone : timeConvert 1 ⟨1, 48000⟩ ⟨1, 90000⟩ .floor = some (.ok, some 1) := by
    rw [timeConvert_eq_ok_iff]
    refine ⟨by decide, ?_⟩
    simp [converted, Rational.value, Rounding.round]
    norm_num
  have htwo : timeConvert 2 ⟨1, 48000⟩ ⟨1, 90000⟩ .floor = some (.ok, some 3) := by
    rw [timeConvert_eq_ok_iff]
    refine ⟨by decide, ?_⟩
    simp [converted, Rational.value, Rounding.round]
    norm_num
  obtain ⟨hmono, hback⟩ := timeConvert_orderly ⟨1, 48000⟩ ⟨1, 90000⟩
  refine ⟨hone, htwo, hmono _ _ _ _ _ (by decide) hone htwo, ?_⟩
  apply hback _ _ _ .floorCeil _ _ hone
  simp [Rational.value]
  norm_num

end Tide
