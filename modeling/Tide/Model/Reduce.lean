import Tide.Model.Time

/-!
# Time bases in lowest terms

`tide_time_convert` takes only time bases in lowest terms, and `tide_rational_reduce` makes them
so. Of the fractions in lowest terms there is one with the value of a given one, and reducing
finds it; so by way of `tide_rational_reduce` timestamps are converted exactly between any two
time bases, unless a numerator or a denominator is zero (`rationalReduce_normalizes`).
-/

namespace Tide

/-- `tide_rational_reduce`. -/
def rationalReduce (value : Rational) : Status × Rational :=
  if value.numerator = 0 ∨ value.denominator = 0 then (.timeline, value)
  else
    let gcd := gcdU64 value.numerator.toUInt64 value.denominator.toUInt64
    (.ok, ⟨(value.numerator.toUInt64 / gcd).toUInt32, (value.denominator.toUInt64 / gcd).toUInt32⟩)

theorem UInt32.toNat_pos_iff (x : UInt32) : 0 < x.toNat ↔ x ≠ 0 := by
  rw [Nat.pos_iff_ne_zero, Ne, Ne, ← UInt32.toNat_inj]
  rfl

/-- A quotient of a number of 32 bits has 32 bits. -/
theorem toNat_toUInt32_div (x : UInt32) (g : UInt64) :
    (x.toUInt64 / g).toUInt32.toNat = x.toNat / g.toNat := by
  have hlt := x.toNat_lt
  have hle := Nat.div_le_self x.toNat g.toNat
  rw [UInt64.toNat_toUInt32, UInt64.toNat_div, UInt32.toNat_toUInt64, Nat.mod_eq_of_lt (by omega)]

/-- Fractions in lowest terms with the same value are the same. -/
theorem Rational.Valid.eq_of_value {r s : Rational} (hr : r.Valid) (hs : s.Valid)
    (h : r.value = s.value) : r = s := by
  obtain ⟨-, hrpos, hrcoprime⟩ := hr
  obtain ⟨-, hspos, hscoprime⟩ := hs
  have hvalue : ((r.numerator.toNat : ℤ) : ℚ) / (r.denominator.toNat : ℤ) =
      ((s.numerator.toNat : ℤ) : ℚ) / (s.denominator.toNat : ℤ) := by
    simpa [Rational.value] using h
  obtain ⟨hnum, hden⟩ := Rat.div_int_inj (by exact_mod_cast hrpos) (by exact_mod_cast hspos)
    (by simpa using hrcoprime) (by simpa using hscoprime)
    hvalue
  have hnum' : r.numerator = s.numerator := UInt32.toNat_inj.mp (by exact_mod_cast hnum)
  have hden' : r.denominator = s.denominator := UInt32.toNat_inj.mp (by exact_mod_cast hden)
  cases r
  cases s
  simp_all

/-- **What reducing does**: it cancels the greatest common divisor, unless there is a zero. -/
theorem rationalReduce_cases (r : Rational) :
    (r.numerator = 0 ∨ r.denominator = 0) ∧ rationalReduce r = (.timeline, r) ∨
      (r.numerator ≠ 0 ∧ r.denominator ≠ 0) ∧ (rationalReduce r).1 = .ok ∧
        (rationalReduce r).2.Valid ∧
        (rationalReduce r).2.value = r.value := by
  by_cases hzero : r.numerator = 0 ∨ r.denominator = 0
  · exact .inl ⟨hzero, if_pos hzero⟩
  have hreduce : rationalReduce r =
      (.ok, ⟨(r.numerator.toUInt64 / gcdU64 r.numerator.toUInt64 r.denominator.toUInt64).toUInt32,
        (r.denominator.toUInt64 / gcdU64 r.numerator.toUInt64 r.denominator.toUInt64).toUInt32⟩) :=
        if_neg hzero
  rw [not_or] at hzero
  have hnum := (UInt32.toNat_pos_iff _).mpr hzero.1
  have hden := (UInt32.toNat_pos_iff _).mpr hzero.2
  refine .inr ⟨hzero, ?_⟩
  rw [hreduce]
  have hgcd : (gcdU64 r.numerator.toUInt64 r.denominator.toUInt64).toNat =
      Nat.gcd r.numerator.toNat r.denominator.toNat := by
    rw [toNat_gcdU64, UInt32.toNat_toUInt64, UInt32.toNat_toUInt64]
  have hpos := Nat.gcd_pos_of_pos_left r.denominator.toNat hnum
  have hdvdn := Nat.gcd_dvd_left r.numerator.toNat r.denominator.toNat
  have hdvdd := Nat.gcd_dvd_right r.numerator.toNat r.denominator.toNat
  refine ⟨rfl, ?_, ?_⟩
  · unfold Rational.Valid
    rw [toNat_toUInt32_div, toNat_toUInt32_div, hgcd]
    exact ⟨Nat.div_pos (Nat.le_of_dvd hnum hdvdn) hpos, Nat.div_pos (Nat.le_of_dvd hden hdvdd) hpos,
      Nat.gcd_div_gcd_div_gcd_of_pos_left hnum⟩
  · unfold Rational.value
    rw [toNat_toUInt32_div, toNat_toUInt32_div, hgcd, Nat.cast_div hdvdn (by positivity),
      Nat.cast_div hdvdd (by positivity)]
    have hne : ((Nat.gcd r.numerator.toNat r.denominator.toNat : ℕ) : ℚ) ≠ 0 := by positivity
    field_simp

/-- **Reducing normalizes.** It fails exactly for a zero, and leaves it as it is; otherwise it
gives the one fraction in lowest terms that has the same value. Timestamps are converted exactly
by way of it, between any two time bases that can be reduced, and not between others. -/
theorem rationalReduce_normalizes :
    (∀ r : Rational, ((rationalReduce r).1 = .ok ↔ r.numerator ≠ 0 ∧ r.denominator ≠ 0) ∧
      ((rationalReduce r).1 ≠ .ok → rationalReduce r = (.timeline, r)) ∧
      ((rationalReduce r).1 = .ok → ∀ s : Rational, s = (rationalReduce r).2 ↔ s.Valid ∧
        s.value = r.value)) ∧
    ∀ (value : Int64) (a b : Rational) (rounding : Rounding),
      timeConvert value (rationalReduce a).2 (rationalReduce b).2 rounding =
        some (if (rationalReduce a).1 = .ok ∧ (rationalReduce b).1 = .ok
          then givenOut (converted value a b rounding) else (.timeline, none)) := by
  constructor
  · intro r
    obtain ⟨hzero, hreduce⟩ | ⟨hne, hok, hvalid, hvalue⟩ := rationalReduce_cases r
    · rw [hreduce]
      refine ⟨iff_of_false (by simp) ?_, fun _ => rfl, fun h => nomatch h⟩
      rw [← not_or]
      exact not_not.mpr hzero
    · refine ⟨iff_of_true hok hne, fun h => absurd hok h, fun _ s => ?_⟩
      constructor
      · rintro rfl
        exact ⟨hvalid, hvalue⟩
      · rintro ⟨hs, hsame⟩
        exact hs.eq_of_value hvalid (hsame.trans hvalue.symm)
  · intro value a b rounding
    have hnot : ∀ r : Rational, r.numerator = 0 ∨ r.denominator = 0 → ¬ r.Valid := by
      rintro r hzero ⟨hnum, hden, -⟩
      rw [UInt32.toNat_pos_iff] at hnum hden
      exact hzero.elim hnum hden
    obtain ⟨hzero, hreduce⟩ | ⟨-, hok, hvalid, hvalue⟩ := rationalReduce_cases a
    · rw [hreduce, timeConvert_of_not_valid (fun h => hnot a hzero h.1), if_neg (by simp)]
    obtain ⟨hzero', hreduce'⟩ | ⟨-, hok', hvalid', hvalue'⟩ := rationalReduce_cases b
    · rw [hreduce', timeConvert_of_not_valid (fun h => hnot b hzero' h.2), if_neg (by simp)]
    rw [timeConvert_of_valid hvalid hvalid', if_pos ⟨hok, hok'⟩, converted, hvalue, hvalue']
    rfl

example : rationalReduce ⟨1001, 30030⟩ = (.ok, ⟨1, 30⟩) := by decide +kernel

end Tide
