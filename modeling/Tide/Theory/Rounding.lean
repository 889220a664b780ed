import Mathlib.Algebra.Order.Floor.Ring
import Mathlib.Algebra.Order.Field.Basic
import Mathlib.Data.Nat.Cast.Field
import Mathlib.Tactic.Linarith
import Mathlib.Tactic.FieldSimp
import Mathlib.Tactic.Ring

/-!
# Rounding to integers

Down, up, and to the nearest integer, where of two that are equally near the even one is
taken. All three keep the order and leave integers as they are. An integer that is scaled
up, rounded, scaled down again and rounded comes back, if it is rounded to the nearest both
times, or down and then up, or up and then down.
-/

namespace Tide.Theory

variable {α : Type*} [Field α] [LinearOrder α] [IsStrictOrderedRing α]

/-! ### The nearest integer -/

/-- No integer is nearer to `x` than `y`, and if another is as near then `y` is even. -/
structure IsNearestEven (x : α) (y : ℤ) : Prop where
  near : |x - y| ≤ 1 / 2
  even : |x - y| = 1 / 2 → Even y

/-- **The order is kept.** -/
theorem IsNearestEven.mono {x x' : α} {y y' : ℤ} (h : IsNearestEven x y) (h' : IsNearestEven x' y')
    (hle : x ≤ x') : y ≤ y' := by
  by_contra hlt
  have hstep : (y' : α) + 1 ≤ y := by exact_mod_cast not_le.mp hlt
  obtain ⟨-, hhi⟩ := abs_le.mp h'.near
  obtain ⟨hlo, -⟩ := abs_le.mp h.near
  -- then both are ties, and of two neighbours one is odd
  have hx : x - y = -(1 / 2) := by linarith
  have hx' : x' - y' = 1 / 2 := by linarith
  have hy : y = y' + 1 := by
    have : (y : α) = ((y' + 1 : ℤ) : α) := by push_cast; linarith
    exact_mod_cast this
  have heven := h.even (by rw [hx, abs_neg, abs_of_pos one_half_pos])
  have heven' := h'.even (by rw [hx', abs_of_pos one_half_pos])
  rw [hy, Int.even_add_one] at heven
  exact heven heven'

/-- There is one such integer. -/
theorem IsNearestEven.unique {x : α} {y y' : ℤ} (h : IsNearestEven x y)
    (h' : IsNearestEven x y') : y = y' :=
  le_antisymm (h.mono h' le_rfl) (h'.mono h le_rfl)

/-- An integer is nearest to itself. -/
theorem isNearestEven_intCast (n : ℤ) : IsNearestEven (n : α) n := by
  constructor
  · simp
  · intro h
    rw [sub_self, abs_zero] at h
    exact absurd h.symm (ne_of_gt one_half_pos)

/-- The integer nearest to a quotient, by its remainder. -/
theorem isNearestEven_div_iff {n d y : ℤ} (hd : 0 < d) :
    IsNearestEven ((n : α) / d) y ↔ 2 * |n - y * d| ≤ d ∧ (2 * |n - y * d| = d → Even y) := by
  have hpos : (0 : α) < d := by exact_mod_cast hd
  have hdist : |(n : α) / d - y| = |((n - y * d : ℤ) : α)| / d := by
    rw [← abs_of_pos hpos, ← abs_div, abs_of_pos hpos]
    congr 1
    push_cast
    field_simp
  have hle : |(n : α) / d - y| ≤ 1 / 2 ↔ 2 * |n - y * d| ≤ d := by
    rw [hdist, div_le_div_iff₀ hpos two_pos, ← Int.cast_abs, one_mul, mul_comm]
    exact_mod_cast Iff.rfl
  have heq : |(n : α) / d - y| = 1 / 2 ↔ 2 * |n - y * d| = d := by
    rw [hdist, div_eq_div_iff hpos.ne' two_ne_zero, ← Int.cast_abs, one_mul, mul_comm]
    exact_mod_cast Iff.rfl
  exact ⟨fun h => ⟨hle.mp h.near, fun ht => h.even (heq.mpr ht)⟩,
    fun h => ⟨hle.mpr h.1, fun ht => h.2 (heq.mp ht)⟩⟩

variable [FloorRing α]

/-- A quotient rounded down. -/
theorem floor_div_eq_iff {n d y : ℤ} (hd : 0 < d) :
    ⌊(n : α) / d⌋ = y ↔ y * d ≤ n ∧ n < (y + 1) * d := by
  have hpos : (0 : α) < d := by exact_mod_cast hd
  rw [Int.floor_eq_iff, le_div_iff₀ hpos, div_lt_iff₀ hpos]
  exact_mod_cast Iff.rfl

/-- A quotient rounded up. -/
theorem ceil_div_eq_iff {n d y : ℤ} (hd : 0 < d) :
    ⌈(n : α) / d⌉ = y ↔ (y - 1) * d < n ∧ n ≤ y * d := by
  have hpos : (0 : α) < d := by exact_mod_cast hd
  rw [Int.ceil_eq_iff, lt_div_iff₀ hpos, div_le_iff₀ hpos]
  exact_mod_cast Iff.rfl

/-- The nearest integer, or the even one of two. -/
def nearestEven (x : α) : ℤ :=
  if Int.fract x < 1 / 2 then ⌊x⌋
  else if Int.fract x = 1 / 2 ∧ Even ⌊x⌋ then ⌊x⌋
  else ⌊x⌋ + 1

theorem isNearestEven_nearestEven (x : α) : IsNearestEven x (nearestEven x) := by
  have hfract : x - ⌊x⌋ = Int.fract x := rfl
  have hnn := Int.fract_nonneg x
  have hlt := Int.fract_lt_one x
  unfold nearestEven
  split
  · rename_i hsmall
    rw [← hfract] at hsmall hnn
    constructor
    · rw [abs_of_nonneg hnn]
      exact hsmall.le
    · intro htie
      rw [abs_of_nonneg hnn] at htie
      exact absurd htie hsmall.ne
  split
  · rename_i htie
    rw [← hfract] at htie
    constructor
    · rw [htie.1, abs_of_pos one_half_pos]
    · exact fun _ => htie.2
  · rename_i hbig hodd
    have habs : |x - ((⌊x⌋ + 1 : ℤ) : α)| = 1 - Int.fract x := by
      rw [abs_of_nonpos (by push_cast; linarith)]
      push_cast
      linarith
    constructor
    · rw [habs]
      linarith
    · intro htie
      rw [habs] at htie
      have hhalf : Int.fract x = 1 / 2 := by linarith
      rw [Int.even_add_one]
      exact fun heven => hodd ⟨hhalf, heven⟩

/-- What is nearest is what `nearestEven` finds. -/
theorem nearestEven_eq_iff {x : α} {y : ℤ} : nearestEven x = y ↔ IsNearestEven x y :=
  ⟨fun h => h ▸ isNearestEven_nearestEven x, fun h => (isNearestEven_nearestEven x).unique h⟩

/-! ### A quotient towards zero and what remains -/

/-- `q` is the quotient of `n` by `d` towards zero, and `r` the size of what remains. -/
structure IsTruncated (n d q r : ℤ) : Prop where
  nonneg : 0 ≤ r
  lt : r < d
  up : 0 ≤ n → n = q * d + r
  down : n ≤ 0 → n = q * d - r

theorem isTruncated_tdiv (n : ℤ) {d : ℤ} (hd : 0 < d) : IsTruncated n d (n.tdiv d) |n.tmod d| := by
  have hsplit := Int.tdiv_mul_add_tmod n d
  constructor
  · exact abs_nonneg _
  · exact abs_lt.mpr ⟨Int.lt_tmod_of_pos n hd, Int.tmod_lt_of_pos n hd⟩
  · intro hn
    rw [abs_of_nonneg (Int.tmod_nonneg d hn), hsplit]
  · intro hn
    have hneg := Int.tmod_nonneg d (Int.neg_nonneg.mpr hn)
    rw [Int.neg_tmod] at hneg
    rw [abs_of_nonpos (Int.neg_nonneg.mp hneg), sub_neg_eq_add, hsplit]

section
variable {n d q r : ℤ} (h : IsTruncated n d q r)
include h

theorem IsTruncated.pos : 0 < d := h.nonneg.trans_lt h.lt

/-- Rounding down is one less for a negative number that leaves a remainder. -/
theorem IsTruncated.floor : ⌊(n : α) / d⌋ = if n < 0 ∧ r ≠ 0 then q - 1 else q := by
  rw [floor_div_eq_iff h.pos]
  obtain ⟨hnn, hlt, hup, hdown⟩ := h
  split
  · rename_i hc
    have hn := hdown hc.1.le
    have hr := lt_of_le_of_ne hnn (Ne.symm hc.2)
    constructor <;> linarith
  · rename_i hc
    by_cases hn : n < 0
    · have hr : r = 0 := by by_contra hr; exact hc ⟨hn, hr⟩
      have hn := hdown hn.le
      constructor <;> linarith
    · have hn := hup (not_lt.mp hn)
      constructor <;> linarith

/-- Rounding up is one more for a positive number that leaves a remainder. -/
theorem IsTruncated.ceil : ⌈(n : α) / d⌉ = if n > 0 ∧ r ≠ 0 then q + 1 else q := by
  rw [ceil_div_eq_iff h.pos]
  obtain ⟨hnn, hlt, hup, hdown⟩ := h
  split
  · rename_i hc
    have hn := hup hc.1.le
    have hr := lt_of_le_of_ne hnn (Ne.symm hc.2)
    constructor <;> linarith
  · rename_i hc
    by_cases hn : 0 < n
    · have hr : r = 0 := by by_contra hr; exact hc ⟨hn, hr⟩
      have hn := hup hn.le
      constructor <;> linarith
    · have hn := hdown (not_lt.mp hn)
      constructor <;> linarith

/-- Rounding to the nearest is one further from zero when what remains is more than half of
`d`, or is half of it and the quotient is odd. -/
theorem IsTruncated.nearestEven : nearestEven ((n : α) / d) =
    if r * 2 > d ∨ r * 2 = d ∧ q % 2 ≠ 0 then q + (if n ≥ 0 then 1 else -1) else q := by
  rw [nearestEven_eq_iff, isNearestEven_div_iff h.pos]
  obtain ⟨hnn, hlt, hup, hdown⟩ := h
  split
  · rename_i hc
    have hdist : |n - (q + if n ≥ 0 then 1 else -1) * d| = d - r := by
      split
      · rename_i hn
        have hn := hup hn
        rw [abs_of_nonpos (by linarith)]
        linarith
      · rename_i hn
        have hn := hdown (not_le.mp hn).le
        rw [abs_of_nonneg (by linarith)]
        linarith
    rw [hdist]
    constructor
    · omega
    · intro htie
      have hodd : q % 2 ≠ 0 := by omega
      rw [Int.even_iff]
      split <;> omega
  · rename_i hc
    have hdist : |n - q * d| = r := by
      by_cases hn : 0 ≤ n
      · rw [hup hn, add_sub_cancel_left, abs_of_nonneg hnn]
      · rw [hdown (not_le.mp hn).le, sub_sub_cancel_left, abs_neg, abs_of_nonneg hnn]
    rw [hdist, Int.even_iff]
    omega

end

/-! ### There and back -/

/-- Cancelling two fractions crosswise does not change their quotient. -/
theorem cancelled_div {F : Type*} [Field F] [CharZero F] (v : F) {a b : ℕ} (ha : 0 < a) (hb : 0 < b)
    (c d : ℕ) :
    v * (a / Nat.gcd a c : ℕ) * (d / Nat.gcd d b : ℕ) / ((c / Nat.gcd a c : ℕ) *
      (b / Nat.gcd d b : ℕ)) = v * (a / b) / (c / d) := by
  have hg : (Nat.gcd a c : F) ≠ 0 := by exact_mod_cast (Nat.gcd_pos_of_pos_left c ha).ne'
  have hg' : (Nat.gcd d b : F) ≠ 0 := by exact_mod_cast (Nat.gcd_pos_of_pos_right d hb).ne'
  rw [Nat.cast_div (Nat.gcd_dvd_left a c) hg, Nat.cast_div (Nat.gcd_dvd_right a c) hg,
    Nat.cast_div (Nat.gcd_dvd_left d b) hg', Nat.cast_div (Nat.gcd_dvd_right d b) hg']
  field_simp

variable {s : α} {v : ℤ}

/-- Scaled up and down, to the nearest integer both times. -/
theorem nearestEven_nearestEven (hs : 1 ≤ s) : nearestEven ((nearestEven (v * s) : α) / s) = v := by
  have hpos : 0 < s := one_pos.trans_le hs
  have hnear := (isNearestEven_nearestEven ((v : α) * s)).near
  set w := nearestEven ((v : α) * s) with hw
  have hdist : |(w : α) / s - v| = |(v : α) * s - w| / s := by
    rw [abs_sub_comm, ← abs_of_pos hpos, ← abs_div, abs_of_pos hpos]
    congr 1
    field_simp
  have hle : |(w : α) / s - v| ≤ 1 / 2 := by
    rw [hdist]
    exact (div_le_self (abs_nonneg _) hs).trans hnear
  rw [nearestEven_eq_iff]
  refine ⟨hle, fun htie => ?_⟩
  -- a tie needs the scale 1, and then nothing is rounded
  rw [hdist, div_eq_iff hpos.ne'] at htie
  have hone : s = 1 := by linarith
  rw [hone, mul_one] at hw
  have hwv : w = v := by rw [hw, nearestEven_eq_iff]; exact isNearestEven_intCast v
  rw [hone, hwv] at htie
  norm_num at htie

/-- Scaled up and rounded down, scaled down and rounded up. -/
theorem ceil_floor (hs : 1 ≤ s) : ⌈(⌊(v : α) * s⌋ : α) / s⌉ = v := by
  have hpos : 0 < s := one_pos.trans_le hs
  rw [Int.ceil_eq_iff]
  constructor
  · rw [lt_div_iff₀ hpos]
    have := Int.lt_floor_add_one ((v : α) * s)
    linarith
  · rw [div_le_iff₀ hpos]
    exact Int.floor_le _

/-- Scaled up and rounded up, scaled down and rounded down. -/
theorem floor_ceil (hs : 1 ≤ s) : ⌊(⌈(v : α) * s⌉ : α) / s⌋ = v := by
  have hpos : 0 < s := one_pos.trans_le hs
  rw [Int.floor_eq_iff]
  constructor
  · rw [le_div_iff₀ hpos]
    exact Int.le_ceil _
  · rw [div_lt_iff₀ hpos]
    have := Int.ceil_lt_add_one ((v : α) * s)
    linarith

end Tide.Theory
