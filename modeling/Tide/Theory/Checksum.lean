import Mathlib.Algebra.Group.Nat.Defs
import Mathlib.Data.List.Basic
import Mathlib.Data.Nat.Notation
import Mathlib.Logic.Function.Iterate

/-!
# Shift-register checksums

A checksum of the cyclic kind keeps a register of `w` bits. Absorbing an item
adds it (exclusive or) into the register and then clocks the register a fixed
number of times; a clock moves every bit down one place and adds the feedback
word when a one falls out. Clocking is linear in exclusive or (`lfsr_xor`), so
two runs over the same items differ by what the items do to the difference of
the starting registers alone (`run_xor_run`).

Where the feedback word has the top bit, clocking loses nothing (`lfsr_injective`), and
a difference within one word is seen whatever follows (`run_word_injective`).

The other consequence of interest is `run_append_checksum`: a string that ends in its
own checksum takes every register to a register that depends on the *length* of
the string and not on the string. An outer checksum that runs over strings each
already closed by its own checksum therefore says nothing of what they hold.
-/

namespace Tide.Theory

variable {w : ℕ}

/-! ### The register -/

/-- One clock: every bit moves down one place, and the feedback word `poly` is
added when the bit that falls out is one. -/
def lfsr (poly s : BitVec w) : BitVec w := if s.getLsbD 0 then (s >>> 1) ^^^ poly else s >>> 1

/-- `f` is linear in exclusive or. -/
def XorLinear (f : BitVec w → BitVec w) : Prop := ∀ a b, f (a ^^^ b) = f a ^^^ f b

theorem lfsr_xor (poly : BitVec w) : XorLinear (lfsr poly) := by
  intro a b
  unfold lfsr
  simp only [BitVec.getLsbD_xor, BitVec.ushiftRight_xor_distrib]
  have cancel : ∀ x y : BitVec w, x ^^^ poly ^^^ (y ^^^ poly) = x ^^^ y := by
    intro x y
    rw [BitVec.xor_comm y poly, BitVec.xor_assoc, ← BitVec.xor_assoc poly poly y, BitVec.xor_self,
      BitVec.zero_xor]
  cases a.getLsbD 0 <;> cases b.getLsbD 0
  · rfl
  · exact BitVec.xor_assoc ..
  · simp only [Bool.bne_false, if_true, Bool.false_eq_true, if_false]
    rw [BitVec.xor_assoc, BitVec.xor_assoc, BitVec.xor_comm poly]
  · exact (cancel _ _).symm

theorem XorLinear.iterate {f : BitVec w → BitVec w} (hf : XorLinear f)
    (n : ℕ) : XorLinear f^[n] := by
  induction n with
  | zero => exact fun _ _ => rfl
  | succ n ih =>
      intro a b; rw [Function.iterate_succ_apply, Function.iterate_succ_apply,
        Function.iterate_succ_apply, hf, ih]

/-- Clocking undoes a move up of one place that lost no bit. -/
theorem lfsr_shiftLeft_one (poly x : BitVec w) (hx : x.toNat * 2 < 2 ^ w) :
    lfsr poly (x <<< 1) = x := by
  have hlow : (x <<< 1).getLsbD 0 = false := by simp
  rw [lfsr, hlow]
  simp only [Bool.false_eq_true, if_false]
  apply BitVec.eq_of_toNat_eq
  rw [BitVec.toNat_ushiftRight, BitVec.toNat_shiftLeft, Nat.shiftLeft_eq, Nat.shiftRight_eq_div_pow,
    Nat.pow_one, Nat.mod_eq_of_lt hx, Nat.mul_div_cancel _ (by decide)]

/-- Clocking `k` times undoes a move up of `k` places that lost no bit. -/
theorem lfsr_iterate_shiftLeft (poly x : BitVec w) (k : ℕ) (hx : x.toNat * 2 ^ k < 2 ^ w) :
    (lfsr poly)^[k] (x <<< k) = x := by
  induction k with
  | zero => simp
  | succ k ih =>
    have hk : x.toNat * 2 ^ k * 2 < 2 ^ w := by rw [Nat.mul_assoc, ← Nat.pow_succ]; exact hx
    have hshift : (x <<< k).toNat = x.toNat * 2 ^ k := by
      rw [BitVec.toNat_shiftLeft, Nat.shiftLeft_eq, Nat.mod_eq_of_lt (by omega)]
    rw [Function.iterate_succ_apply, BitVec.shiftLeft_add,
      lfsr_shiftLeft_one _ _ (by rw [hshift]; exact hk)]
    exact ih (by omega)

/-- A register whose feedback word has the top bit loses nothing: the top bit after a clock tells
whether the word was added. -/
theorem lfsr_injective {poly : BitVec w} (htop : poly.getLsbD (w - 1) = true) :
    Function.Injective (lfsr poly) := by
  intro a b hab
  have hzero : lfsr poly (a ^^^ b) = 0#w := by
    rw [lfsr_xor poly a b, hab, BitVec.xor_self]
  have hlow : (a ^^^ b).getLsbD 0 = false := by
    by_contra hone
    rw [lfsr, if_pos (by simpa using hone)] at hzero
    have hbit := congrArg (fun s => s.getLsbD (w - 1)) hzero
    have hw : w ≤ 1 + (w - 1) := by omega
    simp [htop, BitVec.getLsbD_of_ge _ _ hw] at hbit
  rw [lfsr, hlow, if_neg (by simp)] at hzero
  rw [← BitVec.xor_eq_zero_iff]
  apply BitVec.eq_of_getLsbD_eq
  intro i _
  cases i with
  | zero => simpa using hlow
  | succ i =>
    have hbit := congrArg (fun s => s.getLsbD i) hzero
    simpa [Nat.add_comm] using hbit

/-! ### Runs -/

variable {β : Type} (clock : BitVec w → BitVec w) (inj : β → BitVec w)

/-- The register after absorbing a string of items, `clock` being what is done
after each. -/
def run (s : BitVec w) (xs : List β) : BitVec w := xs.foldl (fun s b => clock (s ^^^ inj b)) s

@[simp] theorem run_nil (s : BitVec w) : run clock inj s [] = s := rfl

@[simp] theorem run_cons (s : BitVec w) (b : β) (xs : List β) :
    run clock inj s (b :: xs) = run clock inj (clock (s ^^^ inj b)) xs := rfl

theorem run_append (s : BitVec w) (xs ys : List β) :
    run clock inj s (xs ++ ys) = run clock inj (run clock inj s xs) ys := by
  simp [run, List.foldl_append]

variable {clock inj}

/-- Two runs over the same items differ by what as many clocks do to the
difference of the registers they start from. -/
theorem run_xor_run (hclock : XorLinear clock) (s t : BitVec w) (xs : List β) :
    run clock inj s xs ^^^ run clock inj t xs = clock^[xs.length] (s ^^^ t) := by
  induction xs generalizing s t with
  | nil => rfl
  | cons b xs ih =>
    have hb : s ^^^ inj b ^^^ (t ^^^ inj b) = s ^^^ t := by
      rw [BitVec.xor_comm t, BitVec.xor_assoc, ← BitVec.xor_assoc (inj b), BitVec.xor_self,
        BitVec.zero_xor]
    rw [run_cons, run_cons, ih, ← hclock, hb, List.length_cons, Function.iterate_succ_apply]

/-- Registers that differ still differ after the same items. -/
theorem run_injective (hclock : Function.Injective clock) (xs : List β) :
    Function.Injective fun s => run clock inj s xs := by
  induction xs with
  | nil => exact fun _ _ h => h
  | cons b xs ih => exact fun s t h => (BitVec.xor_left_inj _).mp (hclock (ih h))

/-- **A burst of one word is not missed**: when a word is absorbed as a whole, strings that are
the same but for a word leave different registers. -/
theorem run_word_injective (hclock : Function.Injective clock) {word : BitVec w → List β}
    {mix : BitVec w → BitVec w} (hword : ∀ s c, run clock inj s (word c) = mix (s ^^^ c))
    (hmix : Function.Injective mix) (s : BitVec w) {c c' : BitVec w} (xs : List β)
    (h : run clock inj s (word c ++ xs) = run clock inj s (word c' ++ xs)) : c = c' := by
  rw [run_append, run_append] at h
  have h := run_injective hclock xs h
  rw [hword, hword] at h
  exact (BitVec.xor_right_inj s).mp (hmix h)

/-- **A string closed by its own checksum**: when the register started at `i`
checks the string, and the checksum (the register, with the constant `k` added)
is absorbed as one word, what becomes of any register depends only on how long
the string is. -/
theorem run_append_checksum (hclock : XorLinear clock) {word : BitVec w → List β}
    {mix : BitVec w → BitVec w} (hword : ∀ s c, run clock inj s (word c) = mix (s ^^^ c))
    (s i k : BitVec w) (xs : List β) :
    run clock inj s (xs ++ word (run clock inj i xs ^^^ k)) =
      mix (clock^[xs.length] (s ^^^ i) ^^^ k) := by
  rw [run_append, hword, ← BitVec.xor_assoc, run_xor_run hclock]

end Tide.Theory
