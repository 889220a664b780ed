import Mathlib.Algebra.Group.Nat.Defs
import Mathlib.Data.List.Basic
import Mathlib.Data.Nat.Notation

/-!
# Loops over input that is still arriving

A loop reads a string of items from a position, one step at a time; a step
either asks for more input, or stops for good with a result, or goes on to a
later position. `Runs step data pos s o` says that the loop, started at `pos` in
state `s` with the items `data` at hand, ends with `o`: it has stopped, or it
waits at a position for items that have not arrived.

A step is *monotone* when more input never changes an answer it has given. Then
a loop that was interrupted and resumed ends as the loop that had all its input
from the beginning (`Runs.resume`, `Runs.extend_stop`), and since the loop is
deterministic (`Runs.det`), the pieces in which the input arrived do not matter.
-/

namespace Tide.Theory

variable {β S R : Type}

/-- What a step answers. -/
inductive Move (S R : Type) where
  /-- More input is needed. -/
  | more
  /-- The loop is over, with this result. -/
  | stop (r : R)
  /-- The loop goes on at `pos` in state `s`. -/
  | go (pos : ℕ) (s : S)

/-- How a loop ends for now. -/
inductive Outcome (S R : Type) where
  /-- It is over, with this result. -/
  | stop (r : R)
  /-- It waits at `pos` in state `s`; it has used all its input if `pos` is its end. -/
  | wait (pos : ℕ) (s : S)

/-- The loop on the items `data`, from a position and a state to its outcome. -/
inductive Runs (step : List β → ℕ → S → Move S R) (data : List β) : ℕ → S → Outcome S R → Prop where
  /-- All the input is used. -/
  | done {s : S} : Runs step data data.length s (.wait data.length s)
  /-- The step needs more. -/
  | more {pos : ℕ} {s : S} (hpos : pos < data.length) (h : step data pos s = .more) :
      Runs step data pos s (.wait pos s)
  /-- The step stops. -/
  | stop {pos : ℕ} {s : S} {r : R} (hpos : pos < data.length) (h : step data pos s = .stop r) :
      Runs step data pos s (.stop r)
  /-- The step goes on. -/
  | go {pos pos' : ℕ} {s s' : S} {o : Outcome S R} (hpos : pos < data.length)
      (h : step data pos s = .go pos' s') (hr : Runs step data pos' s' o) : Runs step data pos s o

/-- More input never changes an answer, up to `limit` items in all. -/
def StepMono (limit : ℕ) (step : List β → ℕ → S → Move S R) : Prop :=
  ∀ data ext pos s, (data ++ ext).length ≤ limit → pos < data.length → step data pos s ≠ .more →
    step (data ++ ext) pos s = step data pos s

variable {limit : ℕ} {step : List β → ℕ → S → Move S R}

/-- The loop has one outcome. -/
theorem Runs.det {data : List β} {pos : ℕ} {s : S} {o₁ o₂ : Outcome S R}
    (h₁ : Runs step data pos s o₁) (h₂ : Runs step data pos s o₂) : o₁ = o₂ := by
  induction h₁ with
  | done =>
    cases h₂ with
    | done => rfl
    | more hpos _ | stop hpos _ | go hpos _ _ => exact absurd hpos (Nat.lt_irrefl _)
  | more hpos h =>
    cases h₂ with
    | done => exact absurd hpos (Nat.lt_irrefl _)
    | more => rfl
    | stop _ h' | go _ h' _ => rw [h] at h'; cases h'
  | stop hpos h =>
    cases h₂ with
    | done => exact absurd hpos (Nat.lt_irrefl _)
    | more _ h' | go _ h' _ => rw [h] at h'; cases h'
    | stop _ h' => rw [h] at h'; cases h'; rfl
  | go hpos h _ ih =>
    cases h₂ with
    | done => exact absurd hpos (Nat.lt_irrefl _)
    | more _ h' | stop _ h' => rw [h] at h'; cases h'
    | go _ h' hr => rw [h] at h'; cases h'; exact ih hr

/-- A loop waits at the end of its input, or where the step needs more. -/
theorem Runs.at_wait {data : List β} {pos p : ℕ} {s s' : S}
    (h : Runs step data pos s (.wait p s')) :
    p = data.length ∨ p < data.length ∧ step data p s' = .more := by
  generalize ho : (Outcome.wait p s' : Outcome S R) = o at h
  induction h with
  | done => cases ho; exact .inl rfl
  | more hpos h => cases ho; exact .inr ⟨hpos, h⟩
  | stop => cases ho
  | go _ _ _ ih => exact ih ho

/-- A loop whose steps go forward waits no earlier than it was started. -/
theorem Runs.forward {data : List β}
    (hgo : ∀ {pos pos' : ℕ} {s s' : S}, step data pos s = .go pos' s' → pos ≤ pos') {pos p : ℕ}
    {s s' : S} (h : Runs step data pos s (.wait p s')) : pos ≤ p := by
  generalize ho : (Outcome.wait p s' : Outcome S R) = o at h
  induction h with
  | done | more => cases ho; exact Nat.le_refl _
  | stop => cases ho
  | go _ h _ ih => exact Nat.le_trans (hgo h) (ih ho)

/-- A loop that waits, started where it waits, waits there. -/
theorem Runs.again {data : List β} {pos p : ℕ} {s s' : S} (h : Runs step data pos s (.wait p s')) :
    Runs step data p s' (.wait p s') := by
  obtain rfl | ⟨hpos, hmore⟩ := h.at_wait
  · exact .done
  · exact .more hpos hmore

/-- A loop that has stopped would have stopped so with more input. -/
theorem Runs.extend_stop (hm : StepMono limit step) {data ext : List β} {pos : ℕ} {s : S} {r : R}
    (hl : (data ++ ext).length ≤ limit) (h : Runs step data pos s (.stop r)) :
    Runs step (data ++ ext) pos s (.stop r) := by
  generalize ho : (Outcome.stop r : Outcome S R) = o at h
  induction h with
  | done | more => cases ho
  | stop hpos h =>
    cases ho
    exact .stop (by rw [List.length_append]; omega)
      (by rw [hm _ _ _ _ hl hpos (by rw [h]; simp), h])
  | go hpos h _ ih =>
    exact .go (by rw [List.length_append]; omega) (by rw [hm _ _ _ _ hl hpos (by rw [h]; simp), h])
      (ih ho)

/-- **Resuming is going on**: a loop that waits, resumed where it waits once more
input is there, ends as the loop that had that input from the beginning. -/
theorem Runs.resume (hm : StepMono limit step) {data ext : List β} {pos p : ℕ} {s s' : S}
    {o : Outcome S R} (hl : (data ++ ext).length ≤ limit) (h : Runs step data pos s (.wait p s'))
    (h' : Runs step (data ++ ext) p s' o) :
    Runs step (data ++ ext) pos s o := by
  generalize ho : (Outcome.wait p s' : Outcome S R) = o' at h
  induction h with
  | done | more => cases ho; exact h'
  | stop => cases ho
  | go hpos h _ ih =>
    exact .go (by rw [List.length_append]; omega) (by rw [hm _ _ _ _ hl hpos (by rw [h]; simp), h])
      (ih ho)

end Tide.Theory
