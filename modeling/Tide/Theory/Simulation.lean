import Mathlib.Data.List.Basic
import Mathlib.Data.Nat.Notation

/-!
# Objects that are called

An object answers calls one after the other and changes its state on the way.
`answers` are its answers to a list of calls. Two objects whose states stay related,
and that answer alike in related states, cannot be told apart by calling them
(`answers_eq`). Something that only sees the calls and their answers can be kept related to the
object (`answers_follow`).

A run is a list of calls as well. What holds of each of its calls (`AtEach`) and what holds
in each state it comes to (`Throughout`) are the same thing if a call keeps the invariant
exactly when it meets its condition (`throughout_iff`).
-/

namespace Tide.Theory

variable {S T C A : Type}

/-- The answers to some calls, and the state behind them. -/
def answers (call : S → C → A × S) (s : S) : List C → List A × S
  | [] => ([], s)
  | c :: cs => ((call s c).1 :: (answers call (call s c).2 cs).1, (answers call (call s c).2 cs).2)

/-- Calls one after the other, and then more. -/
theorem answers_append (call : S → C → A × S) (s : S) (cs ds : List C) :
    answers call s (cs ++ ds) =
      ((answers call s cs).1 ++ (answers call (answers call s cs).2 ds).1,
        (answers call (answers call s cs).2 ds).2) := by
  induction cs generalizing s with
  | nil => rfl
  | cons c cs ih =>
    rw [List.cons_append, answers, ih]
    rfl

/-- What every call preserves holds behind any number of calls. -/
theorem answers_invariant {call : S → C → A × S} {I : S → Prop}
    (hstep : ∀ s c, I s → I (call s c).2) {s : S} (hs : I s) (cs : List C) :
    I (answers call s cs).2 := by
  induction cs generalizing s with
  | nil => exact hs
  | cons c cs ih => exact ih (hstep s c hs)

/-- **Simulation**: if related states answer a call alike and stay related, then so do they
with any number of calls. -/
theorem answers_eq {f : S → C → A × S} {g : T → C → A × T} {R : S → T → Prop} {P : C → Prop}
    (hstep : ∀ s t c, R s t → P c → (f s c).1 = (g t c).1 ∧ R (f s c).2 (g t c).2) {s : S} {t : T}
    (hR : R s t) {cs : List C} (hcs : ∀ c ∈ cs, P c) :
    (answers f s cs).1 = (answers g t cs).1 ∧ R (answers f s cs).2 (answers g t cs).2 := by
  induction cs generalizing s t with
  | nil => exact ⟨rfl, hR⟩
  | cons c cs ih =>
    obtain ⟨hans, hR'⟩ := hstep s t c hR (hcs c (List.mem_cons_self ..))
    obtain ⟨hrest, hend⟩ := ih hR' fun d hd => hcs d (List.mem_cons_of_mem _ hd)
    rw [answers, answers, hans, hrest]
    exact ⟨rfl, hend⟩

/-- **Following**: if each call keeps a relation to something that sees the call and its answer, and
nothing else, then so does any number of calls. -/
theorem answers_follow {call : S → C → A × S} {follow : T → C × A → T} {R : S → T → Prop}
    {P : C → Prop} (hstep : ∀ s t c, R s t → P c → R (call s c).2 (follow t (c, (call s c).1)))
    {s : S} {t : T} (hR : R s t) {cs : List C} (hcs : ∀ c ∈ cs, P c) :
    R (answers call s cs).2 ((cs.zip (answers call s cs).1).foldl follow t) := by
  induction cs generalizing s t with
  | nil => exact hR
  | cons c cs ih =>
    have hR' := hstep s t c hR (hcs c (List.mem_cons_self ..))
    rw [answers, List.zip_cons_cons, List.foldl_cons]
    exact ih hR' fun d hd => hcs d (List.mem_cons_of_mem _ hd)

/-! ### Runs -/

section

variable {step : S → C → S}

/-- `P` holds of each call and the state in which it is made. -/
def AtEach (step : S → C → S) (P : S → C → Prop) (s : S) : List C → Prop
  | [] => True
  | c :: cs => P s c ∧ AtEach step P (step s c) cs

/-- `Q` holds in each state, from the first one to the last. -/
def Throughout (step : S → C → S) (Q : S → Prop) (s : S) : List C → Prop
  | [] => Q s
  | c :: cs => Q s ∧ Throughout step Q (step s c) cs

theorem Throughout.head {Q : S → Prop} {s : S} {cs : List C}
    (h : Throughout step Q s cs) : Q s := by
  cases cs with
  | nil => exact h
  | cons c cs => exact h.1

/-- What holds at the start, and is kept by each legal call, implies `Q` throughout. -/
theorem throughout_of {I Q : S → Prop} {Legal : S → C → Prop} (hIQ : ∀ s, I s → Q s)
    (hkeeps : ∀ s c, I s → Legal s c → I (step s c)) {s : S} (hs : I s) {cs : List C}
    (hlegal : AtEach step Legal s cs) : Throughout step Q s cs := by
  induction cs generalizing s with
  | nil => exact hIQ s hs
  | cons c cs ih =>
    obtain ⟨hc, hcs⟩ := hlegal
    exact ⟨hIQ s hs, ih (hkeeps s c hs hc) hcs⟩

/-- **The exact condition of a run**: `Q` holds throughout if and only if each call meets its
condition, when that keeps the invariant `I` of `Q` and nothing else keeps `Q`. -/
theorem throughout_iff {I Q : S → Prop} {Legal Meets : S → C → Prop} (hIQ : ∀ s, I s → Q s)
    (hkeeps : ∀ s c, I s → Legal s c → Meets s c → I (step s c))
    (hbreaks : ∀ s c, I s → Legal s c → Q (step s c) → Meets s c) {s : S} (hs : I s) {cs : List C}
    (hlegal : AtEach step Legal s cs) :
    Throughout step Q s cs ↔ AtEach step Meets s cs := by
  induction cs generalizing s with
  | nil => exact iff_of_true (hIQ s hs) trivial
  | cons c cs ih =>
    obtain ⟨hc, hcs⟩ := hlegal
    constructor
    · rintro ⟨-, hrest⟩
      have hmeets := hbreaks s c hs hc hrest.head
      exact ⟨hmeets, (ih (hkeeps s c hs hc hmeets) hcs).mp hrest⟩
    · rintro ⟨hmeets, hrest⟩
      exact ⟨hIQ s hs, (ih (hkeeps s c hs hc hmeets) hcs).mpr hrest⟩

end

end Tide.Theory
