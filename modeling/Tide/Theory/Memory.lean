import Tide.Theory.Cursor
import Mathlib.Tactic.Ring

/-!
# Reading memory through pointers with bounds

A memory is a list of items under addresses of 64 bits, whose arithmetic wraps.
`Loads β α` is a computation that loads items from a memory. It is stuck (`none`) if there
is no item at an address it loads from, and if something it asserts does not hold; so a
computation that returns has loaded within the memory and asserted only what is true.

A `Window` is a part of the memory, by its pointer and its size, with a position in it.
`Scans β α` are programs that read from a window through the pointer, and `Refines k p q`
says that such a program does what the program `q` does with the items of the window as a
list: it is not stuck, it returns the same or fails where `q` fails, and it moves the
position by `k` items or more. The laws of `pure`, `>>=` and `guard` build the refinement of a
longer program from those of its parts. `Tests` are programs that fail with an error.
-/

namespace Tide.Theory

variable {β α γ E S : Type}

/-! ### Loading -/

/-- Computations that load from a memory; `none` is one that is stuck. -/
abbrev Loads (β α : Type) := ReaderT (List β) Option α

/-- The item at an address. -/
def load (p : UInt64) : Loads β β := fun m => m[p.toNat]?

/-- A computation that is stuck. -/
def stuck : Loads β α := fun _ => none

/-- What is asserted holds, or the computation is stuck. -/
def assert (P : Prop) [Decidable P] : Loads β Unit := if P then pure () else stuck

/-- A loop that folds `f` over the items at `p + i`, `p + i + 1` and so on, with `n` rounds
to go. -/
def foldLoads (f : S → β → S) (p : UInt64) : (n : ℕ) → (i : UInt64) → S → Loads β S
  | 0, _, s => pure s
  | n + 1, i, s => do
    let b ← load (p + i)
    foldLoads f p n (i + 1) (f s b)

/-- The items at `p`, `p + 1` and so on. -/
def loadMany (p : UInt64) (n : ℕ) : Loads β (List β) := foldLoads (fun bs b => bs ++ [b]) p n 0 []

/-- A loop that looks for an item at `i`, `i + 1` and so on, with `n` rounds to go. -/
def findLoads (P : β → Bool) : (n : ℕ) → (i : UInt64) → Loads β (Option UInt64)
  | 0, _ => pure none
  | n + 1, i => do
    let b ← load i
    if P b then return some i else findLoads P n (i + 1)

theorem run_assert {P : Prop} [Decidable P] (h : P) (m : List β) :
    (assert P : Loads β Unit).run m = some () := by
  rw [assert, if_pos h]
  rfl

theorem load_run {m : List β} {p : UInt64} (h : p.toNat < m.length) :
    (load p).run m = some (m.get ⟨p.toNat, h⟩) :=
  List.getElem?_eq_getElem h

theorem run_bind_of_some {x : Loads β α} {f : α → Loads β γ} {m : List β} {a : α}
    (h : x.run m = some a) :
    (x >>= f).run m = (f a).run m := by
  rw [ReaderT.run_bind, h]
  rfl

theorem toNat_add_of_lt {a b : UInt64} (h : a.toNat + b.toNat < 2 ^ 64) :
    (a + b).toNat = a.toNat + b.toNat := by
  rw [UInt64.toNat_add, Nat.mod_eq_of_lt h]

theorem toNat_succ_of_lt {i : UInt64} (h : i.toNat + 1 < 2 ^ 64) :
    (i + 1).toNat = i.toNat + 1 := toNat_add_of_lt h

/-- The items from an address on. -/
theorem drop_of_lt {m : List β} {k : ℕ} (h : k < m.length) :
    m.drop k = m.get ⟨k, h⟩ :: m.drop (k + 1) := List.drop_eq_getElem_cons h

theorem foldLoads_run {m : List β} (hm : m.length < 2 ^ 64) (f : S → β → S) {p : UInt64} {n : ℕ}
    {i : UInt64} (h : p.toNat + i.toNat + n ≤ m.length) (s : S) :
    (foldLoads f p n i s).run m = some (((m.drop (p.toNat + i.toNat)).take n).foldl f s) := by
  induction n generalizing i s with
  | zero => rfl
  | succ n ih =>
    have hp : (p + i).toNat = p.toNat + i.toNat := toNat_add_of_lt (by omega)
    have hi : (i + 1).toNat = i.toNat + 1 := toNat_succ_of_lt (by omega)
    have hlt : (p + i).toNat < m.length := by omega
    have hnext : p.toNat + (i + 1).toNat = (p + i).toNat + 1 := by omega
    rw [foldLoads, run_bind_of_some (load_run hlt), ih (by omega), hnext, ← hp, drop_of_lt hlt,
      List.take_succ_cons, List.foldl_cons]

/-- A range of memory is loaded. -/
theorem loadMany_run {m : List β} (hm : m.length < 2 ^ 64) {p : UInt64} {n : ℕ}
    (h : p.toNat + n ≤ m.length) :
    (loadMany p n).run m = some ((m.drop p.toNat).take n) := by
  have hfold : ∀ bs cs : List β, cs.foldl (fun bs b => bs ++ [b]) bs = bs ++ cs := by
    intro bs cs
    induction cs generalizing bs with
    | nil => exact (List.append_nil bs).symm
    | cons c cs ih => rw [List.foldl_cons, ih, List.append_assoc]; rfl
  rw [loadMany, foldLoads_run hm _ (by simpa using h), hfold, List.nil_append]
  rfl

/-- The first item in a range of memory that passes a test. -/
theorem findLoads_run {m : List β} (hm : m.length < 2 ^ 64) (P : β → Bool) {n : ℕ} {i : UInt64}
    (h : i.toNat + n ≤ m.length) :
    (findLoads P n i).run m = some ((((m.drop i.toNat).take n).findIdx? P).map fun k => i +
      UInt64.ofNat k) := by
  induction n generalizing i with
  | zero => rfl
  | succ n ih =>
    have hi : (i + 1).toNat = i.toNat + 1 := toNat_succ_of_lt (by omega)
    have hlt : i.toNat < m.length := by omega
    rw [findLoads, run_bind_of_some (load_run hlt), drop_of_lt hlt, List.take_succ_cons,
      List.findIdx?_cons]
    split
    · simp
    · rw [ih (by omega), hi, Option.map_map]
      congr 2
      funext k
      change i + 1 + UInt64.ofNat k = i + UInt64.ofNat (k + 1)
      rw [UInt64.ofNat_add, UInt64.add_assoc, UInt64.add_comm 1]
      rfl

/-! ### Windows -/

/-- A part of the memory, and a position in it. -/
structure Window where
  /-- The pointer to the first item. -/
  data : UInt64
  /-- The number of items. -/
  size : UInt64
  /-- The position. -/
  offset : UInt64

/-- There are `n` items behind the position. -/
def Window.Has (w : Window) (n : UInt64) : Prop := w.offset ≤ w.size ∧ n ≤ w.size - w.offset

instance (w : Window) (n : UInt64) : Decidable (w.Has n) := by unfold Window.Has; infer_instance

/-- Programs that read from a window and may fail. -/
abbrev Scans (β α : Type) := StateT Window (OptionT (Loads β)) α

/-- Reading `n` items, if they are there: `f` gets the pointer to them. -/
def Scans.take (n : UInt64) (f : UInt64 → Loads β α) : Scans β α := fun w =>
  OptionT.mk (if w.Has n then do return some (← f (w.data + w.offset),
    { w with offset := w.offset + n }) else pure none)

/-- Programs that read from a window and may stop with an error. -/
abbrev Tests (β E α : Type) := StateT Window (ExceptT E (Loads β)) α

/-- A failure is the error `e`. -/
def Scans.orError (e : E) (p : Scans β α) : Tests β E α := fun w =>
  ExceptT.mk ((fun x => x.elim (.error e) .ok) <$> (p.run w).run)

/-- What a program does with a window on the memory `m`. -/
def Scans.exec (p : Scans β α) (w : Window) (m : List β) :
    Option (Option (α × Window)) := (p.run w).run.run m

/-- What a program that may stop with an error does with a window on the memory `m`. -/
def Tests.exec (p : Tests β E α) (w : Window) (m : List β) :
    Option (Except E (α × Window)) := (p.run w).run.run m

/-! ### Windows as lists -/

/-- The window lies in the memory and holds the items of the cursor, which is at its
position. -/
structure Window.Sees (m : List β) (w : Window) (c : Cursor β) : Prop where
  inside : w.data.toNat + w.size.toNat ≤ m.length
  items : c.data = (m.drop w.data.toNat).take w.size.toNat
  position : c.offset = w.offset.toNat
  within : w.offset.toNat ≤ w.size.toNat

/-- The window `w'` is `w` with the position moved by `k` items or more. -/
structure Window.Moves (k : ℕ) (w w' : Window) : Prop where
  data : w'.data = w.data
  size : w'.size = w.size
  offset : w.offset.toNat + k ≤ w'.offset.toNat

theorem Window.Moves.refl (w : Window) : w.Moves 0 w := ⟨rfl, rfl, Nat.le_refl _⟩

theorem Window.Moves.trans {j k : ℕ} {w w' w'' : Window} (h : w.Moves j w')
    (h' : w'.Moves k w'') : w.Moves (j + k) w'' :=
  ⟨h'.data.trans h.data, h'.size.trans h.size, by have := h.offset; have := h'.offset; omega⟩

theorem Window.Sees.length {m : List β} {w : Window} {c : Cursor β} (h : w.Sees m c) :
    c.data.length = w.size.toNat := by
  rw [h.items, List.length_take, List.length_drop]
  have := h.inside
  omega

/-- The two outcomes are the same, the one on the memory and the one on the list. -/
inductive Same (m : List β) (k : ℕ) (w : Window) :
    Option (α × Cursor β) → Option (Option (α × Window)) → Prop where
  | fails : Same m k w none (some none)
  | reads {a : α} {c : Cursor β} {w' : Window} (hsees : w'.Sees m c) (hmoves : w.Moves k w') :
      Same m k w (some (a, c)) (some (some (a, w')))

theorem Same.eq_of_none {m : List β} {k : ℕ} {w : Window} {y : Option (Option (α × Window))}
    (h : Same m k w (none : Option (α × Cursor β)) y) : y = some none := by
  cases h
  rfl

theorem Same.eq_of_some {m : List β} {k : ℕ} {w : Window} {a : α} {c : Cursor β}
    {y : Option (Option (α × Window))} (h : Same m k w (some (a, c)) y) :
    ∃ w', y = some (some (a, w')) ∧ w'.Sees m c ∧ w.Moves k w' := by
  cases h with
  | reads hsees hmoves => exact ⟨_, rfl, hsees, hmoves⟩

/-- **Refinement**: on any window in the memory the program `p` does what `q` does with the list
of its items, and when it succeeds it has moved by `k` or more. -/
def Refines (k : ℕ) (p : Scans β α) (q : Reads β α) : Prop :=
  ∀ m w c, m.length < 2 ^ 64 → w.Sees m c → Same m k w (q.run c) (p.exec w m)

theorem refines_pure (a : α) :
    Refines 0 (pure a : Scans β α) (pure a) := fun _ w _ _ hs => .reads hs (.refl w)

theorem refines_failure (k : ℕ) : Refines k (failure : Scans β α) failure := fun _ _ _ _ _ => .fails

theorem refines_guard {P Q : Prop} [Decidable P] [Decidable Q] (h : P ↔ Q) :
    Refines 0 (guard P : Scans β Unit) (guard Q) := by
  unfold guard
  by_cases hP : P
  · rw [if_pos hP, if_pos (h.mp hP)]
    exact refines_pure ()
  · rw [if_neg hP, if_neg (fun hQ => hP (h.mpr hQ))]
    exact refines_failure 0

theorem Refines.mono {j k : ℕ} {p : Scans β α} {q : Reads β α} (h : Refines k p q)
    (hle : j ≤ k) : Refines j p q := by
  intro m w c hm hs
  have hsame := h m w c hm hs
  generalize q.run c = x, p.exec w m = y at hsame ⊢
  cases hsame with
  | fails => exact .fails
  | reads hsees hmoves =>
      exact .reads hsees ⟨hmoves.data, hmoves.size, by have := hmoves.offset; omega⟩

theorem Scans.exec_bind (p : Scans β α) (f : α → Scans β γ) (w : Window) (m : List β) :
    (p >>= f).exec w m = (p.exec w m).bind fun x => match x with
      | none => some none
      | some (a, w') => (f a).exec w' m := by
  unfold Scans.exec
  rw [StateT.run_bind, OptionT.run_bind, Option.elimM, ReaderT.run_bind]
  cases (p.run w).run.run m with
  | none => rfl
  | some x => cases x <;> rfl

/-- One program and then another. -/
theorem Refines.bind {j k : ℕ} {p : Scans β α} {q : Reads β α} {f : α → Scans β γ}
    {g : α → Reads β γ} (hp : Refines j p q) (hf : ∀ a, Refines k (f a) (g a)) :
    Refines (j + k) (p >>= f) (q >>= g) := by
  intro m w c hm hs
  have hsame := hp m w c hm hs
  rw [Scans.exec_bind, StateT.run_bind]
  generalize q.run c = x, p.exec w m = y at hsame ⊢
  cases hsame with
  | fails => exact .fails
  | @reads a c' w' hsees hmoves =>
    have hsame' := hf a m w' c' hm hsees
    change Same m (j + k) w ((g a).run c') ((f a).exec w' m)
    generalize (g a).run c' = x', (f a).exec w' m = y' at hsame' ⊢
    cases hsame' with
    | fails => exact .fails
    | reads hsees' hmoves' => exact .reads hsees' (hmoves.trans hmoves')

/-- Reading `n` items: `g` gets the items from the position on. -/
theorem refines_take {n : UInt64} {f : UInt64 → Loads β α} {g : List β → α}
    (hf : ∀ (m : List β) (p : UInt64) (rest : List β), m.length < 2 ^ 64 →
      p.toNat + n.toNat ≤ m.length → (m.drop p.toNat).take n.toNat <+: rest →
        (f p).run m = some (g rest)) :
    Refines n.toNat (Scans.take n f) fun c => if c.offset ≤ c.data.length ∧
      n.toNat ≤ c.data.length - c.offset then
      some (g (c.data.drop c.offset), { c with offset := c.offset + n.toNat }) else none := by
  intro m w c hm hs
  have hlen := hs.length
  have hpos := hs.position
  have hin := hs.inside
  have hwithin := hs.within
  have hle : w.offset ≤ w.size := UInt64.le_iff_toNat_le.mpr hwithin
  have hsub := UInt64.toNat_sub_of_le _ _ hle
  change Same m n.toNat w (if _ then _ else _)
    (((if w.Has n then _ else _ : Loads β (Option (α × Window)))).run m)
  by_cases hhas : w.Has n
  · have hroom : n.toNat ≤ w.size.toNat - w.offset.toNat := by
      have := UInt64.le_iff_toNat_le.mp hhas.2
      rwa [hsub] at this
    have hptr : (w.data + w.offset).toNat = w.data.toNat + w.offset.toNat :=
      toNat_add_of_lt (by omega)
    have hoff : (w.offset + n).toNat = w.offset.toNat + n.toNat := toNat_add_of_lt (by omega)
    have hitems : (m.drop (w.data + w.offset).toNat).take n.toNat <+: c.data.drop c.offset := by
      rw [hs.items, hptr, hpos, List.drop_take, List.drop_drop]
      exact List.take_prefix_take_left hroom
    rw [if_pos (by omega), if_pos hhas, run_bind_of_some (hf m _ _ hm (by omega) hitems)]
    refine .reads ⟨hin, hs.items, ?_, ?_⟩ ⟨rfl, rfl, ?_⟩
    · rw [hoff, hpos]
    · change (w.offset + n).toNat ≤ w.size.toNat
      omega
    · exact hoff.ge
  · rw [if_neg, if_neg hhas]
    · exact .fails
    · rintro ⟨-, hroom⟩
      exact hhas ⟨hle, UInt64.le_iff_toNat_le.mpr (by omega)⟩

/-- A window on a range of the memory, at its beginning. -/
theorem Window.sees_range {m : List β} {p n : UInt64} (h : p.toNat + n.toNat ≤ m.length) :
    (Window.mk p n 0).Sees m ⟨(m.drop p.toNat).take n.toNat, 0⟩ := ⟨h, rfl, rfl, Nat.zero_le _⟩

/-- Reading a range of the memory from its beginning. -/
theorem Refines.range {k : ℕ} {p : Scans β α} {q : Reads β α} (hpq : Refines k p q) {m : List β}
    (hm : m.length < 2 ^ 64) {data size : UInt64} (h : data.toNat + size.toNat ≤ m.length) :
    Same m k ⟨data, size, 0⟩ (q.run ⟨(m.drop data.toNat).take size.toNat, 0⟩)
    ((p.run ⟨data, size, 0⟩).run.run m) :=
  hpq m _ _ hm (Window.sees_range h)

/-! ### Programs that stop with an error -/

/-- The two outcomes are the same, errors included. -/
inductive SameTest (m : List β) (k : ℕ) (w : Window) :
    Except E (α × Cursor β) → Option (Except E (α × Window)) → Prop where
  | stops (e : E) : SameTest m k w (.error e) (some (.error e))
  | passes {a : α} {c : Cursor β} {w' : Window} (hsees : w'.Sees m c) (hmoves : w.Moves k w') :
      SameTest m k w (.ok (a, c)) (some (.ok (a, w')))

/-- Refinement on the memory `m`, for programs that stop with an error. -/
def RefinesTest (m : List β) (k : ℕ) (p : Tests β E α)
    (q : StateT (Cursor β) (Except E) α) : Prop :=
  ∀ w c, w.Sees m c → SameTest m k w (q.run c) (p.exec w m)

section

variable {m : List β} {j k : ℕ}

theorem refinesTest_pure (a : α) :
    RefinesTest m 0 (pure a : Tests β E α) (pure a) := fun w _ hs => .passes hs (.refl w)

theorem Tests.exec_bind (p : Tests β E α) (f : α → Tests β E γ) (w : Window) (m : List β) :
    (p >>= f).exec w m = (p.exec w m).bind fun x => match x with
      | .error e => some (.error e)
      | .ok (a, w') => (f a).exec w' m := by
  unfold Tests.exec
  rw [StateT.run_bind, ExceptT.run_bind, ReaderT.run_bind]
  cases (p.run w).run.run m with
  | none => rfl
  | some x => cases x <;> rfl

theorem SameTest.mono {w : Window} {x : Except E (α × Cursor β)}
    {y : Option (Except E (α × Window))} (h : SameTest m k w x y)
    (hle : j ≤ k) : SameTest m j w x y := by
  cases h with
  | stops e => exact .stops e
  | passes hsees hmoves =>
      exact .passes hsees ⟨hmoves.data, hmoves.size, by have := hmoves.offset; omega⟩

theorem RefinesTest.mono {p : Tests β E α} {q : StateT (Cursor β) (Except E) α}
    (h : RefinesTest m k p q) (hle : j ≤ k) :
    RefinesTest m j p q := fun w c hs => (h w c hs).mono hle

/-- What comes behind an outcome. -/
theorem SameTest.bind {w : Window} {x : Except E (α × Cursor β)}
    {y : Option (Except E (α × Window))} {f : α → Tests β E γ}
    {g : α → StateT (Cursor β) (Except E) γ} (h : SameTest m j w x y)
    (hf : ∀ a w' c, w'.Sees m c → w.Moves j w' → SameTest m k w' ((g a).run c) ((f a).exec w' m)) :
    SameTest m (j + k) w (x.bind fun x => (g x.1).run x.2) (y.bind fun x => match x with
      | .error e => some (.error e)
      | .ok (a, w') => (f a).exec w' m) := by
  cases h with
  | stops e => exact .stops e
  | @passes a c w' hsees hmoves =>
    have hsame := hf a w' c hsees hmoves
    change SameTest m (j + k) w ((g a).run c) ((f a).exec w' m)
    generalize (g a).run c = x', (f a).exec w' m = y' at hsame ⊢
    cases hsame with
    | stops e => exact .stops e
    | passes hsees' hmoves' => exact .passes hsees' (hmoves.trans hmoves')

/-- One program and then another. -/
theorem RefinesTest.bind {p : Tests β E α} {q : StateT (Cursor β) (Except E) α}
    {f : α → Tests β E γ} {g : α → StateT (Cursor β) (Except E) γ} (hp : RefinesTest m j p q)
    (hf : ∀ a, RefinesTest m k (f a) (g a)) :
    RefinesTest m (j + k) (p >>= f) (q >>= g) := by
  intro w c hs
  rw [Tests.exec_bind]
  exact (hp w c hs).bind fun a w' c' hs' _ => hf a w' c' hs'

/-- What a program returns, without the window. -/
theorem RefinesTest.run' {p : Tests β E α} {q : StateT (Cursor β) (Except E) α}
    (h : RefinesTest m k p q) {w : Window} {c : Cursor β} (hs : w.Sees m c) :
    (p.run' w).run.run m = some (q.run' c) := by
  have hsame := h w c hs
  have hp : (p.run' w).run.run m = (p.exec w m).map (Except.map Prod.fst) := by
    unfold Tests.exec
    rw [StateT.run'_eq, ExceptT.run_map, ReaderT.run_map]
    rfl
  rw [hp, StateT.run'_eq]
  generalize q.run c = x, p.exec w m = y at hsame ⊢
  cases hsame <;> rfl

/-- Loading something first. -/
theorem RefinesTest.load_bind {x : Loads β α} {a : α} (hx : x.run m = some a) {f : α → Tests β E γ}
    {q : StateT (Cursor β) (Except E) γ} (h : RefinesTest m k (f a) q) :
    RefinesTest m k ((x : Tests β E α) >>= f) q := by
  intro w c hs
  have hload : Tests.exec (x : Tests β E α) w m = some (.ok (a, w)) := by
    simp [Tests.exec, hx, Except.map]
  rw [Tests.exec_bind, hload]
  exact h w c hs

/-- A failure that is an error. -/
theorem Refines.orError {p : Scans β α} {q : Reads β α} (h : Refines k p q) (hm : m.length < 2 ^ 64)
    (e : E) {q' : StateT (Cursor β) (Except E) α}
    (hq : ∀ c, q'.run c = (q.run c).elim (.error e) .ok) :
    RefinesTest m k (p.orError e) q' := by
  intro w c hs
  have hsame := h m w c hm hs
  have hexec : (p.orError e).exec w m = (p.exec w m).map fun x => x.elim (.error e) .ok := rfl
  rw [hq, hexec]
  generalize q.run c = x, p.exec w m = y at hsame ⊢
  cases hsame with
  | fails => exact .stops e
  | reads hsees hmoves => exact .passes hsees hmoves

end

end Tide.Theory
