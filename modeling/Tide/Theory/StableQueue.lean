import Mathlib.Data.List.MinMax
import Mathlib.Data.List.Sort

/-!
# Stable priority queues

A bounded queue that gives back the smallest item first, and the earliest of
several with the same key. The items are kept in the order of their arrival: the
item to take is `List.argmin`, the first one with a smallest key, and taking it
erases it.

An implementation keeps the items sorted instead. `insertionSort_concat` and
`insertionSort_argmin` say what arriving and taking do to the sorted items: a new
item goes behind those that are not greater, and the one to take is at the front.
So a queue that only drains gives back its items in stable order
(`drain_isStableSort`).
-/

namespace Tide.Theory

variable {α κ : Type} [LinearOrder κ]

/-- The order of the keys, on the items. -/
def KeyLe (key : α → κ) (a b : α) : Prop := key a ≤ key b

/-- The strict order of the keys, on the items. -/
def KeyLt (key : α → κ) (a b : α) : Prop := key a < key b

instance (key : α → κ) (a b : α) :
    Decidable (KeyLe key a b) := inferInstanceAs (Decidable (key a ≤ key b))

instance (key : α → κ) (a b : α) :
    Decidable (KeyLt key a b) := inferInstanceAs (Decidable (key a < key b))

instance (key : α → κ) : Std.Total (KeyLe key) := ⟨fun a b => le_total (key a) (key b)⟩

instance (key : α → κ) : IsTrans α (KeyLe key) := ⟨fun _ _ _ h h' => le_trans (α := κ) h h'⟩

/-- **The stable sort of `l`**: sorted by key, with the items of each key those of `l` in
the order of `l`. -/
def IsStableSort (key : α → κ) (l s : List α) : Prop :=
  s.Pairwise (KeyLe key) ∧ ∀ k, s.filter (fun a => key a = k) = l.filter (fun a => key a = k)

section

variable {key : α → κ}

/-- An item that is put before those that are not smaller, and one that is put behind
those that are not greater, do not get into each other's way. -/
theorem orderedInsert_comm (a x : α) (s : List α) :
    (s.orderedInsert (KeyLt key) x).orderedInsert (KeyLe key) a =
      (s.orderedInsert (KeyLe key) a).orderedInsert (KeyLt key) x := by
  induction s with
  | nil =>
    by_cases hax : key a ≤ key x
    · simp [KeyLe, KeyLt, hax, not_lt.mpr hax]
    · simp [KeyLe, KeyLt, hax, not_le.mp hax]
  | cons b t ih =>
    simp only [List.orderedInsert_cons, KeyLe, KeyLt] at ih ⊢
    by_cases hxb : key x < key b
    · by_cases hax : key a ≤ key x
      · have hab : key a ≤ key b := hax.trans hxb.le
        simp [hxb, hax, hab, not_lt.mpr hax, KeyLe, KeyLt]
      · by_cases hab : key a ≤ key b
        · simp [hxb, hax, hab, not_le.mp hax, KeyLe, KeyLt]
        · simp [hxb, hax, hab, KeyLe, KeyLt]
    · by_cases hab : key a ≤ key b
      · have hxa : ¬ key x < key a := not_lt.mpr (hab.trans (not_lt.mp hxb))
        simp [hxb, hab, hxa, KeyLe, KeyLt]
      · simp [hxb, hab, KeyLe, KeyLt, ih]

/-- **A new item in the sorted list** goes behind the items that are not greater. -/
theorem insertionSort_concat (l : List α) (x : α) :
    (l ++ [x]).insertionSort (KeyLe key) = (l.insertionSort (KeyLe key)).orderedInsert
      (KeyLt key) x := by
  induction l with
  | nil => rfl
  | cons a l ih =>
      rw [List.cons_append, List.insertionSort_cons, ih, orderedInsert_comm,
        List.insertionSort_cons]

/-- **The item to take in the sorted list** is the one at the front. -/
theorem insertionSort_argmin [DecidableEq α] {l : List α} {m : α} (h : l.argmin key = some m) :
    l.insertionSort (KeyLe key) = m :: (l.erase m).insertionSort (KeyLe key) := by
  induction l generalizing m with
  | nil => simp at h
  | cons a l ih =>
    rw [List.argmin_cons] at h
    rw [List.insertionSort_cons]
    cases hl : l.argmin key with
    | none =>
      obtain rfl : l = [] := List.argmin_eq_none.mp hl
      rw [hl] at h
      obtain rfl : a = m := Option.some.inj h
      simp
    | some c =>
      rw [hl] at h
      rw [ih hl]
      dsimp only at h
      by_cases hca : key c < key a
      · rw [if_pos hca] at h
        obtain rfl := Option.some.inj h
        have hne : a ≠ c := by
          rintro rfl
          exact lt_irrefl _ hca
        rw [List.orderedInsert_of_not_le (KeyLe key) _ (not_le.mpr hca : ¬ KeyLe key a c),
          List.erase_cons_tail (by simpa using hne), List.insertionSort_cons]
      · rw [if_neg hca] at h
        obtain rfl := Option.some.inj h
        rw [List.orderedInsert_cons_of_le (KeyLe key) _ (not_lt.mp hca : KeyLe key a c),
          List.erase_cons_head, ih hl]

/-- An item is put before those that have its key. -/
theorem filter_orderedInsert (a : α) (s : List α) (k : κ) :
    (s.orderedInsert (KeyLe key) a).filter (fun b => key b = k) = (a :: s).filter fun b =>
      key b = k := by
  induction s with
  | nil => rfl
  | cons b t ih =>
    rw [List.orderedInsert_cons]
    by_cases hab : KeyLe key a b
    · rw [if_pos hab]
    have hba : key b < key a := not_le.mp hab
    rw [if_neg hab, List.filter_cons, ih]
    by_cases hb : key b = k
    · have ha : ¬ key a = k := by
        rintro rfl
        exact hba.ne hb
      simp [hb, ha]
    · simp [hb, List.filter_cons]

/-- Sorting by insertion is stable. -/
theorem isStableSort_insertionSort (l : List α) :
    IsStableSort key l (l.insertionSort (KeyLe key)) := by
  refine ⟨List.pairwise_insertionSort _ l, fun k => ?_⟩
  induction l with
  | nil => rfl
  | cons a l ih =>
      rw [List.insertionSort_cons, filter_orderedInsert, List.filter_cons, List.filter_cons, ih]

end

/-! ### The queue -/

/-- A queue of at most `limit` items, in the order of their arrival. -/
structure StableQueue (α : Type) where
  limit : ℕ
  held : List α

namespace StableQueue

/-- An item arrives; it is turned away when the queue is full. -/
def push (q : StableQueue α) (x : α) : Option (StableQueue α) :=
  if q.limit ≤ q.held.length then none else some { q with held := q.held ++ [x] }

/-- The earliest of the smallest items is taken, if there is one. -/
def pop [DecidableEq α] (key : α → κ) (q : StableQueue α) : Option (α × StableQueue α) :=
  (q.held.argmin key).map fun x => (x, { q with held := q.held.erase x })

/-- Taking `n` items. -/
def drain [DecidableEq α] (key : α → κ) : ℕ → StableQueue α → List α
  | 0, _ => []
  | n + 1, q =>
    match q.pop key with
    | none => []
    | some (x, q) => x :: q.drain key n

/-- A queue from which all is taken gives its items in stable order. -/
theorem drain_isStableSort [DecidableEq α] (key : α → κ) (q : StableQueue α) {n : ℕ}
    (hn : q.held.length ≤ n) :
    IsStableSort key q.held (q.drain key n) := by
  have hdrain : q.drain key n = q.held.insertionSort (KeyLe key) := by
    induction n generalizing q with
    | zero =>
      have hnil : q.held = [] := List.eq_nil_of_length_eq_zero (by omega)
      rw [hnil]
      rfl
    | succ n ih =>
      rw [drain, pop]
      cases hmin : q.held.argmin key with
      | none =>
        have hnil : q.held = [] := List.argmin_eq_none.mp hmin
        rw [hnil]
        rfl
      | some x =>
        have hmem : x ∈ q.held := List.argmin_mem hmin
        have hlen := List.length_erase_of_mem hmem
        rw [insertionSort_argmin hmin]
        exact congrArg (x :: ·) (ih _ (by change (q.held.erase x).length ≤ n; omega))
  rw [hdrain]
  exact isStableSort_insertionSort q.held

end StableQueue

end Tide.Theory
