import Mathlib.Data.List.Basic
import Mathlib.Data.Nat.Notation
import Mathlib.Data.Stream.Init
import Mathlib.Order.Monotone.Basic
import Mathlib.Tactic.Ring

/-!
# A table that is reallocated when it is full

A `Growing` table has a capacity, which is doubled when the table is full and an item is to
be added. The reallocation may fail, and then the item is lost. `allocs` are the outcomes
of the reallocations to come. Items are added in order; `addAll_eq_iff` says when none is
lost: when every reallocation succeeds that so many items need.
-/

namespace Tide.Theory

variable {α β : Type}

/-- A table, its capacity and the outcomes of its reallocations. -/
@[ext]
structure Growing (α : Type) where
  items : List α
  capacity : ℕ
  allocs : Stream' Bool

namespace Growing

/-- Adding an item, to a table of `first` items at first: whether it is kept, and the table. -/
def add (first : ℕ) (t : Growing α) (a : α) : Bool × Growing α :=
  if t.items.length = t.capacity then
    if t.allocs.head then
      (true, ⟨t.items ++ [a], if t.capacity = 0 then first else t.capacity * 2, t.allocs.tail⟩)
    else (false, { t with allocs := t.allocs.tail })
  else (true, { t with items := t.items ++ [a] })

/-- Adding `f b` for each `b` of a list: those that are kept, and the table. -/
def addAll (first : ℕ) (f : β → α) : Growing α → List β → List β × Growing α
  | t, [] => ([], t)
  | t, b :: bs =>
    let r := t.add first (f b)
    let rest := addAll first f r.2 bs
    (if r.1 then b :: rest.1 else rest.1, rest.2)

variable {first : ℕ} {f : β → α}

@[simp] theorem addAll_nil (t : Growing α) : t.addAll first f [] = ([], t) := rfl

theorem addAll_append (t : Growing α) (bs bs' : List β) : t.addAll first f (bs ++ bs') =
    ((t.addAll first f bs).1 ++ ((t.addAll first f bs).2.addAll first f bs').1,
      ((t.addAll first f bs).2.addAll first f bs').2) := by
  induction bs generalizing t with
  | nil => rfl
  | cons b bs ih =>
    simp only [List.cons_append, addAll, ih]
    split <;> rfl

/-- What is kept is in the table. -/
theorem addAll_items (first : ℕ) (f : β → α) (t : Growing α) (bs : List β) :
    (t.addAll first f bs).2.items = t.items ++ (t.addAll first f bs).1.map f := by
  induction bs generalizing t with
  | nil => simp
  | cons b bs ih =>
    simp only [addAll, ih]
    unfold add
    split
    · split <;> simp
    · simp

theorem length_addAll_le (first : ℕ) (f : β → α) (t : Growing α) (bs : List β) :
    (t.addAll first f bs).1.length ≤ bs.length := by
  induction bs generalizing t with
  | nil => simp
  | cons b bs ih =>
    have hle := ih (t.add first (f b)).2
    simp only [addAll]
    split
    · simpa using hle
    · exact hle.trans (by simp)

/-- While no item is lost every reallocation that is made succeeds. -/
theorem addAll_allocs {t : Growing α} {bs : List β} (h : (t.addAll first f bs).1 = bs) :
    ∃ made, (t.addAll first f bs).2.allocs = t.allocs.drop made ∧
      ∀ i < made, t.allocs.get i = true := by
  induction bs generalizing t with
  | nil => exact ⟨0, rfl, by simp⟩
  | cons b bs ih =>
    have hlen := length_addAll_le first f (t.add first (f b)).2 bs
    simp only [addAll] at h ⊢
    cases hkept : (t.add first (f b)).1 with
    | false =>
      rw [if_neg (by simp [hkept])] at h
      rw [h, List.length_cons] at hlen
      omega
    | true =>
      rw [if_pos hkept, List.cons.injEq] at h
      obtain ⟨made, hrest, hmade⟩ := ih h.2
      unfold add at hkept hrest hmade ⊢
      split at hkept
      · rename_i hfull
        split at hkept
        · rename_i halloc
          rw [if_pos hfull, if_pos halloc] at hrest hmade ⊢
          refine ⟨made + 1, by rw [hrest, ← Stream'.drop_succ], fun i hi => ?_⟩
          cases i with
          | zero => exact halloc
          | succ i => exact hmade i (by omega)
        · cases hkept
      · rename_i hroom
        rw [if_neg hroom] at hrest hmade ⊢
        exact ⟨made, hrest, hmade⟩

/-- The capacity after `n` reallocations. -/
def room (first : ℕ) : ℕ → ℕ
  | 0 => 0
  | n + 1 => first * 2 ^ n

theorem room_succ (hfirst : 0 < first) (n : ℕ) :
    (if room first n = 0 then first else room first n * 2) = room first (n + 1) := by
  cases n with
  | zero => simp [room]
  | succ n =>
    have hpos : room first (n + 1) ≠ 0 := (Nat.mul_pos hfirst (Nat.two_pow_pos n)).ne'
    rw [if_neg hpos]
    simp only [room]
    ring

theorem room_lt (hfirst : 0 < first) (n : ℕ) : room first n < room first (n + 1) := by
  rw [← room_succ hfirst]
  split <;> omega

/-- The capacity comes from the reallocations that were made, as long as they succeed. -/
theorem add_room (hfirst : 0 < first) {allocs : Stream' Bool} {t : Growing α} {j : ℕ}
    (hcap : t.capacity = room first j) (hallocs : t.allocs = allocs.drop j) {a : α}
    (hkept : (t.add first a).1 = true) :
    ∃ j', (t.add first a).2.capacity = room first j' ∧
      (t.add first a).2.allocs = allocs.drop j' := by
  unfold add at hkept ⊢
  by_cases hfull : t.items.length = t.capacity
  · rw [if_pos hfull] at hkept ⊢
    by_cases halloc : t.allocs.head = true
    · rw [if_pos halloc]
      exact ⟨j + 1, by rw [hcap, room_succ hfirst], by rw [hallocs, Stream'.tail_drop']⟩
    · rw [if_neg halloc] at hkept
      cases hkept
  · rw [if_neg hfull]
    exact ⟨j, hcap, hallocs⟩

/-- **The reallocations that `n` items need** succeed. -/
def Suffices (first : ℕ) (allocs : Stream' Bool) (n : ℕ) : Prop :=
  ∀ i, room first i < n → allocs.get i = true

/-- After `j` reallocations: none of the items to come is lost if and only if the
reallocations succeed that are needed for them. -/
theorem addAll_eq_iff_of_room (hfirst : 0 < first) (allocs : Stream' Bool) (j : ℕ) (t : Growing α)
    (bs : List β) (hcap : t.capacity = room first j) (hle : t.items.length ≤ t.capacity)
    (hallocs : t.allocs = allocs.drop j) :
    (t.addAll first f bs).1 = bs ↔ ∀ i, j ≤ i → room first i < t.items.length + bs.length →
      allocs.get i = true := by
  induction bs generalizing t j with
  | nil =>
    rw [hcap] at hle
    simp only [addAll_nil, List.length_nil, Nat.add_zero, true_iff]
    intro i hi hlt
    have hmono := (strictMono_nat_of_lt_succ (room_lt hfirst)).monotone hi
    omega
  | cons b bs ih =>
    have hhead : t.allocs.head = allocs.get j := by
      rw [hallocs, Stream'.head_drop]
    rw [List.length_cons]
    by_cases hfull : t.items.length = t.capacity
    swap
    · -- there is room
      have hadd : t.add first (f b) = (true, { t with items := t.items ++ [f b] }) := if_neg hfull
      simp only [addAll, hadd, ↓reduceIte, List.cons.injEq, true_and]
      rw [ih j { t with items := t.items ++ [f b] } hcap (by simp; omega) hallocs,
        List.length_append, List.length_singleton, Nat.add_assoc, Nat.add_comm 1]
    by_cases halloc : t.allocs.head = true
    · have hadd : t.add first (f b) =
          (true, ⟨t.items ++ [f b], room first (j + 1), t.allocs.tail⟩) := by
        rw [add, if_pos hfull, if_pos halloc, hcap, room_succ hfirst]
      have hroom := room_lt hfirst j
      simp only [addAll, hadd, ↓reduceIte, List.cons.injEq, true_and]
      rw [ih (j + 1) ⟨t.items ++ [f b], room first (j + 1), t.allocs.tail⟩ rfl (by simp; omega)
        (by rw [hallocs, Stream'.tail_drop']), List.length_append, List.length_singleton,
          Nat.add_assoc, Nat.add_comm 1]
      constructor
      · intro h i hi hlt
        obtain rfl | hi := Nat.eq_or_lt_of_le hi
        · exact hhead ▸ halloc
        · exact h i hi hlt
      · exact fun h i hi => h i (by omega)
    · -- the item is lost
      have hadd : t.add first (f b) = (false, { t with allocs := t.allocs.tail }) := by
        rw [add, if_pos hfull, if_neg halloc]
      simp only [addAll, hadd, Bool.false_eq_true, ↓reduceIte]
      constructor
      · intro h
        have hlen := length_addAll_le first f { t with allocs := t.allocs.tail } bs
        rw [h, List.length_cons] at hlen
        omega
      · intro h
        exact absurd (hhead.trans (h j (Nat.le_refl _) (by omega))) halloc

/-- **When no item is lost**: if and only if the reallocations succeed that so many need. -/
theorem addAll_eq_iff (hfirst : 0 < first) (allocs : Stream' Bool) (bs : List β) :
    ((⟨[], 0, allocs⟩ : Growing α).addAll first f bs).1 = bs ↔ Suffices first allocs bs.length := by
  rw [addAll_eq_iff_of_room hfirst allocs 0 _ bs rfl (Nat.le_refl _) rfl]
  simp [Suffices]

end Growing

end Tide.Theory
