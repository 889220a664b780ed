import Mathlib.Algebra.Order.Group.Multiset
import Mathlib.Data.Multiset.Count
import Mathlib.Data.Nat.Notation

/-!
# Blocks of memory

An allocator that numbers the blocks it gives out and counts the *faults*: a block that is freed or
touched when it is not live, and a null pointer that is touched. A pointer is an `Option`, and
freeing a null pointer does nothing.

`Owned b m` says that there was no fault and that the live blocks are exactly those of `m`, each
once. Its rules say how the blocks change hands; what a part of a program does not own is the rest
of `m`, and stays as it is. A program that ends with `Owned b 0` has freed each block once.
-/

namespace Tide.Theory

/-- The blocks that are live, the number of the next one, and the faults. -/
structure Blocks where
  live : List ℕ
  next : ℕ
  faults : ℕ

namespace Blocks

/-- No block was given out. -/
def empty : Blocks := ⟨[], 0, 0⟩

/-- `malloc`, if there is room. -/
def malloc (b : Blocks) (room : Bool) : Option ℕ × Blocks :=
  if room then (some b.next, { b with live := b.next :: b.live, next := b.next + 1 }) else (none, b)

/-- `free`. -/
def free (b : Blocks) : Option ℕ → Blocks
  | none => b
  | some p =>
      if p ∈ b.live then { b with live := b.live.erase p } else { b with faults := b.faults + 1 }

/-- `realloc`: the old block is freed if there is room for the new one. -/
def realloc (b : Blocks) (p : Option ℕ) (room : Bool) : Option ℕ × Blocks :=
  match b.malloc room with
  | (none, b) => (none, b)
  | (some q, b) => (some q, b.free p)

/-- Reading or writing a block. -/
def touch (b : Blocks) : Option ℕ → Blocks
  | none => { b with faults := b.faults + 1 }
  | some p => if p ∈ b.live then b else { b with faults := b.faults + 1 }

/-- There is a new block exactly if there is room. -/
theorem malloc_false (b : Blocks) : b.malloc false = (none, b) := rfl

theorem malloc_true (b : Blocks) : ∃ q b', b.malloc true = (some q, b') := ⟨_, _, rfl⟩

theorem realloc_true (b : Blocks) (p : Option ℕ) :
    ∃ q b', b.realloc p true = (some q, b') := ⟨_, _, rfl⟩

/-- **The live blocks** are those of `m`, and there was no fault. -/
structure Owned (b : Blocks) (m : Multiset ℕ) : Prop where
  live : (b.live : Multiset ℕ) = m
  nodup : b.live.Nodup
  numbered : ∀ p ∈ b.live, p < b.next
  faults : b.faults = 0

theorem owned_empty : empty.Owned 0 := ⟨rfl, List.nodup_nil, by simp [empty], rfl⟩

variable {b : Blocks} {m : Multiset ℕ}

theorem Owned.mem (h : b.Owned m) {p : ℕ} : p ∈ b.live ↔ p ∈ m := by
  rw [← h.live, Multiset.mem_coe]

theorem Owned.congr (h : b.Owned m) {m' : Multiset ℕ} (hm : m = m') : b.Owned m' := hm ▸ h

/-- A new block belongs to the one who asked for it. -/
theorem Owned.malloc (h : b.Owned m) (room : Bool) :
    b.malloc room = (none, b) ∧ room = false ∨ ∃ p b', b.malloc room = (some p, b') ∧
      b'.Owned (p ::ₘ m) ∧ room = true := by
  unfold Blocks.malloc
  cases room with
  | false => exact .inl ⟨rfl, rfl⟩
  | true =>
    refine .inr ⟨b.next, _, rfl, ?_, rfl⟩
    have hnew : b.next ∉ b.live := fun hmem => absurd (h.numbered _ hmem) (Nat.lt_irrefl _)
    refine ⟨?_, List.nodup_cons.mpr ⟨hnew, h.nodup⟩, ?_, h.faults⟩
    · rw [← h.live]
      rfl
    · intro p hp
      rcases List.mem_cons.mp hp with rfl | hp
      · exact Nat.lt_succ_self _
      · exact Nat.lt_succ_of_lt (h.numbered p hp)

/-- A block is freed by the one to whom it belongs. -/
theorem Owned.free {p : Option ℕ}
    (h : b.Owned ((p.toList : Multiset ℕ) + m)) : (b.free p).Owned m := by
  cases p with
  | none => exact h.congr (by simp)
  | some p =>
    have hmem : p ∈ b.live := h.mem.mpr (by simp)
    rw [show b.free (some p) = { b with live := b.live.erase p } from if_pos hmem]
    refine ⟨?_, h.nodup.erase p, fun q hq => h.numbered q (List.mem_of_mem_erase hq), h.faults⟩
    rw [← Multiset.coe_erase, h.live]
    simp

theorem Owned.free_cons {p : ℕ} (h : b.Owned (p ::ₘ m)) : (b.free (some p)).Owned m :=
  Owned.free (h.congr (by rw [Option.toList_some, Multiset.coe_singleton, Multiset.singleton_add]))

/-- A table is moved to a new block, or stays where it is. -/
theorem Owned.realloc {p : Option ℕ} (h : b.Owned ((p.toList : Multiset ℕ) + m)) (room : Bool) :
    b.realloc p room = (none, b) ∧ room = false ∨
      ∃ q b', b.realloc p room = (some q, b') ∧ b'.Owned (q ::ₘ m) ∧ room = true := by
  unfold Blocks.realloc
  obtain ⟨hnone, hroom⟩ | ⟨q, b', hmalloc, howned, hroom⟩ := h.malloc room
  · rw [hnone]
    exact .inl ⟨rfl, hroom⟩
  · rw [hmalloc]
    refine .inr ⟨q, _, rfl, Owned.free (howned.congr ?_), hroom⟩
    exact (Multiset.add_cons ..).symm

/-- What is owned may be touched. -/
theorem Owned.touch (h : b.Owned m) {p : ℕ} (hp : p ∈ m) : b.touch (some p) = b := by
  unfold Blocks.touch
  exact if_pos (h.mem.mpr hp)

/-- The blocks in a table are freed, one after the other, while the table is there. -/
theorem Owned.freeAll {ps : List (Option ℕ)} (h : b.Owned ((ps.filterMap id : Multiset ℕ) + m))
    {table : Option ℕ} (htable : ps ≠ [] → ∃ q ∈ m, table = some q) :
    (ps.foldl (fun b p => (b.touch table).free p) b).Owned m := by
  induction ps generalizing b with
  | nil => exact h.congr (by simp)
  | cons p ps ih =>
    obtain ⟨q, hq, rfl⟩ := htable (by simp)
    rw [List.foldl_cons, h.touch (Multiset.mem_add.mpr (.inr hq))]
    refine ih (Owned.free (h.congr ?_)) fun _ => ⟨q, hq, rfl⟩
    cases p with
    | none => simp
    | some p =>
      rw [show (some p :: ps).filterMap id = p :: ps.filterMap id from rfl, ← Multiset.cons_coe,
        Option.toList_some, Multiset.coe_singleton, Multiset.singleton_add, Multiset.cons_add]

end Blocks

end Tide.Theory
