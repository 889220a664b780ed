import Mathlib.Algebra.BigOperators.Group.Finset.Basic
import Mathlib.Algebra.Order.Group.Multiset
import Mathlib.Data.Multiset.Count
import Mathlib.Data.Nat.Notation
import Mathlib.Logic.Function.Basic
import Mathlib.Tactic.Abel

/-!
# Reference counts

Objects that are freed when their count comes to zero. The count of an object is to be the
number of its owners, which are kept apart from it, as a multiset: `Balanced`. A `Step`
changes counts and owners together, and it is *sound* unless it loses an owner without a
release, or counts beyond the counter. Sound steps keep the balance (`Step.balanced`), the
others break it at once (`Step.sound_of_count`).
-/

namespace Tide.Theory

/-- A sum over holders when one of them holds something else. -/
theorem sum_update_add {ι β M : Type} [Fintype ι] [DecidableEq ι] [AddCommMonoid M] (f : ι → β)
    (g : β → M) (i : ι) (b : β) :
    ∑ j, g (Function.update f i b j) + g (f i) = ∑ j, g (f j) + g b := by
  have hrest : ∑ j ∈ Finset.univ.erase i, g (Function.update f i b j) = ∑ j ∈ Finset.univ.erase i,
      g (f j) := by
    apply Finset.sum_congr rfl
    intro j hj
    rw [Function.update_of_ne (Finset.ne_of_mem_erase hj)]
  rw [← Finset.add_sum_erase _ _ (Finset.mem_univ i), ← Finset.add_sum_erase _ (fun j => g (f j))
    (Finset.mem_univ i), hrest, Function.update_self]
  abel

/-- The objects made so far, the counter of each, and how often each was freed. -/
structure RefCounts (α : Type) where
  made : List α
  count : α → UInt32
  frees : α → ℕ

namespace RefCounts

variable {α : Type} [DecidableEq α]

/-- No object was made. -/
def empty : RefCounts α := ⟨[], fun _ => 0, fun _ => 0⟩

/-- A new object, with one owner. -/
def make (c : RefCounts α) (a : α) : RefCounts α :=
  { c with made := c.made ++ [a], count := Function.update c.count a 1 }

/-- One owner more. -/
def retain (c : RefCounts α) (a : α) : RefCounts α :=
  { c with count := Function.update c.count a (c.count a + 1) }

/-- One owner less; the last one frees the object. -/
def release (c : RefCounts α) (a : α) : RefCounts α :=
  { c with
    count := Function.update c.count a (c.count a - 1)
    frees := if c.count a = 1 then Function.update c.frees a (c.frees a + 1) else c.frees }

/-- Several owners less, one after the other. -/
def releaseAll (c : RefCounts α) (as : List α) : RefCounts α := as.foldl release c

@[simp] theorem releaseAll_nil (c : RefCounts α) : c.releaseAll [] = c := rfl

@[simp] theorem releaseAll_cons (c : RefCounts α) (a : α) (as : List α) :
    c.releaseAll (a :: as) = (c.release a).releaseAll as := rfl

@[simp] theorem releaseAll_made (c : RefCounts α) (as : List α) :
    (c.releaseAll as).made = c.made := by
  induction as generalizing c with
  | nil => rfl
  | cons a as ih => exact ih (c.release a)

/-- **The counts are those of the owners**: an object with owners has as many as its counter
says and was not freed, and one that has none was freed once. -/
structure Balanced (c : RefCounts α) (owners : Multiset α) : Prop where
  made : ∀ a ∈ owners, a ∈ c.made
  count : ∀ a ∈ owners, (c.count a).toNat = owners.count a
  frees : ∀ a ∈ c.made, c.frees a = if a ∈ owners then 0 else 1
  unmade : ∀ a ∉ c.made, c.frees a = 0

theorem balanced_empty : Balanced (empty : RefCounts α) 0 := by
  constructor <;> simp [empty]

variable {c c' : RefCounts α} {owners owners' : Multiset α} {a : α}

/-- An object that has an owner was not freed. -/
theorem Balanced.live (h : Balanced c owners) (ha : a ∈ owners) : c.frees a = 0 := by
  rw [h.frees a (h.made a ha), if_pos ha]

/-- A new object belongs to the one who made it. -/
theorem Balanced.make (h : Balanced c owners) (ha : a ∉ c.made) :
    Balanced (c.make a) (a ::ₘ owners) := by
  have hnone : a ∉ owners := fun hmem => ha (h.made a hmem)
  refine ⟨fun b hb => ?_, fun b hb => ?_, fun b hb => ?_, fun b hb => ?_⟩
  · rcases Multiset.mem_cons.mp hb with rfl | hb
    · exact List.mem_append_right _ (List.mem_singleton_self _)
    · exact List.mem_append_left _ (h.made b hb)
  · by_cases hab : b = a
    · subst hab
      simp [RefCounts.make, Multiset.count_eq_zero.mpr hnone]
    · have hmem := (Multiset.mem_cons.mp hb).resolve_left hab
      simp [RefCounts.make, hab, h.count b hmem]
  · by_cases hab : b = a
    · subst hab
      simp [RefCounts.make, h.unmade b ha]
    · have hmade : b ∈ c.made := by simpa [RefCounts.make, hab] using hb
      simp [RefCounts.make, h.frees b hmade, hab]
  · exact h.unmade b fun hmem => hb (List.mem_append_left _ hmem)

/-- One owner more of an object that has one, unless the counter is at its end. -/
theorem Balanced.retain (h : Balanced c owners) (ha : a ∈ owners)
    (hlt : (c.count a).toNat + 1 < 2 ^ 32) :
    Balanced (c.retain a) (a ::ₘ owners) := by
  refine ⟨fun b hb => ?_, fun b hb => ?_, fun b hb => ?_, h.unmade⟩
  · rcases Multiset.mem_cons.mp hb with rfl | hb
    · exact h.made b ha
    · exact h.made b hb
  · by_cases hab : b = a
    · subst hab
      have hcount := h.count b ha
      simp only [RefCounts.retain, Function.update_self, Multiset.count_cons_self, UInt32.toNat_add,
        ← hcount]
      exact Nat.mod_eq_of_lt hlt
    · have hmem := (Multiset.mem_cons.mp hb).resolve_left hab
      simp [RefCounts.retain, hab, h.count b hmem]
  · have hiff : b ∈ a ::ₘ owners ↔ b ∈ owners := by
      rw [Multiset.mem_cons]
      exact ⟨fun hb => hb.elim (fun hab => hab ▸ ha) id, .inr⟩
    simp only [hiff]
    exact h.frees b hb

/-- One owner less: the last one frees the object. -/
theorem Balanced.release (h : Balanced c (a ::ₘ owners)) : Balanced (c.release a) owners := by
  have ha := Multiset.mem_cons_self a owners
  have hcount : (c.count a).toNat = owners.count a + 1 := by
    rw [h.count a ha, Multiset.count_cons_self]
  refine ⟨fun b hb => h.made b (Multiset.mem_cons_of_mem hb), fun b hb => ?_, fun b hb => ?_,
    fun b hb => ?_⟩
  · have hb' := h.count b (Multiset.mem_cons_of_mem hb)
    by_cases hab : b = a
    · subst hab
      have hle : (1 : UInt32) ≤ c.count b := by
        rw [UInt32.le_iff_toNat_le, hcount]
        simp
      simp only [RefCounts.release, Function.update_self]
      rw [UInt32.toNat_sub_of_le _ _ hle, hcount]
      simp
    · simpa [RefCounts.release, hab] using hb'
  · have hb' := h.frees b hb
    by_cases hab : b = a
    · subst hab
      rw [if_pos ha] at hb'
      have hlast : c.count b = 1 ↔ b ∉ owners := by
        rw [← UInt32.toNat_inj, hcount, ← Multiset.count_eq_zero]
        simp
      by_cases hmem : b ∈ owners
      · simp [RefCounts.release, hlast, hmem, hb']
      · simp [RefCounts.release, hlast, hmem, hb']
    · have hsame : (c.release a).frees b = c.frees b := by
        simp only [RefCounts.release]
        split
        · exact Function.update_of_ne hab ..
        · rfl
      simpa [hsame, hab] using hb'
  · have hne : b ≠ a := by
      rintro rfl
      exact hb (h.made b ha)
    have hb' := h.unmade b hb
    simp only [RefCounts.release]
    split
    · rwa [Function.update_of_ne hne]
    · exact hb'

theorem Balanced.releaseAll {as : List α} (h : Balanced c ((as : Multiset α) + owners)) :
    Balanced (c.releaseAll as) owners := by
  induction as generalizing c with
  | nil => simpa using h
  | cons a as ih =>
    rw [← Multiset.cons_coe, Multiset.cons_add] at h
    exact ih h.release

/-! ### Steps -/

/-- **What a step does** to counts and owners, and whether it is sound. -/
inductive Step (c : RefCounts α) : Multiset α → Prop → RefCounts α → Multiset α → Prop where
  | keep (owners : Multiset α) : Step c owners True c owners
  | make (owners : Multiset α) (a : α) (ha : a ∉ c.made) : Step c owners True (c.make a)
      (a ::ₘ owners)
  | retain (owners : Multiset α) (a : α) (ha : a ∈ owners) :
      Step c owners ((c.count a).toNat + 1 < 2 ^ 32) (c.retain a) (a ::ₘ owners)
  | release (owners : Multiset α) (as : List α) : Step c ((as : Multiset α) + owners) True
      (c.releaseAll as) owners
  | forget (owners : Multiset α) (a : α) : Step c (a ::ₘ owners) False c owners

variable {sound : Prop}

theorem Step.of_keep (hc : c' = c) (ho : owners' = owners) : Step c owners True c' owners' := by
  subst hc ho
  exact .keep owners'

theorem Step.of_release {as : List α} (hc : c' = c.releaseAll as)
    (ho : owners = (as : Multiset α) + owners') :
    Step c owners True c' owners' := by
  subst hc ho
  exact .release owners' as

/-- **A sound step keeps the balance.** -/
theorem Step.balanced (h : Step c owners sound c' owners') (hb : Balanced c owners)
    (hsound : sound) : Balanced c' owners' := by
  cases h with
  | keep => exact hb
  | make _ _ ha => exact hb.make ha
  | retain _ _ ha => exact hb.retain ha hsound
  | release => exact hb.releaseAll
  | forget => exact hsound.elim

/-- **A step that is not sound breaks it**: an object is left whose counter is not the number
of its owners. -/
theorem Step.sound_of_count (h : Step c owners sound c' owners') (hb : Balanced c owners)
    (hcount : ∀ a ∈ c'.made, c'.frees a = 0 → (c'.count a).toNat = owners'.count a) : sound := by
  cases h with
  | keep | make | release => trivial
  | retain _ a ha =>
    have hlive : (c.retain a).frees a = 0 := hb.live ha
    have hnew := hcount a (hb.made a ha) hlive
    have hlt := ((c.retain a).count a).toNat_lt
    rwa [hnew, Multiset.count_cons_self, ← hb.count a ha] at hlt
  | forget _ a =>
    have ha := Multiset.mem_cons_self a owners'
    have hold := hb.count a ha
    rw [hcount a (hb.made a ha) (hb.live ha), Multiset.count_cons_self] at hold
    omega

end RefCounts

end Tide.Theory
