import Mathlib.Data.List.Basic

/-!
# What is before an element of a list

`EachBehind P xs` says that `P` holds of each element of `xs` and the elements before it,
as a property of a history says what may happen next. It is taken apart along the list.
-/

namespace Tide.Theory

variable {α β : Type}

/-- `P pre x` for each `x` of the list, `pre` being what is before it. -/
def EachBehind (P : List α → α → Prop) (xs : List α) : Prop :=
  ∀ pre x post, xs = pre ++ x :: post → P pre x

variable {P Q : List α → α → Prop}

@[simp] theorem eachBehind_nil : EachBehind P [] := by
  intro pre x post h
  simp at h

@[simp] theorem eachBehind_cons (y : α) (xs : List α) :
    EachBehind P (y :: xs) ↔ P [] y ∧ EachBehind (fun pre x => P (y :: pre) x) xs := by
  constructor
  · intro h
    refine ⟨h [] y xs rfl, fun pre x post hxs => h (y :: pre) x post ?_⟩
    rw [hxs, List.cons_append]
  · rintro ⟨hy, h⟩ pre x post hxs
    cases pre with
    | nil =>
      obtain ⟨rfl, -⟩ := List.cons.inj hxs
      exact hy
    | cons z pre =>
      obtain ⟨rfl, hrest⟩ := List.cons.inj hxs
      exact h pre x post hrest

theorem eachBehind_append (xs ys : List α) :
    EachBehind P (xs ++ ys) ↔ EachBehind P xs ∧ EachBehind (fun pre x => P (xs ++ pre) x) ys := by
  induction xs generalizing P with
  | nil => simp
  | cons x xs ih =>
    rw [List.cons_append, eachBehind_cons, eachBehind_cons, ih, and_assoc]
    rfl

theorem eachBehind_map (f : β → α) (xs : List β) :
    EachBehind P (xs.map f) ↔ EachBehind (fun pre x => P (pre.map f) (f x)) xs := by
  induction xs generalizing P with
  | nil => simp
  | cons x xs ih => simp [ih]

/-- What holds of each element holds of it and what is before it. -/
theorem EachBehind.imp {xs : List α} (h : EachBehind P xs)
    (hPQ : ∀ pre x, (∀ y ∈ pre, y ∈ xs) → x ∈ xs → P pre x → Q pre x) :
    EachBehind Q xs := by
  intro pre x post hxs
  refine hPQ pre x ?_ ?_ (h pre x post hxs)
  · intro y hy
    rw [hxs]
    exact List.mem_append_left _ hy
  · rw [hxs]
    exact List.mem_append_right _ (List.mem_cons_self ..)

/-- An element of a list is its last one or is before that. -/
theorem last_or_before {pre post xs : List α} {x last : α} (h : pre ++ x :: post = xs ++ [last]) :
    pre = xs ∧ x = last ∧ post = [] ∨ ∃ post', xs = pre ++ x :: post' := by
  rcases List.eq_nil_or_concat post with rfl | ⟨post', y, rfl⟩
  · obtain ⟨rfl, hlast⟩ := List.append_inj' h rfl
    cases hlast
    exact .inl ⟨rfl, rfl, rfl⟩
  · rw [List.concat_eq_append, ← List.cons_append, ← List.append_assoc] at h
    exact .inr ⟨post', (List.append_inj' h rfl).1.symm⟩

end Tide.Theory
