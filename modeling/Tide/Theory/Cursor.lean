import Mathlib.Algebra.Group.Nat.Defs
import Mathlib.Data.List.Basic
import Mathlib.Data.Nat.Notation

/-!
# Reading a string of items from the front

A `Cursor` is a string of items with a position in it, and `Reads β α` a program
that moves the position forward and returns an `α`, or fails. A program is given
its meaning by a grammar: `Decodes p G` says that `p` succeeds with `a` exactly
when the items from the position on begin with a string `bs` such that `G a bs`,
and then moves just past `bs`. One direction says that `p` accepts nothing
outside the grammar, the other that it misses nothing.

The laws of `pure`, `>>=`, `guard` and of reading a span let the grammar of a
longer program be computed from the grammars of its parts. What a program does
not decide by looking past its own string it does not decide differently when
more items follow (`Decodes.extend`). `ReadsImply p q` says that `q` reads what `p`
reads, where the tests of `p` are the stricter ones, and `Takes n p` that `p` fails only for
want of `n` items.
-/

namespace Tide.Theory

/-- A string of items with a position in it. -/
structure Cursor (β : Type) where
  /-- The items. -/
  data : List β
  /-- The position. -/
  offset : ℕ
  deriving DecidableEq

/-- Programs that read from a cursor and may fail. -/
abbrev Reads (β α : Type) := StateT (Cursor β) Option α

variable {β α γ : Type}

/-- The cursor at the end of `pre` in `pre ++ rest`. -/
def Cursor.mid (pre rest : List β) : Cursor β := ⟨pre ++ rest, pre.length⟩

@[simp] theorem Cursor.mid_data (pre rest : List β) :
    (Cursor.mid pre rest).data = pre ++ rest := rfl

@[simp] theorem Cursor.mid_offset (pre rest : List β) :
    (Cursor.mid pre rest).offset = pre.length := rfl

/-- A cursor within its string stands between what lies before it and what lies behind. -/
theorem Cursor.eq_mid {c : Cursor β} (h : c.offset ≤ c.data.length) :
    c = Cursor.mid (c.data.take c.offset) (c.data.drop c.offset) := by
  rw [Cursor.mid, List.take_append_drop, List.length_take_of_le h]

/-- **The program `p` decodes the grammar `G`**: with `rest` still to read, it
returns `a` exactly when `rest` begins with a string `G` gives `a`, and it
consumes that string. -/
def Decodes (p : Reads β α) (G : α → List β → Prop) : Prop :=
  ∀ pre rest a c, p.run (Cursor.mid pre rest) = some (a, c) ↔
    ∃ bs post, G a bs ∧ rest = bs ++ post ∧ c = Cursor.mid (pre ++ bs) post

theorem Decodes.congr {p : Reads β α} {G H : α → List β → Prop} (h : Decodes p G)
    (hGH : ∀ a bs, G a bs ↔ H a bs) : Decodes p H := by
  have : G = H := funext fun a => funext fun bs => propext (hGH a bs)
  exact this ▸ h

theorem decodes_pure (a : α) : Decodes (pure a : Reads β α) fun b bs => b = a ∧ bs = [] := by
  intro pre rest b c
  simp only [StateT.run_pure, Option.pure_def, Option.some.injEq, Prod.mk.injEq]
  constructor
  · rintro ⟨rfl, rfl⟩
    exact ⟨[], rest, ⟨rfl, rfl⟩, rfl, by simp⟩
  · rintro ⟨bs, post, ⟨rfl, rfl⟩, rfl, rfl⟩
    simp

theorem decodes_failure : Decodes (failure : Reads β α) fun _ _ => False := by
  intro pre rest a c
  constructor
  · intro h; cases h
  · rintro ⟨_, _, h, _⟩; exact h.elim

/-- Reading one thing and then another reads the strings of the first followed by
those of the second. -/
theorem Decodes.bind {p : Reads β α} {f : α → Reads β γ} {G : α → List β → Prop}
    {H : α → γ → List β → Prop} (hp : Decodes p G) (hf : ∀ a, Decodes (f a) (H a)) :
    Decodes (p >>= f) fun c bs => ∃ a bs₁ bs₂, G a bs₁ ∧ H a c bs₂ ∧ bs = bs₁ ++ bs₂ := by
  intro pre rest c cur
  rw [StateT.run_bind, Option.bind_eq_bind, Option.bind_eq_some_iff]
  constructor
  · rintro ⟨⟨a, cur₁⟩, h₁, h₂⟩
    obtain ⟨bs₁, post₁, hG, rfl, rfl⟩ := (hp ..).mp h₁
    obtain ⟨bs₂, post₂, hH, rfl, rfl⟩ := (hf a ..).mp h₂
    exact ⟨bs₁ ++ bs₂, post₂, ⟨a, bs₁, bs₂, hG, hH, rfl⟩, by simp, by simp⟩
  · rintro ⟨bs, post, ⟨a, bs₁, bs₂, hG, hH, rfl⟩, rfl, rfl⟩
    refine ⟨(a, Cursor.mid (pre ++ bs₁) (bs₂ ++ post)), (hp ..).mpr ⟨bs₁, bs₂ ++ post, hG,
      by simp, rfl⟩, ?_⟩
    exact (hf a ..).mpr ⟨bs₂, post, hH, rfl, by simp⟩

/-- A test on the way reads nothing. -/
theorem decodes_guard (P : Prop) [Decidable P] :
    Decodes (guard P : Reads β Unit) fun _ bs => P ∧ bs = [] := by
  by_cases hP : P
  · rw [guard, if_pos hP]
    exact (decodes_pure ()).congr fun _ _ => by simp [hP]
  · rw [guard, if_neg hP]
    exact decodes_failure.congr fun _ _ => by simp [hP]

/-- The next `n` items. -/
def Cursor.span (n : ℕ) : Reads β (List β) := fun c =>
  if c.offset ≤ c.data.length ∧ n ≤ c.data.length - c.offset then
    some ((c.data.drop c.offset).take n, { c with offset := c.offset + n })
  else none

theorem decodes_span (n : ℕ) :
    Decodes (Cursor.span n : Reads β (List β)) fun a bs => a = bs ∧ bs.length = n := by
  intro pre rest a c
  change (if _ then _ else _) = _ ↔ _
  rw [Cursor.mid_data, Cursor.mid_offset, List.drop_left, List.length_append,
    Nat.add_sub_cancel_left]
  constructor
  · intro h
    split at h
    · rename_i hn
      obtain ⟨rfl, rfl⟩ := Prod.mk.inj (Option.some.inj h)
      have hlen : (rest.take n).length = n := List.length_take_of_le hn.2
      refine ⟨rest.take n, rest.drop n, ⟨rfl, hlen⟩, (List.take_append_drop n rest).symm, ?_⟩
      simp [Cursor.mid, hn.2]
    · cases h
  · rintro ⟨bs, post, ⟨rfl, rfl⟩, rfl, rfl⟩
    rw [if_pos ⟨by omega, by simp⟩]
    simp [Cursor.mid]

/-- A fixed number of items, put together by `dec`, where `enc` takes apart what `dec`
puts together. -/
theorem decodes_fixed {n : ℕ} {dec : List β → α} {enc : α → List β} (hlen : ∀ a, (enc a).length = n)
    (hde : ∀ a, dec (enc a) = a) (hed : ∀ bs, bs.length = n → enc (dec bs) = bs) :
    Decodes (do let bs ← Cursor.span n; return dec bs) fun a bs => bs = enc a := by
  refine ((decodes_span n).bind fun bs => decodes_pure (dec bs)).congr fun a bs => ?_
  constructor
  · rintro ⟨_, bs, _, ⟨rfl, hn⟩, ⟨rfl, rfl⟩, rfl⟩
    rw [List.append_nil, hed _ hn]
  · rintro rfl
    exact ⟨enc a, enc a, [], ⟨rfl, hlen a⟩, ⟨(hde a).symm, rfl⟩, by simp⟩

/-- **More input does not change what was read**: a program that succeeds leaves
the same result and the same position when items are added at the end. -/
theorem Decodes.extend {p : Reads β α} {G : α → List β → Prop} (h : Decodes p G) {data : List β}
    {off : ℕ} {a : α} {c : Cursor β} (hoff : off ≤ data.length)
    (hr : p.run ⟨data, off⟩ = some (a, c)) (ext : List β) :
    p.run ⟨data ++ ext, off⟩ = some (a, ⟨data ++ ext, c.offset⟩) := by
  have hmid : ∀ ext, (⟨data ++ ext, off⟩ : Cursor β) = Cursor.mid (data.take off)
      (data.drop off ++ ext) := by
    intro ext
    rw [Cursor.mid, ← List.append_assoc, List.take_append_drop, List.length_take_of_le hoff]
  have h0 := hmid []
  rw [List.append_nil, List.append_nil] at h0
  rw [h0] at hr
  obtain ⟨bs, post, hG, hrest, rfl⟩ := (h ..).mp hr
  rw [hmid ext]
  refine (h ..).mpr ⟨bs, post ++ ext, hG, by rw [hrest, List.append_assoc], ?_⟩
  have hd : data.take off ++ (bs ++ post) = data := by rw [← hrest, List.take_append_drop]
  rw [Cursor.mid_offset, Cursor.mid, ← List.append_assoc,
    List.append_assoc (data.take off) bs post, hd]

/-- Reading a whole string: from its first item to its last. -/
theorem Decodes.whole {p : Reads β α} {G : α → List β → Prop} (h : Decodes p G) (xs : List β)
    (a : α) :
    (∃ c, p.run ⟨xs, 0⟩ = some (a, c) ∧ c.offset = xs.length) ↔ G a xs := by
  have h0 : (⟨xs, 0⟩ : Cursor β) = Cursor.mid [] xs := rfl
  rw [h0]
  constructor
  · rintro ⟨c, hr, hc⟩
    obtain ⟨bs, post, hG, rfl, rfl⟩ := (h ..).mp hr
    have hpost : post = [] := by
      simp only [Cursor.mid, List.nil_append, List.length_append] at hc
      exact List.eq_nil_of_length_eq_zero (by omega)
    rwa [hpost, List.append_nil]
  · intro hG
    exact ⟨Cursor.mid xs [], (h ..).mpr ⟨xs, [], hG, by simp, by simp⟩, by simp [Cursor.mid]⟩

/-- A string has one meaning. -/
theorem Decodes.unique {p : Reads β α} {G : α → List β → Prop} (h : Decodes p G) {xs : List β}
    {a a' : α} (ha : G a xs) (ha' : G a' xs) : a = a' := by
  obtain ⟨c, hr, -⟩ := (h.whole xs a).mpr ha
  obtain ⟨c', hr', -⟩ := (h.whole xs a').mpr ha'
  rw [hr] at hr'
  exact (Prod.mk.inj (Option.some.inj hr')).1

/-- What was read tells where it ends. -/
theorem Decodes.split {p : Reads β α} {G : α → List β → Prop} (h : Decodes p G) {xs ys s t : List β}
    {a b : α} (ha : G a xs) (hb : G b ys) (heq : xs ++ s = ys ++ t) : a = b ∧ xs = ys ∧ s = t := by
  have hx := (h [] (xs ++ s) a _).mpr ⟨xs, s, ha, rfl, rfl⟩
  have hy := (h [] (ys ++ t) b _).mpr ⟨ys, t, hb, rfl, rfl⟩
  rw [heq, hy] at hx
  obtain ⟨hval, hcur⟩ := Prod.mk.inj (Option.some.inj hx)
  have hlen : xs.length = ys.length := by
    simpa [Cursor.mid] using (congrArg Cursor.offset hcur).symm
  exact ⟨hval.symm, List.append_inj heq hlen⟩

/-! ### Programs that read more -/

theorem run_guard (P : Prop) [Decidable P] (c : Cursor β) :
    (guard P : Reads β Unit).run c = if P then some ((), c) else none := by
  unfold guard
  split <;> rfl

/-- A test behind which a program goes on. -/
theorem run_guard_eq_some {P : Prop} [Decidable P] {c : Cursor β} {x : Unit × Cursor β}
    (h : (guard P : Reads β Unit).run c = some x) :
    P ∧ x = ((), c) := by
  rw [run_guard] at h
  split at h
  · exact ⟨‹P›, (Option.some.inj h).symm⟩
  · cases h

/-- `p` reads `n` items, whatever they are. -/
def Takes (n : ℕ) (p : Reads β α) : Prop :=
  ∀ c, c.offset + n ≤ c.data.length → ∃ a, p.run c = some (a, { c with offset := c.offset + n })

theorem takes_pure (a : α) : Takes 0 (pure a : Reads β α) := fun _ _ => ⟨a, rfl⟩

theorem Takes.bind {m n : ℕ} {p : Reads β α} {f : α → Reads β γ} (hp : Takes m p)
    (hf : ∀ a, Takes n (f a)) :
    Takes (m + n) (p >>= f) := by
  intro c hc
  obtain ⟨a, ha⟩ := hp c (by omega)
  obtain ⟨b, hb⟩ := hf a { c with offset := c.offset + m } (by dsimp only; omega)
  refine ⟨b, ?_⟩
  rw [StateT.run_bind, ha, ← Nat.add_assoc]
  exact hb

/-- What `p` reads `q` reads too, and in the same way. -/
def ReadsImply (p q : Reads β α) : Prop := ∀ c x, p.run c = some x → q.run c = some x

theorem ReadsImply.refl (p : Reads β α) : ReadsImply p p := fun _ _ h => h

theorem ReadsImply.bind {p q : Reads β α} {f g : α → Reads β γ} (h : ReadsImply p q)
    (hfg : ∀ a, ReadsImply (f a) (g a)) :
    ReadsImply (p >>= f) (q >>= g) := by
  intro c x hx
  simp only [StateT.run_bind, Option.bind_eq_bind, Option.bind_eq_some_iff] at hx ⊢
  obtain ⟨⟨a, c'⟩, hp, hf⟩ := hx
  exact ⟨(a, c'), h _ _ hp, hfg a _ _ hf⟩

theorem ReadsImply.guard {P Q : Prop} [Decidable P] [Decidable Q] (h : P → Q) :
    ReadsImply (guard P : Reads β Unit) (guard Q) := by
  intro c x hx
  obtain ⟨hP, rfl⟩ := run_guard_eq_some hx
  rw [run_guard, if_pos (h hP)]

end Tide.Theory
