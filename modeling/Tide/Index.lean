import Tide.Types
import Tide.Theory.Behind
import Tide.Theory.Growing
import Tide.Theory.Simulation
import Mathlib.Data.List.Induction

/-!
# The index builder

The model of `src/index/index_builder.c`. Entries are added behind the others, in a table that is
reallocated when it is full; an entry whose record lies before that of the last one is refused.

In the end the table holds the entries that were not refused, in the order of their records
(`indexBuilder_builds`). As long as no reallocation fails, an entry is refused exactly if its record
lies before that of any entry there was, whether that one was taken or not.
-/

namespace Tide

open Theory

/-- `tide_index_entry`. -/
structure IndexEntry where
  trackId : UInt32
  packetSeq : UInt64
  pts : Int64
  recordOffset : UInt64
  deriving DecidableEq, Repr

/-- `tide_index_builder_add`. The table is `entries`, with `count` and `capacity`. -/
def indexBuilderAdd (table : Growing IndexEntry) (entry : IndexEntry) :
    Status × Growing IndexEntry :=
  if table.items.getLast?.any fun last => entry.recordOffset < last.recordOffset then
    (.index, table)
  else
    let added := table.add 16 entry
    (if added.1 then .ok else .resource, added.2)

/-- A table before any entry, with the outcomes of the reallocations to come. -/
def indexStart (allocs : Stream' Bool) : Growing IndexEntry := ⟨[], 0, allocs⟩

/-- The table with some entries added. -/
def indexBuilt (allocs : Stream' Bool) (entries : List IndexEntry) : Growing IndexEntry :=
  (answers indexBuilderAdd (indexStart allocs) entries).2

theorem indexBuilt_concat (allocs : Stream' Bool) (entries : List IndexEntry) (entry : IndexEntry) :
    indexBuilt allocs (entries ++ [entry]) =
      (indexBuilderAdd (indexBuilt allocs entries) entry).2 := by
  rw [indexBuilt, answers_append]
  rfl

/-- The order of the records. -/
def IndexEntry.Le (a b : IndexEntry) : Prop := a.recordOffset ≤ b.recordOffset

/-- A table in order has room for its entries. -/
structure Indexed (table : Growing IndexEntry) : Prop where
  sorted : table.items.Pairwise IndexEntry.Le
  room : table.items.length ≤ table.capacity

/-- In a table in order the last entry is the greatest. -/
theorem Indexed.le_last {table : Growing IndexEntry} (h : Indexed table) {last : IndexEntry}
    (hlast : table.items.getLast? = some last) :
    ∀ e ∈ table.items, e.Le last := by
  obtain ⟨init, hinit⟩ := List.getLast?_eq_some_iff.mp hlast
  have hsorted := h.sorted
  rw [hinit, List.pairwise_append] at hsorted
  intro e he
  rw [hinit, List.mem_append, List.mem_singleton] at he
  rcases he with he | rfl
  · exact hsorted.2.2 e he last (List.mem_singleton_self _)
  · exact UInt64.le_refl _

/-- **When an entry is refused**: if there is one in the table whose record lies behind its own. -/
theorem Indexed.refuses_iff {table : Growing IndexEntry} (h : Indexed table) (entry : IndexEntry) :
    (table.items.getLast?.any fun last => entry.recordOffset < last.recordOffset) = true ↔
      ∃ e ∈ table.items, entry.recordOffset < e.recordOffset := by
  cases hlast : table.items.getLast? with
  | none => simp [List.getLast?_eq_none_iff.mp hlast]
  | some last =>
    simp only [Option.any_some, decide_eq_true_eq]
    constructor
    · exact fun hlt => ⟨last, List.mem_of_getLast? hlast, hlt⟩
    · rintro ⟨e, he, hlt⟩
      exact UInt64.lt_of_lt_of_le hlt (h.le_last hlast e he)

/-- **What adding an entry does**: it is refused, or it is lost for want of memory, or it is put
behind the others; the entries in the table stay where they are. -/
theorem Indexed.add_cases {table : Growing IndexEntry} (h : Indexed table) (entry : IndexEntry) :
    let r := indexBuilderAdd table entry
    Indexed r.2 ∧
      (r.1 = .index ∧ r.2 = table ∧ (∃ e ∈ table.items, entry.recordOffset < e.recordOffset) ∨
        (∀ e ∈ table.items, e.Le entry) ∧
          (r.1 = .ok ∧ r.2.items = table.items ++ [entry] ∧ (table.add 16 entry).1 = true ∧
            r.2 = (table.add 16 entry).2 ∨
            r.1 = .resource ∧ r.2 = { table with allocs := table.allocs.tail } ∧
              table.items.length = table.capacity ∧
              table.allocs.head = false)) := by
  intro r
  by_cases hrefuse : (table.items.getLast?.any fun last => entry.recordOffset <
    last.recordOffset) = true
  · have hr : r = (.index, table) := if_pos hrefuse
    rw [hr]
    exact ⟨h, .inl ⟨rfl, rfl, (h.refuses_iff entry).mp hrefuse⟩⟩
  have hr : r = (if (table.add 16 entry).1 then .ok else .resource, (table.add 16 entry).2) :=
    if_neg hrefuse
  have hle : ∀ e ∈ table.items, e.Le entry := by
    intro e he
    apply UInt64.not_lt.mp
    exact fun hlt => hrefuse ((h.refuses_iff entry).mpr ⟨e, he, hlt⟩)
  have hsorted : (table.items ++ [entry]).Pairwise IndexEntry.Le := by
    rw [List.pairwise_append]
    exact ⟨h.sorted, List.pairwise_singleton ..,
      fun e he b hb => List.mem_singleton.mp hb ▸ hle e he⟩
  have hroom := h.room
  rw [hr]
  unfold Growing.add
  by_cases hfull : table.items.length = table.capacity
  · rw [if_pos hfull]
    by_cases halloc : table.allocs.head = true
    · rw [if_pos halloc]
      refine ⟨⟨hsorted, ?_⟩, .inr ⟨hle, .inl ⟨rfl, rfl, rfl, rfl⟩⟩⟩
      rw [List.length_append, List.length_singleton]
      dsimp only
      split_ifs <;> omega
    · rw [if_neg halloc]
      exact ⟨⟨h.sorted, h.room⟩, .inr ⟨hle, .inr ⟨rfl, rfl, hfull, by simpa using halloc⟩⟩⟩
  · rw [if_neg hfull]
    refine ⟨⟨hsorted, ?_⟩, .inr ⟨hle, .inl ⟨rfl, rfl, rfl, rfl⟩⟩⟩
    rw [List.length_append, List.length_singleton]
    dsimp only
    omega

/-- A table is in order, whatever was added. -/
theorem indexed_built (allocs : Stream' Bool) (entries : List IndexEntry) :
    Indexed (indexBuilt allocs entries) := by
  have hstart : Indexed (indexStart allocs) := ⟨.nil, Nat.le_refl _⟩
  exact answers_invariant (I := Indexed) (fun _ entry h => (h.add_cases entry).1) hstart entries

/-- The entries of the calls that were answered with `OK`, behind those that were there. -/
theorem indexed_items {table : Growing IndexEntry} (h : Indexed table) (entries : List IndexEntry) :
    (answers indexBuilderAdd table entries).2.items =
      table.items ++ ((entries.zip (answers indexBuilderAdd table entries).1).filter fun c => c.2 =
        .ok).map Prod.fst := by
  induction entries generalizing table with
  | nil => simp [answers]
  | cons entry entries ih =>
    obtain ⟨hindexed, hcases⟩ := h.add_cases entry
    rw [answers]
    dsimp only
    rw [ih hindexed, List.zip_cons_cons, List.filter_cons]
    obtain ⟨hst, htable, -⟩ | ⟨-, ⟨hst, hitems, -⟩ | ⟨hst, htable, -, -⟩⟩ := hcases
    · simp [hst, htable]
    · simp [hst, hitems]
    · simp [hst, htable]

/-- A table that has lost no entry: the reallocations so far have succeeded, and of any entry
there was the table has one that lies no earlier. -/
structure Lossless (allocs : Stream' Bool) (entries : List IndexEntry)
    (table : Growing IndexEntry) : Prop where
  grown : ∃ j, table.capacity = Growing.room 16 j ∧ table.allocs = allocs.drop j
  few : table.items.length ≤ entries.length
  among : ∀ e ∈ table.items, e ∈ entries
  reached : ∀ b ∈ entries, ∃ e ∈ table.items, b.Le e

/-- While there is memory, one more entry is refused or taken. -/
theorem Lossless.add {allocs : Stream' Bool} {entries : List IndexEntry}
    {table : Growing IndexEntry} (h : Lossless allocs entries table) (hindexed : Indexed table)
    {n : ℕ} (hsuffices : Growing.Suffices 16 allocs n) (hlt : entries.length < n)
    (entry : IndexEntry) :
    Lossless allocs (entries ++ [entry]) (indexBuilderAdd table entry).2 ∧
      (indexBuilderAdd table entry).1 = if ∃ b ∈ entries, entry.recordOffset < b.recordOffset
        then .index else .ok := by
  obtain ⟨⟨j, hcapacity, hallocs⟩, hfew, hamong, hreached⟩ := h
  have hbehind : (∃ e ∈ table.items, entry.recordOffset < e.recordOffset) ↔
      ∃ b ∈ entries, entry.recordOffset < b.recordOffset := by
    constructor
    · rintro ⟨e, he, hlt⟩
      exact ⟨e, hamong e he, hlt⟩
    · rintro ⟨b, hb, hlt⟩
      obtain ⟨e, he, hle⟩ := hreached b hb
      exact ⟨e, he, UInt64.lt_of_lt_of_le hlt hle⟩
  obtain ⟨-, ⟨hst, htable, hrefused⟩ | ⟨hle, hrest⟩⟩ := hindexed.add_cases entry
  · rw [hst, htable, if_pos (hbehind.mp hrefused)]
    refine ⟨⟨⟨j, hcapacity, hallocs⟩, by rw [List.length_append]; omega, ?_, ?_⟩, rfl⟩
    · exact fun e he => List.mem_append_left _ (hamong e he)
    · intro b hb
      rcases List.mem_append.mp hb with hb | hb
      · exact hreached b hb
      · obtain ⟨e, he, hlt⟩ := hrefused
        exact ⟨e, he, List.mem_singleton.mp hb ▸ UInt64.le_of_lt hlt⟩
  have htaken : ¬ ∃ b ∈ entries, entry.recordOffset < b.recordOffset := by
    rw [← hbehind]
    rintro ⟨e, he, hlt⟩
    exact UInt64.not_lt.mpr (hle e he) hlt
  obtain ⟨hst, hitems, hkept, hadded⟩ | ⟨-, -, hfull, hfailed⟩ := hrest
  · rw [hst, if_neg htaken]
    refine ⟨⟨?_, ?_, ?_, ?_⟩, rfl⟩
    · rw [hadded]
      exact Growing.add_room (by norm_num) hcapacity hallocs hkept
    · rw [hitems, List.length_append, List.length_append]
      exact Nat.add_le_add_right hfew 1
    · intro e he
      rw [hitems] at he
      rcases List.mem_append.mp he with he | he
      · exact List.mem_append_left _ (hamong e he)
      · exact List.mem_append_right _ he
    · intro b hb
      rw [hitems]
      rcases List.mem_append.mp hb with hb | hb
      · obtain ⟨e, he, hle⟩ := hreached b hb
        exact ⟨e, List.mem_append_left _ he, hle⟩
      · exact ⟨entry, List.mem_append_right _ (List.mem_singleton_self _),
          List.mem_singleton.mp hb ▸ UInt64.le_refl _⟩
  · -- this reallocation is one of those that succeed
    have hroom : Growing.room 16 j < n := by omega
    rw [hallocs, Stream'.head_drop, hsuffices j hroom] at hfailed
    cases hfailed

theorem lossless_built {allocs : Stream' Bool} {n : ℕ} (hsuffices : Growing.Suffices 16 allocs n)
    (entries : List IndexEntry) (hle : entries.length ≤ n) :
    Lossless allocs entries (indexBuilt allocs entries) := by
  induction entries using List.reverseRecOn with
  | nil => exact ⟨⟨0, rfl, rfl⟩, Nat.le_refl _, fun e he => he, by simp⟩
  | append_singleton entries entry ih =>
    rw [List.length_append, List.length_singleton] at hle
    rw [indexBuilt_concat]
    exact ((ih (by omega)).add (indexed_built allocs entries) hsuffices (by omega) entry).1

/-- **What the builder builds**, whatever is added and whichever reallocations succeed: the
entries that were answered with `OK`, which are in the order of their records and within the
capacity. An entry is refused if and only if one in the table lies behind it; and if the
reallocations succeed that so many need, all others are taken, and it is refused if and only if
there was one before it that lies behind it. -/
theorem indexBuilder_builds (allocs : Stream' Bool) (entries : List IndexEntry) :
    let built := indexBuilt allocs entries
    built.items = ((entries.zip (answers indexBuilderAdd (indexStart allocs) entries).1).filter
      fun c => c.2 = .ok).map Prod.fst ∧
      built.items.Pairwise IndexEntry.Le ∧ built.items.length ≤ built.capacity ∧
      EachBehind (fun before entry =>
        ((indexBuilderAdd (indexBuilt allocs before) entry).1 = .index ↔
            ∃ e ∈ (indexBuilt allocs before).items, entry.recordOffset < e.recordOffset) ∧
          (Growing.Suffices 16 allocs entries.length →
            (indexBuilderAdd (indexBuilt allocs before) entry).1 =
            if ∃ e ∈ before, entry.recordOffset < e.recordOffset then
              .index else .ok)) entries := by
  intro built
  have hbuilt := indexed_built allocs entries
  refine ⟨?_, hbuilt.sorted, hbuilt.room, ?_⟩
  · have hstart : Indexed (indexStart allocs) := ⟨.nil, Nat.le_refl _⟩
    exact (indexed_items hstart entries).trans (List.nil_append _)
  · intro before entry after heq
    have hbefore := indexed_built allocs before
    constructor
    · obtain ⟨-, ⟨hst, -, hrefused⟩ | ⟨hle, hrest⟩⟩ := hbefore.add_cases entry
      · exact iff_of_true hst hrefused
      · refine iff_of_false ?_ ?_
        · obtain ⟨hst, -⟩ | ⟨hst, -⟩ := hrest <;> simp [hst]
        · rintro ⟨e, he, hlt⟩
          exact UInt64.not_lt.mpr (hle e he) hlt
    · intro hsuffices
      have hlt : before.length < entries.length := by
        rw [heq, List.length_append, List.length_cons]
        omega
      exact ((lossless_built hsuffices before hlt.le).add hbefore hsuffices hlt entry).2

end Tide
