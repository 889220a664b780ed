import Mathlib.Data.List.Induction
import Tide.Theory.Behind
import Tide.Format.Safety

/-!
# Records in groups

How many groups are around a record can be told from what has been announced before it:
they are the groups whose payload it lies in (`enclosing`). In every session this is the
number that a delivery is tagged with (`Heard.levels`).
-/

namespace Tide

open Theory

variable {σ : Type}

/-- The event announces a group, and `offset` is in its payload. -/
def Event.encloses (offset : ℕ) : Event → Bool
  | .record e =>
    e.type = RecordType.group.code ∧ e.payloadOffset ≤ offset ∧
      offset < e.payloadOffset + e.payloadSize.toNat
  | _ => false

/-- The number of groups that are around `offset`, among the records announced. -/
def enclosing (events : List Event) (offset : ℕ) : ℕ := events.countP (Event.encloses offset)

/-- The offset of the record an event comes from: it is the one announced, or the one announced
just before. -/
def origin (before : List Event) : Event → Option ℕ
  | .record e => some e.offset
  | .stream _ | .packet _ =>
    match before.getLast? with
    | some (.record e) => some e.offset
    | _ => none

@[simp] theorem enclosing_nil (offset : ℕ) : enclosing [] offset = 0 := rfl

@[simp] theorem enclosing_append (events events' : List Event) (offset : ℕ) :
    enclosing (events ++ events') offset = enclosing events offset + enclosing events' offset :=
  List.countP_append

@[simp] theorem enclosing_cons (e : Event) (events : List Event) (offset : ℕ) :
    enclosing (e :: events) offset = enclosing events offset + if e.encloses offset then 1 else 0 :=
  List.countP_cons ..

/-- What comes earlier makes no difference to where an event comes from. -/
theorem origin_append {before : List Event} {e : Event} {offset : ℕ}
    (h : origin before e = some offset) (earlier : List Event) :
    origin (earlier ++ before) e = some offset := by
  cases e with
  | record e => exact h
  | stream s | packet k =>
    cases before using List.reverseRecOn with
    | nil => cases h
    | append_singleton before last =>
      rw [origin, List.getLast?_concat] at h
      rw [← List.append_assoc, origin, List.getLast?_concat]
      exact h

theorem enclosing_eq_zero {events : List Event} {offset : ℕ}
    (h : ∀ e ∈ events, e.encloses offset = false) :
    enclosing events offset = 0 := by
  rw [enclosing, List.countP_eq_zero]
  intro e he
  rw [h e he]
  simp

/-- What an announcement encloses. -/
theorem encloses_headEvent {limits : Limits} {h : RecordHead} {n : ℕ} (hh : HeadOk limits h n)
    (offset level x : ℕ) :
    (headEvent h n offset level).encloses x =
      decide (h.type = RecordType.group.code ∧ offset + h.headerSize n ≤ x ∧
        x < offset + h.headerSize n + n) := by
  have hn := hh.payload
  have hlt := limits.maxPayloadSize.toNat_lt
  have hsize : (UInt64.ofNat n).toNat = n := UInt64.toNat_ofNat_of_lt' (by change _ < 2 ^ 64; omega)
  simp only [headEvent, Event.encloses, RecordFrame.event, RecordHead.frameAt, hsize]

namespace Heard

variable {data : Bytes} {limits : Limits} {level lo hi : ℕ} {ts ts' : List TrackSnapshot}
    {ds : List Delivery}

/-- A delivery encloses nothing that lies behind the range. -/
theorem not_encloses (h : Heard data limits level lo hi ts ds ts') {x : ℕ} (hx : hi ≤ x) :
    ∀ e ∈ eventsOf ds, e.encloses x = false := by
  intro e he
  obtain ⟨d, hd, rfl⟩ := List.mem_map.mp he
  have hf := h.found d hd
  have hle := hf.children_le
  have hg := h.genuine d hd
  unfold Delivery.Genuine at hg
  cases hev : d.event with
  | record e =>
    rw [hev] at hg
    dsimp only at hg
    have henc := encloses_headEvent hf.head d.offset d.level x
    rw [headEvent, ← hg] at henc
    rw [henc]
    exact decide_eq_false (by omega)
  | stream s | packet k => rfl

/-- **The level of a delivery** is the number of groups around its record. -/
theorem levels (h : Heard data limits level lo hi ts ds ts') :
    EachBehind (fun pre d => level + enclosing (eventsOf pre) d.offset = d.level) ds := by
  -- an announcement counts for nothing that lies before or behind its payload
  have hout : ∀ {lo hi offset : ℕ} {h : RecordHead} {payload : Bytes} (level : ℕ)
      (_ : Found data limits lo hi offset h payload) (x : ℕ),
      x < offset + h.headerSize payload.length ∨ offset + h.size payload.length ≤ x →
      (announcement level offset h payload).event.encloses x = false := by
    intro lo hi offset h payload level hf x hx
    have hpad := h.le_paddedSize payload.length
    rw [RecordHead.size] at hx
    rw [announcement, encloses_headEvent hf.head]
    exact decide_eq_false (by omega)
  induction h with
  | nil => exact eachBehind_nil
  | @record level _ _ offset h payload _ _ _ hf hrest ih =>
    rw [eachBehind_cons]
    refine ⟨rfl, ih.imp fun pre d _ hd hlevel => ?_⟩
    have hle := (hrest.found d hd).lo_le
    rw [eventsOf_cons, enclosing_cons, hout level hf _ (.inr hle)]
    simpa using hlevel
  | @stream level _ _ offset h payload _ _ _ _ hf _ _ _ hrest ih
  | @packet level _ _ offset h payload _ _ _ _ hf _ _ _ hrest ih =>
    have hbounds := h.headerSize_bounds payload.length
    rw [eachBehind_cons, eachBehind_cons]
    refine ⟨rfl, ?_, ih.imp fun pre d _ hd hlevel => ?_⟩
    · rw [eventsOf_cons, enclosing_cons, hout level hf _ (.inl (by dsimp only; omega))]
      rfl
    · have hle := (hrest.found d hd).lo_le
      rw [eventsOf_cons, eventsOf_cons, enclosing_cons, enclosing_cons, hout level hf _ (.inr hle)]
      simpa [Event.encloses] using hlevel
  | @group level _ _ offset h payload _ _ _ _ _ hf ht _ hc hrest ihc ih =>
    rw [eachBehind_cons, eachBehind_append]
    refine ⟨rfl, ihc.imp fun pre d _ hd hlevel => ?_, ih.imp fun pre d _ hd hlevel => ?_⟩
    · have hin := hc.found d hd
      have hlo := hin.lo_le
      have hhi := hin.le_hi
      have hge := d.head.size_ge d.payload.length
      have henc : (announcement level offset h payload).event.encloses d.offset = true := by
        rw [announcement, encloses_headEvent hf.head]
        exact decide_eq_true ⟨ht, by omega, by omega⟩
      rw [eventsOf_cons, enclosing_cons, henc]
      simp only [if_true]
      omega
    · have hle := (hrest.found d hd).lo_le
      have hpad := hf.children_le
      have hin := (hf.widen (Nat.le_refl _) (Nat.le_refl _)).le_hi
      have hend := h.le_paddedSize payload.length
      rw [RecordHead.size] at hle
      rw [eventsOf_cons, eventsOf_append, enclosing_cons, enclosing_append,
        hout level hf _ (.inr (by rw [RecordHead.size]; omega)),
          enclosing_eq_zero (hc.not_encloses (by omega))]
      simpa using hlevel

/-- A delivery comes from the record that is announced there, or just before. -/
theorem origins (h : Heard data limits level lo hi ts ds ts') :
    EachBehind (fun pre d => origin (eventsOf pre) d.event = some d.offset) ds := by
  induction h with
  | nil => exact eachBehind_nil
  | record _ _ ih =>
    rw [eachBehind_cons]
    exact ⟨rfl, ih.imp fun _ _ _ _ h => origin_append h [_]⟩
  | stream _ _ _ _ _ ih | packet _ _ _ _ _ ih =>
    rw [eachBehind_cons, eachBehind_cons]
    exact ⟨rfl, rfl, ih.imp fun _ _ _ _ h => origin_append h [_, _]⟩
  | group _ _ _ _ _ ihc ih =>
    rw [eachBehind_cons, eachBehind_append]
    refine ⟨rfl, ihc.imp fun _ _ _ _ h => origin_append h [_], ih.imp fun pre _ _ _ h => ?_⟩
    rw [eventsOf_cons, eventsOf_append]
    exact origin_append h (_ :: _)

end Heard

end Tide
