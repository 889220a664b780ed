import Tide.Format.File

/-!
# Files cut short

A recording that was interrupted is a file cut at some byte. Wherever the cut is,
the parser reports the top-level records that are complete and nothing of the one
that is not, says `OK` when the cut is at the end of a record and `PARTIAL`
otherwise, and gives the last such end as the valid prefix
(`parseTideBytes_take`).
-/

namespace Tide

open Theory

variable {σ : Type}

/-- The ends of the header and of the top-level records of a forest from `offset` on. -/
def Forest.ends (f : Forest) (offset : ℕ) : List ℕ := offset :: (f.topRecords offset 0).map Prod.fst

/-- The events of the top-level records that end at or before `n`. -/
def Forest.eventsWithin (f : Forest) (offset n : ℕ) : List Event :=
  ((f.topRecords offset 0).filter fun r => r.1 ≤ n).flatMap Prod.snd

/-- `e` is the last of the ends that are at most `n`. -/
def Forest.LastEnd (f : Forest) (offset n e : ℕ) : Prop :=
  e ∈ f.ends offset ∧ e ≤ n ∧ ∀ e' ∈ f.ends offset, e' ≤ n → e' ≤ e

namespace Forest

variable {r next : Forest}

theorem IsRecord.ends_append (hr : IsRecord r) (next : Forest) (offset : ℕ) :
    (r.append next).ends offset = offset :: next.ends (offset + r.bytes.length) := by
  rw [ends, hr.topRecords_append]
  rfl

theorem le_of_mem_ends (f : Forest) {offset e : ℕ} (he : e ∈ f.ends offset) : offset ≤ e := by
  induction f using recordInduction generalizing offset with
  | nil => exact Nat.le_of_eq (List.mem_singleton.mp he).symm
  | cons r next hr ih =>
    rw [hr.ends_append] at he
    rcases List.mem_cons.mp he with rfl | he
    · exact Nat.le_refl _
    · exact Nat.le_trans (Nat.le_add_right ..) (ih he)

/-- No record ends before the first one does. -/
theorem eventsWithin_of_lt (f : Forest) {offset n : ℕ} (hn : n < offset) :
    f.eventsWithin offset n = [] := by
  have : (f.topRecords offset 0).filter (fun r => r.1 ≤ n) = [] := by
    rw [List.filter_eq_nil_iff]
    intro x hx
    have := f.le_of_mem_ends (List.mem_cons_of_mem offset (List.mem_map_of_mem hx))
    simp only [decide_eq_true_eq]
    omega
  rw [eventsWithin, this, List.flatMap_nil]

theorem IsRecord.eventsWithin_append (hr : IsRecord r) (next : Forest) {offset n : ℕ}
    (hn : offset + r.bytes.length ≤ n) :
    (r.append next).eventsWithin offset n = r.events offset 0 ++ next.eventsWithin
      (offset + r.bytes.length) n := by
  rw [eventsWithin, hr.topRecords_append, List.filter_cons_of_pos (by simpa using hn),
    List.flatMap_cons]
  rfl

theorem IsRecord.eventsWithin_append_of_lt (hr : IsRecord r) (next : Forest) {offset n : ℕ}
    (hn : n < offset + r.bytes.length) :
    (r.append next).eventsWithin offset n = [] := by
  rw [eventsWithin, hr.topRecords_append, List.filter_cons_of_neg (by simpa using hn)]
  exact next.eventsWithin_of_lt hn

end Forest

section

variable {I : σ → Prop} {B : Bytes}

/-- A loop whose bytes end within a record asks for more. -/
theorem parseRecords_within {h : RecordHead} {payload : Bytes} {p : Parsing σ} {n offset : ℕ}
    (depth : UInt8) (hB : B.length ≤ sizeMax) (hoff : 72 ≤ offset) (ha : h.alignmentLog2 ≤ 4)
    (hl : Lies B offset (h.bytes payload)) (h1 : offset < n)
    (h2 : n < offset + h.size payload.length) (hn : n ≤ B.length) :
    parseRecords (B.take n) offset n depth p = (.truncated, { p with validPrefix := offset }) := by
  have hle := hl.length_le (by omega)
  rw [h.length_bytes] at hle
  have hfit := h.sizeFits_of_le ha hoff (hle.trans hB)
  obtain ⟨hdec, -⟩ : decodeRecordPrefix B B.length offset depth =
      .frame (h.frameAt offset payload.length depth) ∧ _ :=
    (framed_iff (Nat.le_refl _) hB).mpr ⟨h, payload, ha, hfit, hl, hle, rfl⟩
  have hcut : decodeRecordPrefix (B.take n) n offset depth = .truncated := by
    rw [decodeRecordPrefix_congr (show (B.take n).take n =
      B.take n by rw [List.take_take, Nat.min_self])]
    exact decodeRecordPrefix_cut hdec hn h2
  rw [parseRecords_eq _ (by omega), if_pos h1]
  unfold recordStep
  rw [hcut]

/-- The loop on a forest that is cut at `n`. -/
theorem parseRecords_cut (f : Forest) {p : Parsing σ} {n offset : ℕ} (hB : B.length ≤ sizeMax)
    (hn : n ≤ B.length) (hc : p.Calm I) (hoff : 72 ≤ offset)
    (hv : f.Valid p.limits (admits p.limits) 0 (B.take offset) p.tracks)
    (hl : Lies B offset f.bytes) (hvp : p.validPrefix = offset) (h1 : offset ≤ n)
    (h2 : n ≤ offset + f.bytes.length) :
    (parseRecords (B.take n) offset n 0 p).1 = (if n ∈ f.ends offset then .ok else .truncated) ∧
      f.LastEnd offset n (parseRecords (B.take n) offset n 0 p).2.validPrefix ∧
      (parseRecords (B.take n) offset n 0 p).2.user = p.callbacks.deliver p.user
        (f.eventsWithin offset n) := by
  induction f using Forest.recordInduction generalizing offset p with
  | nil =>
    obtain rfl : n = offset := by simpa [Forest.bytes] using Nat.le_antisymm h2 h1
    rw [parseRecords_end _ (by omega)]
    refine ⟨by simp [Forest.ends], ⟨by simp [Forest.ends, hvp], hvp.le, ?_⟩, rfl⟩
    simp [Forest.ends, Forest.topRecords, hvp]
  | cons r next hr ih =>
    rw [Forest.valid_append_iff] at hv
    rw [Forest.bytes_append, lies_append_iff] at hl
    rw [Forest.bytes_append, List.length_append] at h2
    rw [hr.ends_append, Forest.LastEnd, hr.ends_append]
    obtain ⟨h, payload, hbytes, hhead⟩ := hr.head hv.1
    have hlen : r.bytes.length = h.size payload.length := by rw [hbytes, h.length_bytes]
    have hge := h.size_ge payload.length
    by_cases hin : offset + r.bytes.length ≤ n
    · -- the record is complete: the loop passes over it
      have htake : B.take n = (B.take n).take n := by rw [List.take_take, Nat.min_self]
      have hpre : (B.take n).take offset = B.take offset := by
        rw [List.take_take, Nat.min_eq_left h1]
      obtain ⟨p', hfol, hvp', hparse⟩ := parseRecords_forest r (by rw [List.length_take_of_le hn])
        (by omega) hc hoff
        (by rw [hpre]; exact hv.1) (hl.1.congr htake hin) hin
      have hne : r ≠ .nil := by cases hr <;> simp
      rw [Forest.prefixAfter, if_neg hne] at hvp'
      have hnext := hv.2
      rw [← hl.1.take, ← hfol.tracks, ← hfol.limits] at hnext
      obtain ⟨hst, ⟨hmem, hvn, hlast⟩, huser⟩ :=
        ih (hfol.calm hc) (by omega) hnext hl.2 hvp' hin (by omega)
      rw [show (0 : UInt8) = UInt8.ofNat 0 from rfl, hparse]
      refine ⟨?_, ⟨List.mem_cons_of_mem _ hmem, hvn, fun e he hen => ?_⟩, ?_⟩
      · have hmem' : n ∈ offset :: next.ends (offset + r.bytes.length) ↔
            n ∈ next.ends (offset + r.bytes.length) := by
          rw [List.mem_cons, or_iff_right (by omega)]
        simp only [hmem']
        exact hst
      · rcases List.mem_cons.mp he with rfl | he
        · exact Nat.le_trans (Nat.le_add_right ..) (hlast _ (List.mem_cons_self ..) hin)
        · exact hlast e he hen
      · rw [hr.eventsWithin_append next hin]
        change _ = List.foldl _ _ _
        rw [List.foldl_append]
        refine huser.trans ?_
        rw [hfol.callbacks, hfol.user]
        rfl
    · -- the cut is within the record or before it
      have hlt : n < offset + r.bytes.length := Nat.not_le.mp hin
      have hends : ∀ e ∈ next.ends (offset + r.bytes.length), ¬ e ≤ n := fun e he hen =>
        absurd (next.le_of_mem_ends he) (by omega)
      have hmem : n ∈ offset :: next.ends (offset + r.bytes.length) ↔ n = offset := by
        rw [List.mem_cons, or_iff_left fun he => hends n he (Nat.le_refl _)]
      have hlast : ∀ e ∈ offset :: next.ends (offset + r.bytes.length), e ≤ n → e ≤ offset := by
        intro e he hen
        rcases List.mem_cons.mp he with rfl | he
        · exact Nat.le_refl _
        · exact absurd hen (hends e he)
      rw [hr.eventsWithin_append_of_lt next hlt]
      by_cases heq : n = offset
      · subst heq
        rw [parseRecords_end _ (by omega), if_pos (hmem.mpr rfl)]
        exact ⟨rfl,
          ⟨by rw [hvp]; exact List.mem_cons_self .., hvp.le, by rw [hvp]; exact hlast⟩, rfl⟩
      · rw [hbytes] at hl
        rw [parseRecords_within 0 hB hoff hhead.alignment hl.1 (by omega) (by omega) hn,
          if_neg (mt hmem.mp heq)]
        exact ⟨rfl, ⟨List.mem_cons_self .., h1, hlast⟩, rfl⟩

/-- **A file cut short**: for a file that is accepted and every cut, the parser reports
the top-level records that end before the cut, and no more; it says `OK` at the
end of the header or of a top-level record and `PARTIAL` elsewhere, and the valid
prefix is the last such end. -/
theorem parseTideBytes_take (B : Bytes) (hB : B.length ≤ sizeMax) (L : Limits)
    (callbacks : Callbacks σ) (trace : σ → List Event) (hcb : callbacks.Traces trace) (user : σ)
    (hok : (parseTideBytes B true (some L) callbacks user (Stream'.const true)).1 = .ok) :
    ∃ hd f, FileOk L (admits L) B hd f ∧ ∀ n, n ≤ B.length →
      (parseTideBytes (B.take n) true (some L) callbacks user (Stream'.const true)).1 =
          (if n ∈ f.ends 72 then .ok else .partialTail) ∧
        (n < 72 → (parseTideBytes (B.take n) true (some L) callbacks user
          (Stream'.const true)).2.validPrefix = 0) ∧
        (72 ≤ n → f.LastEnd 72 n (parseTideBytes (B.take n) true (some L) callbacks user
          (Stream'.const true)).2.validPrefix) ∧
        trace (parseTideBytes (B.take n) true (some L) callbacks user (Stream'.const true)).2.user =
          trace user ++ (f.eventsWithin 72 n).filter callbacks.hears := by
  have hc := hcb.calm (some L) user
  obtain ⟨hd, f, hfile⟩ := fileOk_of_ok hc hB hok
  refine ⟨hd, f, hfile, fun n hn => ?_⟩
  have hlen := hd.length_bytes hfile.header.uuid_length
  have hBlen := hfile.length
  have hnlen : (B.take n).length = n := List.length_take_of_le hn
  by_cases h72 : n < 72
  · have herr : validateHeader (B.take n) L =
        .error (parseError .truncated (B.take n).length 0 0 "incomplete header") := by
      rw [validateHeader, if_pos (by omega)]
    have hnot : n ∉ f.ends 72 := fun h => absurd (f.le_of_mem_ends h) (by omega)
    rw [parseTideBytes_of_error herr, if_neg hnot, f.eventsWithin_of_lt h72]
    exact ⟨rfl, fun _ => rfl, fun h => absurd h (by omega), (List.append_nil _).symm⟩
  · have hval : validateHeader (B.take n) L = .ok () := by
      refine (validateHeader_eq_ok_iff ..).mpr ⟨hd, hfile.header, ?_⟩
      rw [hfile.bytes, List.take_append, List.take_of_length_le (by omega)]
      exact List.prefix_append ..
    have hstart := (Parsing.Follows.refl (Parsing.start (some L) callbacks user
      (Stream'.const true))).withPrefix 72
    have htake : B.take 72 = hd.bytes := by rw [hfile.bytes, ← hlen, List.take_left]
    obtain ⟨hst, hlast, huser⟩ := parseRecords_cut f hB hn (hstart.calm hc) (Nat.le_refl 72)
      (by rw [htake]; exact hfile.forest) hfile.lies
      rfl (by omega) (by omega)
    rw [parseTideBytes_of_ok hval, hnlen]
    refine ⟨?_, fun h => absurd h h72, fun _ => hlast, ?_⟩
    · rw [hst]
      split <;> rfl
    · rw [huser]
      exact hcb.deliver user _

/-- The small file, cut in the middle of its group. -/
theorem sampleFile_take : ∃ hd f, FileOk limitsDefault (admits limitsDefault) sampleFile hd f ∧
    (parseTideBytes (sampleFile.take 100) true (some limitsDefault) recorder []
      (Stream'.const true)).1 =
      (if 100 ∈ f.ends 72 then .ok else .partialTail) := by
  obtain ⟨hd, f, hfile, hcut⟩ := parseTideBytes_take sampleFile (by decide +kernel) limitsDefault
    recorder id recorder_traces []
    (by decide +kernel)
  exact ⟨hd, f, hfile, (hcut 100 (by decide +kernel)).1⟩

end

end Tide
