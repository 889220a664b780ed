import Tide.Format.File

/-!
# Files without groups

Of bytes that are the bytes of a header and of records none of which is a group, it can
be said exactly when they are accepted: when the header and the records are well
formed, in the sense of the grammar (`parseTideBytes_flat_iff`). The grammar alone
says only that the bytes are then those of some forest.
-/

namespace Tide

open Theory

variable {σ : Type}

/-- A forest of leaves that are not groups, with alignments that may be written. -/
def Forest.Flat : Forest → Prop
  | nil => True
  | leaf h _ next => h.type ≠ RecordType.group.code ∧ h.alignmentLog2 ≤ 4 ∧ next.Flat
  | group .. => False

section

variable {I : σ → Prop} {data : Bytes}

/-- **A round at a leaf**: it goes on behind the record if that is well formed, and refuses
it if not. -/
theorem recordStep_leaf {p : Parsing σ} {h : RecordHead} {payload : Bytes} {size offset : ℕ}
    (depth : ℕ) (hsize : size ≤ data.length) (hmax : size ≤ sizeMax) (hc : p.Calm I)
    (hoff : 72 ≤ offset) (ht : h.type ≠ RecordType.group.code) (ha : h.alignmentLog2 ≤ 4)
    (hl : Lies data offset (h.bytes payload)) (hle : offset + h.size payload.length ≤ size) :
    (HeadOk p.limits h payload.length ∧
      LeafOk p.limits depth (data.take offset) p.tracks h payload ∧
        ∃ p', recordStep (parseRecords data) data size offset (UInt8.ofNat depth) p =
          .go (offset + h.size payload.length) p' ∧
          p.Follows p' (headEvent h payload.length offset depth :: leafContent h payload)
            (leafTracks h payload)) ∨
      ∃ r, recordStep (parseRecords data) data size offset (UInt8.ofNat depth) p = .stop r ∧
        r.1.Rejects := by
  have hge := h.size_ge payload.length
  by_cases hhead : HeadOk p.limits h payload.length
  · rw [recordStep_framed (parseRecords data) (UInt8.ofNat depth) p hsize hmax hoff hhead hl hle]
    obtain ⟨hleaf, p', hproc, hfol, -⟩ | ⟨-, href⟩ :=
      processRecord_leaf hc (parseRecords data) depth (by omega) (h.lies_payload hl) ht
    · rw [hproc]
      exact .inl ⟨hhead, hleaf, _, rfl, hfol.withPrefix _⟩
    · exact .inr ⟨_, closeRecord_of_ne href.ne_ok, href.rejects⟩
  · -- the record is framed, so it is the limits it does not keep
    have hfit := h.sizeFits_of_le ha hoff (hle.trans hmax)
    obtain ⟨hdec, -⟩ : decodeRecordPrefix data size offset (UInt8.ofNat depth) =
        .frame (h.frameAt offset payload.length (UInt8.ofNat depth)) ∧ _ :=
      (framed_iff hsize hmax).mpr ⟨h, payload, ha, hfit, hl, hle, rfl⟩
    have hlimits : (h.frameAt offset payload.length (UInt8.ofNat depth)).payloadSize >
        p.limits.maxPayloadSize ∨ (h.frameAt offset payload.length (UInt8.ofNat depth)).crcEnd -
          (h.frameAt offset payload.length (UInt8.ofNat depth)).offset >
            p.limits.maxRecordSize.toNat := by
      by_contra hnot
      rw [not_or, UInt64.not_lt, UInt64.le_iff_toNat_le] at hnot
      simp only [RecordHead.frameAt, h.toNat_payloadSize hfit] at hnot
      exact hhead ⟨ha, hnot.1, by omega⟩
    refine .inr ⟨p.fail (parseError .resource offset h.type (UInt8.ofNat depth)
      "record exceeds limit"), ?_, (show Status.resource.Rejects by decide)⟩
    unfold recordStep
    rw [hdec]
    dsimp only
    rw [if_pos hlimits]
    rfl

/-- What the loop accepts of a flat forest is well formed. -/
theorem valid_of_parseRecords (f : Forest) {size offset : ℕ} (depth : ℕ) {p : Parsing σ}
    (hf : f.Flat) (hsize : size ≤ data.length) (hmax : size ≤ sizeMax) (hc : p.Calm I)
    (hoff : 72 ≤ offset) (hl : Lies data offset f.bytes) (hend : offset + f.bytes.length = size)
    (hok : (parseRecords data offset size (UInt8.ofNat depth) p).1 = .ok) :
    f.Valid p.limits (admits p.limits) depth (data.take offset) p.tracks := by
  induction f generalizing offset p with
  | nil => trivial
  | group => exact hf.elim
  | leaf h payload next ih =>
    obtain ⟨ht, ha, hnext⟩ := hf
    obtain ⟨hl₁, hl₂⟩ := lies_append_iff.mp hl
    have hge := h.size_ge payload.length
    simp only [Forest.bytes, List.length_append, h.length_bytes] at hend hl₂
    rw [parseRecords_eq data hmax, if_pos (by omega)] at hok
    obtain ⟨hhead, hleaf, p', hgo, hfol⟩ | ⟨r, hstop, hrej⟩ :=
      recordStep_leaf depth hsize hmax hc hoff ht ha hl₁ (by omega)
    · rw [hgo] at hok
      have hrest := ih hnext (hfol.calm hc) (by omega) hl₂ (by omega) hok
      have htake := hl₁.take
      rw [h.length_bytes] at htake
      rw [hfol.limits, hfol.tracks, htake] at hrest
      exact ⟨hhead, hleaf, hrest⟩
    · rw [hstop] at hok
      exact absurd hok hrej.1

/-- **A header and flat records are accepted if and only if they are well formed.** -/
theorem parseTideBytes_flat_iff {L : Limits} {callbacks : Callbacks σ} {user : σ} {hd : Header}
    {f : Forest} (hc : (Parsing.start (some L) callbacks user (Stream'.const true)).Calm I)
    (hu : hd.uuid.length = 16) (hf : f.Flat) (hmax : (hd.bytes ++ f.bytes).length ≤ sizeMax) :
    (parseTideBytes (hd.bytes ++ f.bytes) true (some L) callbacks user (Stream'.const true)).1 =
      .ok ↔
      hd.Valid L ∧ f.Valid L (admits L) 0 hd.bytes [] := by
  constructor
  · intro hok
    have hlen := hd.length_bytes hu
    cases hval : validateHeader (hd.bytes ++ f.bytes) L with
    | error e =>
      rw [parseTideBytes_of_error hval, atEnd_eq_ok_iff] at hok
      exact absurd hok (validateHeader_error hval).1
    | ok u =>
      rw [parseTideBytes_of_ok hval, atEnd_eq_ok_iff] at hok
      have hstart := (Parsing.Follows.refl (Parsing.start (some L) callbacks user
        (Stream'.const true))).withPrefix 72
      have hvalid := valid_of_parseRecords f 0 hf (Nat.le_refl _) hmax (hstart.calm hc)
        (Nat.le_refl 72) (hd.lies_behind hu f.bytes)
        (by simp [hlen]) hok
      rw [← hlen, List.take_left] at hvalid
      exact ⟨(validateHeader_bytes_iff hu f.bytes L).mp hval, hvalid⟩
  · rintro ⟨hhd, hvalid⟩
    obtain ⟨p, hparse, -⟩ := parseTideBytes_file hc hmax ⟨hhd, hvalid, rfl⟩ true
    rw [hparse]

end

end Tide
