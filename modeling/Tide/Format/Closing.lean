import Tide.Format.Digest
import Tide.Format.Records

/-!
# Footers

A footer is to be the last record of its file. What is checked is that the length it gives
is its own end. So an accepted file is closed by its footer if and only if no footer is in
a group and none has a record behind it (`footersClose_iff`).
-/

namespace Tide

open Theory

variable {σ : Type}

/-! ### Where records are -/

section

variable {data payload : Bytes} {size offset level place depth : ℕ} {h : RecordHead}

/-- A record lies in its range, and before the end of the groups around it. -/
theorem Occurs.bounds (ho : Occurs data place h payload depth size offset level) :
    offset ≤ place ∧ level ≤ depth ∧
      place + h.size payload.length + 4 * (depth - level) ≤ size := by
  induction ho with
  | here hf =>
    have hle := hf.le
    omega
  | next hf _ ih =>
    have hge := hf.le
    omega
  | inside hf _ _ ih =>
    have hle := hf.children_le
    omega

/-- Behind a record of an accepted range there is another one, or the end of the range. -/
theorem Occurs.followed {P : ℕ → RecordHead → Bytes → Prop} {f : Forest}
    (hP : ∀ {place h payload}, P place h payload → h.alignmentLog2 ≤ 4)
    (ho : Occurs data place h payload depth size offset level) (hd : depth = level)
    (hf : f.Each P offset) (hl : Lies data offset f.bytes) (hend : offset + f.bytes.length = size)
    (hsize : size ≤ data.length) (hmax : size ≤ sizeMax) (hoff : 72 ≤ offset) :
    place + h.size payload.length = size ∨
      ∃ h' payload', Occurs data (place + h.size payload.length) h' payload' depth size
        offset level := by
  induction ho generalizing f with
  | here hfr =>
    obtain ⟨-, next, hnext, hl', hend'⟩ := hf.behind hP hl hend hsize hmax hoff hfr
    by_cases hnil : next = .nil
    · subst hnil
      exact .inl hend'
    · obtain ⟨h', payload', hfr'⟩ := hnext.first hP hl' hend'.le hnil
      exact .inr ⟨h', payload', .next hfr (.here hfr')⟩
  | next hfr _ ih =>
    obtain ⟨-, next, hnext, hl', hend'⟩ := hf.behind hP hl hend hsize hmax hoff hfr
    obtain hlast | ⟨h', payload', hocc⟩ := ih hd hnext hl' hend' hsize hmax (by omega)
    · exact .inl hlast
    · exact .inr ⟨h', payload', .next hfr hocc⟩
  | inside _ _ hin =>
    have hb := hin.bounds
    omega

/-- A record that is not a group does not overlap with another one. -/
theorem Occurs.apart (ho : Occurs data place h payload depth size offset level) (hd : depth = level)
    (ht : h.type ≠ RecordType.group.code) {place' depth' : ℕ} {h' : RecordHead} {payload' : Bytes}
    (ho' : Occurs data place' h' payload' depth' size offset level) (hsize : size ≤ data.length)
    (hmax : size ≤ sizeMax) (hoff : 72 ≤ offset) :
    place' ≤ place ∨ place + h.size payload.length ≤ place' := by
  induction ho with
  | here hfr =>
    cases ho' with
    | here hfr' => exact .inl (Nat.le_refl _)
    | next hfr' hrest =>
      obtain ⟨rfl, rfl⟩ := framed_unique hoff hsize hmax hsize hmax hfr hfr'
      exact .inr hrest.bounds.1
    | inside hfr' ht' _ =>
      obtain ⟨rfl, -⟩ := framed_unique hoff hsize hmax hsize hmax hfr hfr'
      exact absurd ht' ht
  | next hfr hrest ih =>
    have hb := hrest.bounds
    cases ho' with
    | here hfr' => exact .inl (by omega)
    | next hfr' hrest' =>
      obtain ⟨rfl, rfl⟩ := framed_unique hoff hsize hmax hsize hmax hfr hfr'
      exact ih hd hrest' hsize hmax (by omega)
    | inside hfr' _ hin' =>
      obtain ⟨rfl, rfl⟩ := framed_unique hoff hsize hmax hsize hmax hfr hfr'
      have hb' := hin'.bounds
      have hge := h'.size_ge payload'.length
      have hle := hfr'.children_le
      exact .inl (by omega)
  | inside _ _ hin =>
    have hb := hin.bounds
    omega

/-- Where a record is, if that which lies first is no group: there, or behind it. -/
theorem Occurs.leaf_cases (ho : Occurs data place h payload depth size offset level)
    {h' : RecordHead} {payload' : Bytes} (hfr : Framed data size offset h' payload')
    (ht : h'.type ≠ RecordType.group.code) (hsize : size ≤ data.length) (hmax : size ≤ sizeMax)
    (hoff : 72 ≤ offset) :
    (place = offset ∧ h = h' ∧ payload = payload' ∧ depth = level) ∨
      Occurs data place h payload depth size (offset + h'.size payload'.length) level := by
  cases ho with
  | here hfr' =>
    obtain ⟨rfl, rfl⟩ := framed_unique hoff hsize hmax hsize hmax hfr hfr'
    exact .inl ⟨rfl, rfl, rfl, rfl⟩
  | next hfr' hrest =>
    obtain ⟨rfl, rfl⟩ := framed_unique hoff hsize hmax hsize hmax hfr hfr'
    exact .inr hrest
  | inside hfr' ht' _ =>
    obtain ⟨rfl, -⟩ := framed_unique hoff hsize hmax hsize hmax hfr hfr'
    exact absurd ht' ht

end

/-! ### Files with a footer -/

/-- `h` and `payload` are the record at `place` of a file, in `depth` groups. -/
def RecordAt (B : Bytes) (place : ℕ) (h : RecordHead) (payload : Bytes) (depth : ℕ) : Prop :=
  Occurs B place h payload depth B.length 72 0

/-- **A footer closes the file**: the length it gives is that of the file, and no record
follows it. -/
def FootersClose (B : Bytes) : Prop :=
  ∀ place h payload depth, RecordAt B place h payload depth → h.type = RecordType.footer.code →
    (∃ length directory digest, wholePayload readFooter payload = some (length, directory, digest) ∧
      length.toNat = B.length) ∧
      ∀ place' h' payload' depth', RecordAt B place' h' payload' depth' → place' ≤ place

/-- The records of a file that is accepted pass their checks. -/
theorem forest_of_parseTideBytes {L : Limits} {callbacks : Callbacks σ} {user : σ}
    {allocs : Stream' Bool} {B : Bytes} {finish : Bool} (hB : B.length ≤ sizeMax)
    (hok : (parseTideBytes B finish (some L) callbacks user allocs).1 = .ok) :
    ∃ f : Forest, f.Each (Checked L) 72 ∧ Lies B 72 f.bytes ∧ 72 + f.bytes.length = B.length := by
  have hK : Tracked B fun _ _ (_ : Parsing σ) => True :=
    ⟨fun _ => trivial, fun _ _ _ => trivial, fun _ _ _ _ => trivial, fun _ _ => trivial⟩
  obtain ⟨f, heach, hl, hend, -⟩ := run_of_parseTideBytes hK hB hok
  exact ⟨f, heach, hl, hend⟩

/-- **When footers close a file** that is accepted: if and only if none is in a group and none
has a record directly behind it. -/
theorem footersClose_iff (B : Bytes) (hB : B.length ≤ sizeMax) (L : Limits)
    (callbacks : Callbacks σ) (user : σ) (allocs : Stream' Bool)
    (hok : (parseTideBytes B true (some L) callbacks user allocs).1 = .ok) :
    FootersClose B ↔ ∀ place h payload depth, RecordAt B place h payload depth →
      h.type = RecordType.footer.code →
      depth = 0 ∧ ¬ ∃ h' payload', RecordAt B (place + h.size payload.length) h' payload' 0 := by
  obtain ⟨f, hf, hl, hend⟩ := forest_of_parseTideBytes hB hok
  have hP : ∀ {place h payload}, Checked L place h payload → h.alignmentLog2 ≤ 4 :=
    fun hc => hc.head.alignment
  constructor
  · intro hclose place h payload depth hat ht
    obtain ⟨⟨length, directory, digest, hread, hlength⟩, hlast⟩ :=
      hclose place h payload depth hat ht
    -- the length that is checked is where the footer ends
    obtain ⟨length', directory', digest', hread', hlength'⟩ :=
      (hf.of_occurs hP hat hl hend (Nat.le_refl _) hB (Nat.le_refl _)).footer ht
    rw [hread] at hread'
    cases hread'
    have hb := hat.bounds
    have hge := h.size_ge payload.length
    refine ⟨by omega, ?_⟩
    rintro ⟨h', payload', hat'⟩
    have hle := hlast _ _ _ _ hat'
    omega
  · intro hcond place h payload depth hat ht
    obtain ⟨rfl, hnone⟩ := hcond place h payload depth hat ht
    have hat0 : Occurs B place h payload 0 B.length 72 0 := hat
    obtain ⟨length, directory, digest, hread, hlength⟩ :=
      (hf.of_occurs hP hat hl hend (Nat.le_refl _) hB (Nat.le_refl _)).footer ht
    have hlast : place + h.size payload.length = B.length :=
      (hat0.followed hP rfl hf hl hend (Nat.le_refl _) hB (Nat.le_refl _)).resolve_right hnone
    refine ⟨⟨length, directory, digest, hread, hlength.trans hlast⟩, ?_⟩
    intro place' h' payload' depth' hat'
    have hb := hat'.bounds
    have hge := h'.size_ge payload'.length
    have hng : h.type ≠ RecordType.group.code := by
      rw [ht]
      decide
    obtain hle | hge' := hat0.apart rfl hng hat' (Nat.le_refl _) hB (Nat.le_refl _)
    · exact hle
    · omega

/-! ### A file with a record behind its footer -/

/-- The file with a footer. -/
def closedFile : Bytes := byteFile ++ byteFooterHead.bytes byteFooter

/-- A record that is skipped. -/
def appendedHead : RecordHead := ⟨0x8000, 0, 3, 0, 3⟩

/-- The file with a record behind the footer. -/
def appendedFile : Bytes := closedFile ++ appendedHead.bytes []

/-- The stream's record. -/
def byteStreamHead : RecordHead := ⟨RecordType.streamDesc.code, 0, 3, 0, 0⟩

/-- Its payload. -/
def byteStreamPayload : Bytes := streamFixed ⟨1, 0, 2, 7, ⟨1, 1000⟩, []⟩ ++ [0]

/-- Where the packet and the footer are. -/
theorem closedFile_places :
    72 + byteStreamHead.size byteStreamPayload.length = 116 ∧
      116 + byteHead.size (bytePayload 42).length = 176 ∧
    176 + byteFooterHead.size byteFooter.length = 244 := by decide +kernel

/-- The footer of the closed file is its last record. -/
theorem closedFile_closes : FootersClose closedFile := by
  have hstream : Framed closedFile closedFile.length 72 byteStreamHead byteStreamPayload := by
    decide +kernel
  have hpacket : Framed closedFile closedFile.length 116 byteHead (bytePayload 42) := by
    decide +kernel
  have hfooter : Framed closedFile closedFile.length 176 byteFooterHead byteFooter := by
    decide +kernel
  have hend : closedFile.length = 244 := by decide +kernel
  have hmax : closedFile.length ≤ sizeMax := by decide +kernel
  obtain ⟨h116, h176, h244⟩ := closedFile_places
  refine (footersClose_iff closedFile hmax limitsDefault recorder [] (Stream'.const true)
    (by decide +kernel)).mpr ?_
  intro place h payload depth hat ht
  obtain ⟨rfl, rfl, rfl, rfl⟩ | hat := hat.leaf_cases hstream (by decide) (Nat.le_refl _) hmax
    (Nat.le_refl _)
  · cases ht
  rw [h116] at hat
  obtain ⟨rfl, rfl, rfl, rfl⟩ | hat := hat.leaf_cases hpacket (by decide) (Nat.le_refl _) hmax
    (by omega)
  · cases ht
  rw [h176] at hat
  obtain ⟨rfl, rfl, rfl, rfl⟩ | hat := hat.leaf_cases hfooter (by decide) (Nat.le_refl _) hmax
    (by omega)
  · refine ⟨rfl, ?_⟩
    rintro ⟨h', payload', hat'⟩
    have hb := hat'.bounds
    have hge := h'.size_ge payload'.length
    omega
  · have hb := hat.bounds
    have hge := h.size_ge payload.length
    omega

/-- The file with a record behind its footer is accepted. -/
theorem appendedFile_accepted :
    ¬ ∀ B, (parseTideBytes B true (some limitsDefault) recorder [] (Stream'.const true)).1 = .ok →
      FootersClose B := by
  have hstream : Framed appendedFile appendedFile.length 72 byteStreamHead byteStreamPayload := by
    decide +kernel
  have hpacket : Framed appendedFile appendedFile.length 116 byteHead (bytePayload 42) := by
    decide +kernel
  have hfooter : Framed appendedFile appendedFile.length 176 byteFooterHead byteFooter := by
    decide +kernel
  have happended : Framed appendedFile appendedFile.length 244 appendedHead [] := by decide +kernel
  obtain ⟨h116, h176, h244⟩ := closedFile_places
  have hbehind : ∀ {place h payload depth}, Occurs appendedFile place h payload depth
      appendedFile.length 176 0 → RecordAt appendedFile place h payload depth := by
    intro place h payload depth hat
    refine .next hstream ?_
    rw [h116]
    refine .next hpacket ?_
    rwa [h176]
  have hat : RecordAt appendedFile 244 appendedHead [] 0 := by
    refine hbehind (.next hfooter ?_)
    rw [h244]
    exact .here happended
  intro h
  have hle := (h appendedFile (by decide +kernel) 176 byteFooterHead byteFooter 0
    (hbehind (.here hfooter)) rfl).2 244 appendedHead [] 0 hat
  omega

end Tide
