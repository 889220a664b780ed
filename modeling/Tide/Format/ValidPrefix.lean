import Tide.Format.Truncation
import Tide.Format.Records

/-!
# The valid prefix

`valid_prefix` is to say how much of the input is complete. One pointer is handed down
into groups: the loop over the children of a group sets it too. So if a group is refused
behind its first child, what is reported ends within the group, and is no complete
prefix. This is the only way it goes wrong (`validPrefix_complete_iff`).
-/

namespace Tide

open Theory

variable {σ : Type}

/-- **A loop that sets the valid prefix**: it begins with a record that is well formed or cut
off, or with a group that is opened and whose own loop does. -/
inductive Moves (data : Bytes) (limits : Limits) :
    (size offset depth : ℕ) → List TrackSnapshot → Prop where
  | record {size offset depth : ℕ} {ts : List TrackSnapshot} {r : Forest} (hr : r.IsRecord)
      (hv : r.Valid limits (admits limits) depth (data.take offset) ts)
        (hl : Lies data offset r.bytes)
      (hle : offset + r.bytes.length ≤ size) : Moves data limits size offset depth ts
  | cut {size offset depth : ℕ} {ts : List TrackSnapshot} (hlt : offset < size)
      (hdec : decodeRecordPrefix data size offset (UInt8.ofNat depth) = .truncated) :
        Moves data limits size offset depth ts
  | inside {size offset depth : ℕ} {ts : List TrackSnapshot} {h : RecordHead} {m : GroupMeta}
      {children : Bytes}
      (ho : Opened data limits size offset depth h m children)
      (hin : Moves data limits (Forest.childOffset h children.length offset + children.length)
        (Forest.childOffset h children.length offset) (depth + 1) ts) :
          Moves data limits size offset depth ts

section

variable {I : σ → Prop} {data : Bytes} {size offset depth : ℕ} {p : Parsing σ}

/-- Where the valid prefix is when a loop has not returned `OK`: it stays, or is in the range. -/
theorem validPrefix_range (hle : offset ≤ size) (hsize : size ≤ data.length) (hmax : size ≤ sizeMax)
    (hc : p.Calm I) (hoff : 72 ≤ offset) {r : Status × Parsing σ}
    (hr : parseRecords data offset size (UInt8.ofNat depth) p = r) (hne : r.1 ≠ .ok) :
    r.2.validPrefix = p.validPrefix ∨ offset ≤ r.2.validPrefix ∧ r.2.validPrefix ≤ size := by
  obtain ⟨f, p', hpass, hends⟩ := parseRecords_decompose depth hle hsize hmax hc hoff
  rw [hr] at hends
  exact hpass.validPrefix_range hends hne

/-- **A loop that sets the valid prefix** and does not return `OK` leaves it in its range. -/
theorem Moves.range {limits : Limits} {ts : List TrackSnapshot}
    (h : Moves data limits size offset depth ts) (hlimits : p.limits = limits)
    (htracks : p.tracks = ts) (hsize : size ≤ data.length) (hmax : size ≤ sizeMax) (hc : p.Calm I)
    (hoff : 72 ≤ offset) {r : Status × Parsing σ}
    (hr : parseRecords data offset size (UInt8.ofNat depth) p = r) (hne : r.1 ≠ .ok) :
    offset ≤ r.2.validPrefix ∧ r.2.validPrefix ≤ size := by
  induction h generalizing p r with
  | record hrec hv hl hle =>
    obtain ⟨p', hfol, hvp, hloop⟩ := parseRecords_forest _ hsize hmax hc hoff
      (by rw [hlimits, htracks]; exact hv) hl hle
    rw [Forest.prefixAfter, if_neg (by cases hrec <;> simp)] at hvp
    rw [hloop] at hr
    rcases validPrefix_range hle hsize hmax (hfol.calm hc) (by omega) hr hne with heq | hin
    · omega
    · omega
  | cut hlt hdec =>
    have hstep := (recordStep_eq_more_iff (parseRecords data) data _ _ _ p).mpr hdec
    rw [parseRecords_eq data hmax, if_pos hlt, hstep] at hr
    subst hr
    exact ⟨Nat.le_refl _, Nat.le_of_lt hlt⟩
  | @inside size offset depth ts h m children ho hin ih =>
    have hle := ho.le
    have hinside := Forest.children_inside h children.length offset
    have hhead := ho.head
    have hadm := ho.admits
    rw [← hlimits] at hhead hadm
    have hfol := Parsing.follows_notify p (headEvent h (20 + children.length) offset depth)
    have hgroup := recordStep_group hsize hmax hc hoff hhead ho.type hadm ho.lies ho.le
    generalize hchildren : parseRecords data (Forest.childOffset h children.length offset)
      (Forest.childOffset h children.length offset + children.length) (UInt8.ofNat (depth + 1))
      (p.notify (headEvent h (20 + children.length) offset depth)).2 = rc at hgroup
    rw [parseRecords_eq data hmax, if_pos (by omega)] at hr
    by_cases hok : rc.1 = .ok
    · -- the group is passed over, and what is behind it is not accepted
      obtain hmore | ⟨r', hstop, hrej, -⟩ | ⟨record, p', hrec, hpass, hgo⟩ :=
        recordStep_round depth hsize hmax hc hoff
      · rcases rc with ⟨st, q⟩
        subst hok
        rw [hgroup] at hmore
        cases hmore
      · rcases rc with ⟨st, q⟩
        subst hok
        rw [hgroup] at hstop
        cases hstop
      · have hvp := hpass.validPrefix
        have hend := hpass.le
        rw [Forest.prefixAfter, if_neg (by cases hrec <;> simp)] at hvp
        rw [hgo] at hr
        rcases validPrefix_range hend hsize hmax (hpass.follows.calm hc)
          (by omega) hr hne with heq | hrange
        · omega
        · omega
    · have hclosed : (closeGroup (h.frameAt offset (20 + children.length) (UInt8.ofNat depth))
          rc).1 ≠ .ok :=
        fun h => hok (congrArg Prod.fst (closeGroup_eq_ok (Prod.ext h rfl)))
      rw [hgroup, closeRecord_of_ne hclosed] at hr
      obtain ⟨hlo, hhi⟩ := ih (p := (p.notify (headEvent h (20 + children.length) offset depth)).2)
        hlimits htracks (by omega) (by omega)
        (hfol.calm hc) (by omega) hchildren hok
      subst hr
      rw [closeGroup_validPrefix]
      omega

/-- **A loop that does not return `OK` and has changed the valid prefix** sets it. -/
theorem moves_of_ne (hle : offset ≤ size) (hsize : size ≤ data.length) (hmax : size ≤ sizeMax)
    (hc : p.Calm I) (hoff : 72 ≤ offset) {r : Status × Parsing σ}
    (hr : parseRecords data offset size (UInt8.ofNat depth) p = r) (hne : r.1 ≠ .ok)
    (hvp : r.2.validPrefix ≠ p.validPrefix) : Moves data p.limits size offset depth p.tracks := by
  induction hn : size - offset using Nat.strongRecOn generalizing size offset depth p r with
  | ind n ih =>
    subst hn
    by_cases hlt : offset < size
    swap
    · obtain rfl : offset = size := by omega
      rw [parseRecords_end data hmax] at hr
      exact absurd (congrArg Prod.fst hr).symm hne
    rw [parseRecords_eq data hmax, if_pos hlt] at hr
    obtain hmore | ⟨r', hstop, hrej, -⟩ | ⟨record, p', hrec, hpass, hgo⟩ :=
      recordStep_round depth hsize hmax hc hoff
    · exact .cut hlt ((recordStep_eq_more_iff ..).mp hmore)
    swap
    · exact .record hrec hpass.valid hpass.lies hpass.le
    rw [hstop] at hr
    obtain rfl : r' = r := hr
    obtain hmore | ⟨e, he, hfail⟩ | ⟨h, payload, hhead, hl, hend, -, hstep⟩ :=
      recordStep_cases (parseRecords data) (UInt8.ofNat depth) p hsize hmax
    · rw [hstop] at hmore
      cases hmore
    · rw [hstop] at hfail
      cases hfail
      exact absurd rfl hvp
    have hge := h.size_ge payload.length
    by_cases ht : h.type = RecordType.group.code
    swap
    · -- a leaf that is refused leaves the valid prefix as it is
      obtain ⟨-, p₁, hproc, -⟩ | ⟨-, href⟩ :=
        processRecord_leaf hc (parseRecords data) depth (by omega) (h.lies_payload hl) ht
      · rw [hstop, hproc] at hstep
        cases hstep
      · rw [hstop, closeRecord_of_ne href.ne_ok] at hstep
        cases hstep
        exact absurd href.validPrefix hvp
    obtain ⟨⟨m, children, rfl⟩, hadm, -⟩ | ⟨-, href⟩ :=
      processRecord_group hc (parseRecords data) (h.lies_payload hl) (by omega) ht
    swap
    · rw [hstop, closeRecord_of_ne href.ne_ok] at hstep
      cases hstep
      exact absurd href.validPrefix hvp
    rw [length_groupPayload] at hhead hend
    have hinside := Forest.children_inside h children.length offset
    have hfol := Parsing.follows_notify p (headEvent h (20 + children.length) offset depth)
    have hgroup := recordStep_group hsize hmax hc hoff hhead ht hadm hl hend
    generalize hchildren : parseRecords data (Forest.childOffset h children.length offset)
      (Forest.childOffset h children.length offset + children.length) (UInt8.ofNat (depth + 1))
      (p.notify (headEvent h (20 + children.length) offset depth)).2 = rc at hgroup
    have hok : rc.1 ≠ .ok := by
      intro hok
      rcases rc with ⟨st, q⟩
      subst hok
      rw [hgroup] at hstop
      cases hstop
    have hclosed : (closeGroup (h.frameAt offset (20 + children.length) (UInt8.ofNat depth)) rc).1 ≠
        .ok :=
      fun h => hok (congrArg Prod.fst (closeGroup_eq_ok (Prod.ext h rfl)))
    rw [hgroup, closeRecord_of_ne hclosed] at hstop
    cases hstop
    rw [closeGroup_validPrefix] at hvp
    exact .inside ⟨hhead, ht, hadm, hl, hend⟩ (ih children.length (by omega)
      (p := (p.notify (headEvent h (20 + children.length) offset depth)).2) (Nat.le_add_right ..)
        (by omega) (by omega) (hfol.calm hc)
      (by omega) hchildren hok hvp (by omega))

end

/-- **A group that is refused too late**: behind a valid header and well-formed records there is
no further one, but a group that is opened, and the loop over its children sets the valid
prefix. -/
def StopsInGroup (B : Bytes) (L : Limits) : Prop :=
  ∃ (hd : Header) (f : Forest) (h : RecordHead) (m : GroupMeta) (children : Bytes), hd.Valid L ∧
    f.Valid L (admits L) 0 hd.bytes [] ∧
    hd.bytes ++ f.bytes <+: B ∧ Opened B L B.length (72 + f.bytes.length) 0 h m children ∧
    (¬ ∃ r : Forest, r.IsRecord ∧ r.Valid L (admits L) 0 (B.take (72 + f.bytes.length)) f.tracks ∧
      Lies B (72 + f.bytes.length) r.bytes ∧ 72 + f.bytes.length + r.bytes.length ≤ B.length) ∧
    Moves B L (Forest.childOffset h children.length (72 + f.bytes.length) + children.length)
      (Forest.childOffset h children.length (72 + f.bytes.length)) 1 f.tracks

section

variable {I : σ → Prop} {B : Bytes} {L : Limits} {callbacks : Callbacks σ} {user : σ}

/-- A header and well-formed records are a complete prefix. -/
theorem parse_complete_prefix
    (hc : (Parsing.start (some L) callbacks user (Stream'.const true)).Calm I)
    (hB : B.length ≤ sizeMax) {hd : Header} {f : Forest} (hhd : hd.Valid L)
    (hf : f.Valid L (admits L) 0 hd.bytes []) (hpre : hd.bytes ++ f.bytes <+: B) :
    (parseTideBytes (B.take (72 + f.bytes.length)) true (some L) callbacks user
      (Stream'.const true)).1 = .ok ∧
      (parseTideBytes (B.take (72 + f.bytes.length)) true (some L) callbacks user
        (Stream'.const true)).2.validPrefix =
        72 + f.bytes.length := by
  have hlen : (hd.bytes ++ f.bytes).length = 72 + f.bytes.length := by
    rw [List.length_append, hd.length_bytes hhd.uuid_length]
  have htake : B.take (72 + f.bytes.length) = hd.bytes ++ f.bytes := by
    obtain ⟨rest, rfl⟩ := hpre
    rw [← hlen, List.take_left]
  have hle := hpre.length_le
  rw [htake]
  obtain ⟨p, hparse, -, hvp⟩ := parseTideBytes_file hc (hle.trans hB) ⟨hhd, hf, rfl⟩ true
  rw [hparse]
  exact ⟨rfl, hvp⟩

/-- **What is reported of a group that is refused too late** ends within it, and is not
complete. -/
theorem StopsInGroup.incomplete
    (hc : (Parsing.start (some L) callbacks user (Stream'.const true)).Calm I)
    (hB : B.length ≤ sizeMax) (h : StopsInGroup B L) {r : Status × Parsing σ}
    (hr : parseTideBytes B true (some L) callbacks user (Stream'.const true) = r) :
    r.2.validPrefix ≠ 0 ∧
      (parseTideBytes (B.take r.2.validPrefix) true (some L) callbacks user
        (Stream'.const true)).1 ≠ .ok := by
  obtain ⟨hd, f, h, m, children, hhd, hf, hpre, ho, hnone, hmoves⟩ := h
  obtain ⟨p, hfol, -, hparse⟩ := parseTideBytes_forest hc hB hhd hf hpre true
  have hcp := hfol.calm hc
  have hlimits : p.limits = L := hfol.limits
  have htracks : p.tracks = f.tracks := hfol.tracks
  have hle := ho.le
  have hinside := Forest.children_inside h children.length (72 + f.bytes.length)
  have hhead := ho.head
  have hadm := ho.admits
  rw [← hlimits] at hhead hadm
  have hgroup := recordStep_group (Nat.le_refl _) hB hcp (Nat.le_add_right 72 _) hhead ho.type
    hadm ho.lies hle
  have hfoln := Parsing.follows_notify p (headEvent h (20 + children.length)
    (72 + f.bytes.length) 0)
  generalize hchildren : parseRecords B (Forest.childOffset h children.length (72 + f.bytes.length))
    (Forest.childOffset h children.length (72 + f.bytes.length) + children.length)
      (UInt8.ofNat (0 + 1))
    (p.notify (headEvent h (20 + children.length) (72 + f.bytes.length) 0)).2 = rc at hgroup
  -- the children are not accepted, for else the group were a record
  have hok : rc.1 ≠ .ok := by
    intro hok
    rcases rc with ⟨st, q⟩
    subst hok
    obtain hmore | ⟨r', hstop, -⟩ | ⟨record, p', hrec, hpass, -⟩ :=
      recordStep_round 0 (Nat.le_refl _) hB hcp (Nat.le_add_right 72 _)
    · rw [hgroup] at hmore
      cases hmore
    · rw [hgroup] at hstop
      cases hstop
    · have hv := hpass.valid
      rw [hlimits, htracks] at hv
      exact hnone ⟨record, hrec, hv, hpass.lies, hpass.le⟩
  have hclosed : (closeGroup (h.frameAt (72 + f.bytes.length) (20 + children.length)
      (UInt8.ofNat 0)) rc).1 ≠ .ok :=
    fun h => hok (congrArg Prod.fst (closeGroup_eq_ok (Prod.ext h rfl)))
  obtain ⟨hlo, hhi⟩ :=
    hmoves.range (p := (p.notify (headEvent h (20 + children.length) (72 + f.bytes.length) 0)).2)
      hlimits htracks
    (by omega) (by omega) (hfoln.calm hcp) (by omega) hchildren hok
  have hv : r.2.validPrefix = rc.2.validPrefix := by
    rw [parseRecords_eq B hB, if_pos (by omega), show (0 : UInt8) = UInt8.ofNat 0 from rfl, hgroup,
      closeRecord_of_ne hclosed] at hparse
    rw [← hr, hparse]
    exact closeGroup_validPrefix ..
  rw [hv]
  refine ⟨by omega, ?_⟩
  -- the bytes that are reported end within the group
  have hpre' : hd.bytes ++ f.bytes <+: B.take rc.2.validPrefix := by
    refine List.prefix_take_iff.mpr ⟨hpre, ?_⟩
    rw [List.length_append, hd.length_bytes hhd.uuid_length]
    omega
  have hlen : (B.take rc.2.validPrefix).length = rc.2.validPrefix :=
    List.length_take_of_le (by omega)
  obtain ⟨p', -, -, hparse'⟩ := parseTideBytes_forest hc (by omega) hhd hf hpre' true
  rw [hlen, parseRecords_within 0 hB (Nat.le_add_right 72 _) ho.head.alignment ho.lies (by omega)
    (by rw [length_groupPayload]; omega) (by omega)] at hparse'
  rw [hparse']
  nofun

/-- **When the valid prefix is complete**: if and only if no group is refused too late. -/
theorem validPrefix_complete_iff (B : Bytes) (hB : B.length ≤ sizeMax) (L : Limits)
    {callbacks : Callbacks σ} (hcb : ∀ user event, (callbacks.call user event).1 = .ok) (user : σ) :
    let r := parseTideBytes B true (some L) callbacks user (Stream'.const true)
    let again :=
      parseTideBytes (B.take r.2.validPrefix) true (some L) callbacks user (Stream'.const true)
    (r.2.validPrefix = 0 ∨ again.1 = .ok ∧ again.2.validPrefix = r.2.validPrefix) ↔
      ¬ StopsInGroup B L := by
  intro r again
  have hc : (Parsing.start (some L) callbacks user (Stream'.const true)).Calm fun _ => True :=
    ⟨fun u e _ => ⟨hcb u e, trivial⟩, trivial, rfl⟩
  constructor
  · intro hcomplete hstops
    obtain ⟨hzero, hne⟩ := hstops.incomplete hc hB (r := r) rfl
    rcases hcomplete with h0 | ⟨hok, -⟩
    · exact hzero h0
    · exact hne hok
  intro hno
  obtain ⟨e, -, hparse⟩ | ⟨hd, f, p, r', hhd, hf, hpre, hfol, hvp, hends, hparse⟩ :=
    parseTideBytes_cases hc hB true
  · refine .inl ?_
    change (parseTideBytes B true (some L) callbacks user (Stream'.const true)).2.validPrefix = 0
    rw [hparse]
    rfl
  have hr : r.2.validPrefix = r'.2.validPrefix := by
    change (parseTideBytes B true (some L) callbacks user (Stream'.const true)).2.validPrefix = _
    rw [hparse]
  -- the valid prefix is where the loop has stopped at the top level
  have hstays : r.2.validPrefix = 72 + f.bytes.length := by
    rw [hr]
    cases hends with
    | done => exact hvp
    | more => rfl
    | refused hlt hstep hrej =>
      by_contra hne
      rw [← hvp] at hne
      have hloop : parseRecords B (72 + f.bytes.length) B.length (UInt8.ofNat 0) p = r' := by
        rw [parseRecords_eq B hB, if_pos hlt, show UInt8.ofNat 0 = 0 from rfl, hstep]
      have hmoves := moves_of_ne (Nat.le_of_lt hlt) (Nat.le_refl _) hB (hfol.calm hc)
        (Nat.le_add_right 72 _) hloop hrej.1 hne
      have hlimits : p.limits = L := hfol.limits
      have htracks : p.tracks = f.tracks := hfol.tracks
      rw [hlimits, htracks] at hmoves
      have hnone : ¬ ∃ r : Forest, r.IsRecord ∧
          r.Valid L (admits L) 0 (B.take (72 + f.bytes.length)) f.tracks ∧
            Lies B (72 + f.bytes.length) r.bytes ∧
              72 + f.bytes.length + r.bytes.length ≤ B.length := by
        rintro ⟨record, hrec, hv, hl, hle⟩
        rw [← hlimits, ← htracks] at hv
        obtain ⟨p', -, hgo⟩ := recordStep_record hrec (Nat.le_refl _) hB (hfol.calm hc)
          (Nat.le_add_right 72 _) hv hl hle
        rw [show UInt8.ofNat 0 = 0 from rfl, hstep] at hgo
        cases hgo
      cases hmoves with
      | record hrec hv hl hle => exact hnone ⟨_, hrec, hv, hl, hle⟩
      | cut _ hdec =>
        rw [show UInt8.ofNat 0 = 0 from rfl, ← recordStep_eq_more_iff (parseRecords B) B _ _ _ p,
          hstep] at hdec
        cases hdec
      | inside ho hin => exact hno ⟨hd, f, _, _, _, hhd, hf, hpre, ho, hnone, hin⟩
  rw [hstays]
  right
  have hagain := parse_complete_prefix hc hB hhd hf hpre
  rw [← hstays] at hagain
  exact ⟨hagain.1, hagain.2.trans hstays⟩

end

/-- In the sample file no group is refused. -/
theorem sampleFile_complete : ¬ StopsInGroup sampleFile limitsDefault := by
  have hcb : ∀ user event, (recorder.call user event).1 = .ok := fun user event =>
    by cases event <;> rfl
  exact (validPrefix_complete_iff sampleFile (by decide +kernel) limitsDefault hcb []).mp
    (.inr (by decide +kernel))

/-- A group of a record that is skipped and one of a type that is not known. -/
def brokenGroup : Forest :=
  .group ⟨RecordType.group.code, 0, 3, 0, 0⟩ ⟨1, 0,
    0⟩ (.leaf ⟨0x8000, 0, 3, 0, 1⟩ [] (.leaf ⟨0x7000, 0, 3, 0, 2⟩ [] .nil)) .nil

/-- What is reported of a file with that group ends behind the first child. -/
theorem brokenGroup_incomplete :
    ¬ ∀ (B : Bytes) (L : Limits),
      let r := parseTideBytes B true (some L) recorder [] (Stream'.const true)
      let again :=
        parseTideBytes (B.take r.2.validPrefix) true (some L) recorder [] (Stream'.const true)
      r.2.validPrefix = 0 ∨ again.1 = .ok ∧ again.2.validPrefix = r.2.validPrefix := by
  intro h
  have hne : ¬ ((parseTideBytes (sampleHeader.bytes ++ brokenGroup.bytes) true (some limitsDefault)
      recorder [] (Stream'.const true)).2.validPrefix = 0) := by decide +kernel
  have hpart : (parseTideBytes ((sampleHeader.bytes ++ brokenGroup.bytes).take
      (parseTideBytes (sampleHeader.bytes ++ brokenGroup.bytes) true (some limitsDefault) recorder
        [] (Stream'.const true)).2.validPrefix) true (some limitsDefault) recorder []
          (Stream'.const true)).1 = .partialTail := by decide +kernel
  obtain h0 | ⟨hok, -⟩ := h (sampleHeader.bytes ++ brokenGroup.bytes) limitsDefault
  · exact hne h0
  · rw [hpart] at hok
    cases hok

end Tide
