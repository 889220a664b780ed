import Tide.Format.Storage
import Tide.Mux.Output
import Tide.Theory.Simulation

/-!
# A mux and the memory

`src/mux/mux.c` once more, with the blocks of memory that it allocates and frees, that of the mux
itself, that of its buffer, and those of the buffers for the payloads and the footer, which are
gone when a call returns; and with the file that it holds open. A block or a file that is given
back twice, or used when it is not there, is a fault.

* `Muxing.Owns` is what the calls keep, whichever allocations succeed (`Muxing.Owns.call`), and what
  closing and aborting give back (`Muxing.Owns.close`, `Muxing.Owns.abort`).
* `muxSession_owns`: in any session with a mux there is no fault, and when the mux is gone nothing
  is left, and its file is closed.
* `muxSession_answers`: apart from the memory it is the mux of `Tide.Mux`.
-/

namespace Tide

open Theory

/-! ### `mux.c` -/

/-- `struct tide_mux`, with its own block, its file and the block of its buffer. -/
structure HeldMux where
  self : ℕ
  file : ℕ
  block : Option ℕ
  mux : Mux

/-- A mux and the memory. -/
structure Muxing where
  held : HeldMux
  blocks : Blocks

/-- The buffer of a mux. -/
def Muxing.out (u : Muxing) : HeldBuffer := ⟨u.held.mux.buffer, u.held.block, u.blocks⟩

/-- The mux with another buffer. -/
def Muxing.setOut (u : Muxing) (out : HeldBuffer) : Muxing where
  held := { u.held with block := out.block, mux := { u.held.mux with buffer := out.buffer } }
  blocks := out.blocks

/-- The empty buffer that a call uses for itself. -/
def Muxing.scratch (u : Muxing) : HeldBuffer :=
  ⟨Buffer.empty u.held.mux.limits.maxSingleAlloc.toNat u.held.mux.scratch.head, none, u.blocks⟩

/-- The next call uses another one. -/
def Muxing.nextScratch (u : Muxing) (blocks : Blocks) : Muxing where
  held := { u.held with mux := { u.held.mux with scratch := u.held.mux.scratch.tail } }
  blocks := blocks

/-- The next sequence number. -/
def Muxing.nextSequence (u : Muxing) : Muxing :=
  { u with held := { u.held with mux := { u.held.mux with sequence := u.held.mux.sequence + 1 } } }

/-- Setting the error if the status is not `OK`. -/
def Muxing.report (message : String) (r : Status × Muxing) : Status × Muxing :=
  (r.1, { r.2 with held := { r.2.held with mux := (Mux.report message (r.1, r.2.held.mux)).2 } })

/-- Writing the record of an encoded payload, which is there until it is written. -/
def Muxing.writeEncoded (u : Muxing) (type : RecordType) : Status × HeldBuffer → Status × Muxing
  | (.ok, payload) =>
    let written := writeRecordOn heldBuffers { u.out with blocks := payload.read.blocks } type.code
      0 3 u.held.mux.sequence payload.buffer.data
    (written.1, (u.setOut written.2).nextSequence)
  | (status, payload) => (status, { u with blocks := payload.blocks })

/-- The body of `tide_mux_add_stream` and of `tide_mux_write_packet`. The buffer of the payload is
destroyed at the end. -/
def Muxing.writePayload (u : Muxing) (type : RecordType) (message : String)
    (encode : HeldBuffer → Status × HeldBuffer) : Status × Muxing :=
  let u := { u with blocks := u.blocks.touch (some u.held.self) }
  if u.held.mux.closed then (.invalidArgument, u)
  else
    let payload := encode u.scratch
    let written := (u.nextScratch u.blocks).writeEncoded type payload
    Muxing.report message (written.1,
      { written.2 with blocks := written.2.blocks.free payload.2.block })

/-- `tide_mux_add_stream` or `tide_mux_write_packet`. -/
def Muxing.call (u : Muxing) : Content → Status × Muxing
  | .stream s => u.writePayload .streamDesc "failed to write stream"
      (encodeStreamPayloadOn heldBuffers · s)
  | .packet p =>
      u.writePayload .packet "failed to write packet" (encodePacketPayloadOn heldBuffers · p)

/-- The second pass of `tide_mux_append_footer`. -/
def Muxing.writeFooter (u : Muxing) (payload : Bytes) : Status × Muxing :=
  let record :=
    writeRecordOn heldBuffers u.scratch RecordType.footer.code 0 3 u.held.mux.sequence payload
  let u := (u.nextScratch record.2.blocks).nextSequence
  if record.1 ≠ .ok then (record.1, { u with blocks := record.2.destroy })
  else
    let appended := heldAppend { u.out with blocks := record.2.read.blocks } record.2.buffer.data
    (appended.1, u.setOut { appended.2 with blocks := appended.2.blocks.free record.2.block })

/-- `tide_mux_append_footer`. The digest reads the buffer. -/
def heldAppendFooter (u : Muxing) : Status × Muxing :=
  let measured := writeRecordOn heldBuffers u.scratch RecordType.footer.code 0 3 u.held.mux.sequence
    (List.replicate 49 0)
  let u := u.nextScratch measured.2.destroy
  if measured.1 ≠ .ok then (measured.1, u)
  else
    (u.setOut u.out.read).writeFooter
      (footerPayload u.held.mux.buffer.data measured.2.buffer.data.length)

/-- The footer, if one is asked for. -/
def Muxing.finish (u : Muxing) : Status × Muxing :=
  if !u.held.mux.closed && u.held.mux.writeFooter then heldAppendFooter u else (.ok, u)

/-- Closing the file, destroying the buffer and freeing the mux: `tide_mux_abort`, and the end of
`tide_mux_close`. -/
def Muxing.abort (u : Muxing) (files : Blocks) : Blocks × Blocks :=
  ((u.blocks.touch (some u.held.self)).free u.held.block |>.free (some u.held.self),
    files.free (some u.held.file))

/-- `tide_mux_close`: the status, the bytes that are handed to `fwrite`, if any, and the blocks
and files then. -/
def heldMuxClose (u : Muxing) (files : Blocks) (written flushed : Bool) :
    (Status × Option Bytes) × Blocks × Blocks :=
  let u := { u with blocks := u.blocks.touch (some u.held.self) }
  match u.finish with
  | (.ok, u) =>
    let status : Status := if written then .ok else .io
    let u := u.setOut u.out.read
    ((if !flushed && status = .ok then .io else status, some u.held.mux.buffer.data),
      u.abort (files.touch (some u.held.file)))
  | (status, u) => ((status, none), u.abort files)

/-- What `tide_mux_create` returns, with the memory and the files. -/
structure HeldCreate where
  status : Status
  mux : Option HeldMux
  blocks : Blocks
  files : Blocks

/-- `tide_mux_create`; `room` is the outcome of the allocation of the mux itself, and `opened`
that of `fopen`. A mux that is not handed out is aborted. -/
def heldMuxCreate (options : Option MuxOptions) (room opened : Bool) (allocs : Stream' Bool)
    (scratch : Stream' (Stream' Bool)) (blocks files : Blocks) : HeldCreate :=
  let limits := muxLimits options
  let movieTimeBase := muxTimeBase options
  match blocks.malloc room with
  | (none, blocks) => ⟨.resource, none, blocks, files⟩
  | (some self, blocks) =>
    match files.malloc opened with
    | (none, files) => ⟨.io, none, blocks.free (some self), files⟩
    | (some file, files) =>
      let header := writeHeaderOn heldBuffers ⟨Buffer.empty limits.maxAggregateAlloc.toNat allocs,
        none, blocks⟩ movieTimeBase muxUuid
      let mux : Mux :=
        { buffer := header.2.buffer, limits := limits, movieTimeBase := movieTimeBase,
          sequence := 0, closed := false, writeFooter := muxWriteFooter options, error :=
            errorClear, scratch := scratch }
      let u : Muxing := ⟨⟨self, file, header.2.block, mux⟩, header.2.blocks⟩
      if header.1 = .ok then ⟨.ok, some u.held, u.blocks, files⟩
      else ⟨header.1, none, (u.abort files).1, (u.abort files).2⟩

/-! ### What a mux owns -/

/-- The blocks of a mux. -/
def HeldMux.owned (held : HeldMux) : Multiset ℕ := held.self ::ₘ (held.block.toList : Multiset ℕ)

/-- **What a mux owns**: its block and that of its buffer, beside those of `rest`. -/
structure Muxing.Owns (u : Muxing) (rest : Multiset ℕ) : Prop where
  blocks : u.blocks.Owned (u.held.owned + rest)
  backed : u.held.mux.buffer.capacity ≠ 0 → ∃ p, u.held.block = some p
  room : u.held.mux.buffer.data.length ≤ u.held.mux.buffer.capacity

section

variable {u : Muxing} {rest : Multiset ℕ}

/-- A mux owns what its buffer does, and its own block. -/
theorem Muxing.owns_iff (u : Muxing) (rest : Multiset ℕ) :
    u.Owns rest ↔ u.out.Owns (u.held.self ::ₘ rest) := by
  have hblocks : u.held.owned + rest = (u.held.block.toList : Multiset ℕ) + u.held.self ::ₘ
      rest := by
    simp only [HeldMux.owned, ← Multiset.singleton_add]
    abel
  constructor
  · rintro ⟨h, hbacked, hroom⟩
    exact ⟨h.congr hblocks, hbacked, hroom⟩
  · rintro ⟨h, hbacked, hroom⟩
    exact ⟨h.congr hblocks.symm, hbacked, hroom⟩

/-- What happens to other blocks does not concern the mux. -/
theorem Muxing.Owns.frame (h : u.Owns rest) {blocks : Blocks} {rest' : Multiset ℕ}
    (hblocks : blocks.Owned (u.held.owned + rest')) :
    Muxing.Owns { u with blocks := blocks } rest' :=
  ⟨hblocks, h.backed, h.room⟩

theorem Muxing.Owns.touch (h : u.Owns rest) : u.blocks.touch (some u.held.self) = u.blocks :=
  h.blocks.touch (by simp [HeldMux.owned])

theorem Muxing.Owns.touched (h : u.Owns rest) :
    ({ u with blocks := u.blocks.touch (some u.held.self) } : Muxing) = u := by
  rw [h.touch]

/-- A buffer that a call uses for itself. -/
theorem Muxing.Owns.scratch (h : u.Owns rest) :
    u.scratch.Owns (u.held.owned + rest) := HeldBuffer.owns_empty h.blocks ..

/-- Writing the record of a payload keeps what is owned, and the payload. -/
theorem Muxing.Owns.writeEncoded (h : u.Owns rest) {payload : Status × HeldBuffer}
    (hpayload : payload.2.Owns (u.held.owned + rest)) (type : RecordType) :
    (u.writeEncoded type payload).2.Owns ((payload.2.block.toList : Multiset ℕ) + rest) := by
  obtain ⟨status, payload⟩ := payload
  replace hpayload : payload.Owns (u.held.owned + rest) := hpayload
  have hframe : Muxing.Owns { u with blocks := payload.blocks }
      ((payload.block.toList : Multiset ℕ) + rest) :=
    h.frame (hpayload.blocks.congr (by abel))
  by_cases hok : status = .ok
  · subst hok
    unfold Muxing.writeEncoded
    dsimp only
    rw [hpayload.read]
    exact (Muxing.owns_iff _ _).mpr (writeRecordOn_keeps (heldBuffers_keeps _)
      ((Muxing.owns_iff _ _).mp hframe) ..)
  · cases status <;> first | exact absurd rfl hok | exact hframe

theorem Muxing.Owns.report {r : Status × Muxing} (h : r.2.Owns rest) (message : String) :
    (Muxing.report message r).2.Owns rest := by
  obtain ⟨status, u⟩ := r
  cases status <;> exact ⟨h.blocks, h.backed, h.room⟩

/-- The buffer of a call that is destroyed. -/
theorem Muxing.Owns.free {block : Option ℕ} (h : u.Owns ((block.toList : Multiset ℕ) + rest)) :
    Muxing.Owns { u with blocks := u.blocks.free block } rest :=
  h.frame (Blocks.Owned.free (h.blocks.congr (by abel)))

/-- **A call keeps what is owned.** -/
theorem Muxing.Owns.writePayload (h : u.Owns rest) (type : RecordType) (message : String)
    {encode : HeldBuffer → Status × HeldBuffer}
    (hencode : ∀ b rest, b.Owns rest → (encode b).2.Owns rest) :
    (u.writePayload type message encode).2.Owns rest := by
  unfold Muxing.writePayload
  rw [h.touched]
  dsimp only
  split_ifs
  · exact h
  · have hnext : (u.nextScratch u.blocks).Owns rest := ⟨h.blocks, h.backed, h.room⟩
    exact (hnext.writeEncoded (hencode _ _ h.scratch) type).free.report message

theorem Muxing.Owns.call (h : u.Owns rest) (c : Content) : (u.call c).2.Owns rest := by
  cases c with
  | stream s =>
      exact h.writePayload _ _ fun b rest hb =>
        encodeStreamPayloadOn_keeps (heldBuffers_keeps rest) hb s
  | packet p =>
      exact h.writePayload _ _ fun b rest hb =>
        encodePacketPayloadOn_keeps (heldBuffers_keeps rest) hb p

theorem Muxing.Owns.writeFooter (h : u.Owns rest) (payload : Bytes) :
    (u.writeFooter payload).2.Owns rest := by
  have hwritten := writeRecordOn_keeps (heldBuffers_keeps _) h.scratch RecordType.footer.code 0 3
    u.held.mux.sequence payload
  unfold Muxing.writeFooter
  generalize writeRecordOn heldBuffers u.scratch RecordType.footer.code 0 3 u.held.mux.sequence
    payload = record at hwritten
  dsimp only
  split_ifs
  · exact ⟨hwritten.destroy, h.backed, h.room⟩
  · rw [hwritten.read]
    have hframe : Muxing.Owns { u with blocks := record.2.blocks }
        ((record.2.block.toList : Multiset ℕ) + rest) :=
      h.frame (hwritten.blocks.congr (by abel))
    have happended := ((Muxing.owns_iff _ _).mp hframe).append record.2.buffer.data
    exact Muxing.Owns.free
      ((Muxing.owns_iff (((u.nextScratch record.2.blocks).nextSequence).setOut _) _).mpr happended)

/-- **The footer** keeps what is owned, wherever it fails. -/
theorem Muxing.Owns.appendFooter (h : u.Owns rest) : (heldAppendFooter u).2.Owns rest := by
  have hmeasured := writeRecordOn_keeps (heldBuffers_keeps _) h.scratch RecordType.footer.code 0 3
    u.held.mux.sequence (List.replicate 49 0)
  unfold heldAppendFooter
  generalize writeRecordOn heldBuffers u.scratch RecordType.footer.code 0 3 u.held.mux.sequence
    (List.replicate 49 0) = measured at hmeasured
  dsimp only
  have hnext : (u.nextScratch measured.2.destroy).Owns rest := ⟨hmeasured.destroy, h.backed, h.room⟩
  split_ifs
  · exact hnext
  · rw [((Muxing.owns_iff _ _).mp hnext).read]
    exact hnext.writeFooter _

theorem Muxing.Owns.finish (h : u.Owns rest) : u.finish.2.Owns rest := by
  unfold Muxing.finish
  split_ifs
  · exact h.appendFooter
  · exact h

/-- **Aborting gives back all that is owned**, and the file. -/
theorem Muxing.Owns.abort (h : u.Owns rest) {files : Blocks} {others : Multiset ℕ}
    (hfiles : files.Owned (u.held.file ::ₘ others)) :
    (u.abort files).1.Owned rest ∧ (u.abort files).2.Owned others := by
  unfold Muxing.abort
  rw [h.touch]
  have hblocks : (u.blocks.free u.held.block).Owned (u.held.self ::ₘ rest) := by
    refine Blocks.Owned.free (h.blocks.congr ?_)
    simp only [HeldMux.owned, ← Multiset.singleton_add]
    abel
  exact ⟨hblocks.free_cons, hfiles.free_cons⟩

/-! ### Its file -/

/-- Writing the record of a payload leaves the file alone. -/
theorem Muxing.writeEncoded_file (u : Muxing) (type : RecordType) (payload : Status × HeldBuffer) :
    (u.writeEncoded type payload).2.held.file = u.held.file := by
  obtain ⟨status, payload⟩ := payload
  cases status <;> rfl

theorem Muxing.writePayload_file (u : Muxing) (type : RecordType) (message : String)
    (encode : HeldBuffer → Status × HeldBuffer) :
    (u.writePayload type message encode).2.held.file = u.held.file := by
  unfold Muxing.writePayload
  dsimp only
  split_ifs
  · rfl
  · exact Muxing.writeEncoded_file ..

theorem Muxing.call_file (u : Muxing) (c : Content) : (u.call c).2.held.file = u.held.file := by
  cases c <;> exact Muxing.writePayload_file ..

theorem Muxing.finish_file (u : Muxing) : u.finish.2.held.file = u.held.file := by
  unfold Muxing.finish heldAppendFooter Muxing.writeFooter
  dsimp only
  split_ifs <;> rfl

/-- **Closing gives back all that is owned**, and the file, whatever becomes of the footer and of
the writing. -/
theorem Muxing.Owns.close (h : u.Owns rest) {files : Blocks} {others : Multiset ℕ}
    (hfiles : files.Owned (u.held.file ::ₘ others)) (written flushed : Bool) :
    (heldMuxClose u files written flushed).2.1.Owned rest ∧
      (heldMuxClose u files written flushed).2.2.Owned others := by
  have hfinish := h.finish
  have hfile := u.finish_file
  unfold heldMuxClose
  rw [h.touched]
  dsimp only
  generalize u.finish = r at hfinish hfile
  obtain ⟨status, finished⟩ := r
  replace hfinish : finished.Owns rest := hfinish
  replace hfile : finished.held.file = u.held.file := hfile
  rw [← hfile] at hfiles
  by_cases hok : status = .ok
  · subst hok
    dsimp only
    rw [((Muxing.owns_iff _ _).mp hfinish).read, show finished.setOut finished.out = finished
      from rfl, hfiles.touch (Multiset.mem_cons_self ..)]
    exact hfinish.abort hfiles
  · cases status <;> first | exact absurd rfl hok | exact hfinish.abort hfiles

end

/-- **Creating** leaves a mux that owns its blocks and its file, or nothing. -/
theorem heldMuxCreate_owns {blocks files : Blocks} {rest others : Multiset ℕ}
    (hblocks : blocks.Owned rest) (hfiles : files.Owned others) (options : Option MuxOptions)
    (room opened : Bool) (allocs : Stream' Bool) (scratch : Stream' (Stream' Bool)) :
    let r := heldMuxCreate options room opened allocs scratch blocks files
    match r.mux with
    | some held => Muxing.Owns ⟨held, r.blocks⟩ rest ∧ r.files.Owned (held.file ::ₘ others)
    | none => r.blocks.Owned rest ∧ r.files.Owned others := by
  unfold heldMuxCreate
  obtain ⟨hnone, -⟩ | ⟨self, blocks', hmalloc, howned, -⟩ := hblocks.malloc room
  · rw [hnone]
    exact ⟨hblocks, hfiles⟩
  rw [hmalloc]
  dsimp only
  obtain ⟨hnone, -⟩ | ⟨file, files', hfopen, hopened, -⟩ := hfiles.malloc opened
  · rw [hnone]
    exact ⟨Blocks.Owned.free_cons howned, hfiles⟩
  rw [hfopen]
  dsimp only
  have hheader := writeHeaderOn_keeps (heldBuffers_keeps _)
    (HeldBuffer.owns_empty howned (muxLimits options).maxAggregateAlloc.toNat allocs)
      (muxTimeBase options) muxUuid
  generalize writeHeaderOn heldBuffers ⟨Buffer.empty (muxLimits options).maxAggregateAlloc.toNat
    allocs, none, blocks'⟩
    (muxTimeBase options) muxUuid = header at hheader
  have hmux : Muxing.Owns ⟨⟨self, file, header.2.block,
      { buffer := header.2.buffer, limits := muxLimits options,
        movieTimeBase := muxTimeBase options, sequence := 0, closed := false, writeFooter :=
          muxWriteFooter options, error := errorClear, scratch := scratch }⟩,
            header.2.blocks⟩ rest :=
    (Muxing.owns_iff _ _).mpr hheader
  split_ifs
  · exact ⟨hmux, hopened⟩
  · exact hmux.abort hopened

/-! ### Apart from the memory -/

/-- A mux apart from the memory. -/
def Muxing.plain (u : Muxing) : Mux := u.held.mux

theorem Muxing.writeEncoded_shows (u : Muxing) (type : RecordType) (payload : Status × HeldBuffer) :
    Prod.map id Muxing.plain (u.writeEncoded type payload) = Mux.writeEncoded u.held.mux type
      (Prod.map id HeldBuffer.buffer payload) := by
  obtain ⟨status, payload⟩ := payload
  by_cases hok : status = .ok
  · subst hok
    have hwritten := writeRecordOn_shows heldBuffers_shows
      { u.out with blocks := payload.read.blocks } type.code 0 3
      u.held.mux.sequence payload.buffer.data
    rw [show Mux.writeEncoded u.held.mux type (Prod.map id HeldBuffer.buffer (.ok, payload)) =
      Mux.writeEncoded u.held.mux type (.ok, payload.buffer) from rfl]
    unfold Muxing.writeEncoded Mux.writeEncoded
    dsimp only
    rw [show writeRecord u.held.mux.buffer type.code 0 3 u.held.mux.sequence payload.buffer.data =
      _ from hwritten.symm]
    generalize writeRecordOn heldBuffers { u.out with blocks := payload.read.blocks } type.code 0 3
      u.held.mux.sequence payload.buffer.data =
      written
    rfl
  · cases status <;> first | exact absurd rfl hok | rfl

theorem Muxing.report_shows (message : String) (r : Status × Muxing) :
    Prod.map id Muxing.plain (Muxing.report message r) = Mux.report message
      (Prod.map id Muxing.plain r) := by
  obtain ⟨status, u⟩ := r
  cases status <;> rfl

/-- **A call** does to the mux what it does apart from the memory. -/
theorem Muxing.writePayload_shows (u : Muxing) (type : RecordType) (message : String)
    (encodeOn : HeldBuffer → Status × HeldBuffer) (encode : Buffer → Status × Buffer)
    (hencode : ∀ b, Prod.map id HeldBuffer.buffer (encodeOn b) = encode b.buffer) :
    Prod.map id Muxing.plain (u.writePayload type message encodeOn) =
      u.held.mux.writePayload type message encode := by
  unfold Muxing.writePayload Mux.writePayload
  dsimp only
  by_cases hclosed : u.held.mux.closed = true
  · rw [if_pos hclosed, if_pos hclosed]
    rfl
  rw [if_neg hclosed, if_neg hclosed, Muxing.report_shows]
  apply congrArg (Mux.report message)
  refine (Muxing.writeEncoded_shows _ type _).trans ?_
  rw [hencode]
  rfl

theorem Muxing.call_shows (u : Muxing) (c : Content) :
    Prod.map id Muxing.plain (u.call c) = u.held.mux.call c := by
  cases c with
  | stream s =>
      exact u.writePayload_shows _ _ _ (encodeStreamPayload · s) fun b =>
        encodeStreamPayloadOn_shows heldBuffers_shows s
  | packet p =>
      exact u.writePayload_shows _ _ _ (encodePacketPayload · p) fun b =>
        encodePacketPayloadOn_shows heldBuffers_shows p

theorem Muxing.writeFooter_shows (u : Muxing) (payload : Bytes) :
    Prod.map id Muxing.plain (u.writeFooter payload) =
      let record := writeRecord (Buffer.empty u.held.mux.limits.maxSingleAlloc.toNat
        u.held.mux.scratch.head) RecordType.footer.code 0 3
        u.held.mux.sequence payload
      let mux := { u.held.mux with scratch := u.held.mux.scratch.tail,
                                   sequence := u.held.mux.sequence + 1 }
      if record.1 ≠ .ok then (record.1, mux)
      else
        let appended := bufferAppend mux.buffer record.2.data
        (appended.1, { mux with buffer := appended.2 }) := by
  have hrecord := writeRecordOn_shows heldBuffers_shows u.scratch RecordType.footer.code 0 3
    u.held.mux.sequence payload
  unfold Muxing.writeFooter
  dsimp only
  rw [show writeRecord (Buffer.empty u.held.mux.limits.maxSingleAlloc.toNat u.held.mux.scratch.head)
    RecordType.footer.code 0 3
    u.held.mux.sequence payload = _ from hrecord.symm]
  generalize writeRecordOn heldBuffers u.scratch RecordType.footer.code 0 3 u.held.mux.sequence
    payload = record
  simp only [Prod.map_fst, Prod.map_snd, id_eq]
  by_cases hfailed : record.1 ≠ .ok
  · rw [if_pos hfailed, if_pos hfailed]
    rfl
  rw [if_neg hfailed, if_neg hfailed]
  have happended := heldAppend_shows { u.out with blocks := record.2.read.blocks }
    record.2.buffer.data
  rw [show bufferAppend u.held.mux.buffer record.2.buffer.data = _ from happended.symm]
  rfl

theorem heldAppendFooter_shows (u : Muxing) :
    Prod.map id Muxing.plain (heldAppendFooter u) = muxAppendFooter u.held.mux := by
  have hmeasured := writeRecordOn_shows heldBuffers_shows u.scratch RecordType.footer.code 0 3
    u.held.mux.sequence (List.replicate 49 0)
  unfold heldAppendFooter muxAppendFooter
  dsimp only
  rw [show writeRecord (Buffer.empty u.held.mux.limits.maxSingleAlloc.toNat u.held.mux.scratch.head)
    RecordType.footer.code 0 3
    u.held.mux.sequence (List.replicate 49 0) = _ from hmeasured.symm]
  generalize writeRecordOn heldBuffers u.scratch RecordType.footer.code 0 3 u.held.mux.sequence
    (List.replicate 49 0) = measured
  simp only [Prod.map_fst, Prod.map_snd, id_eq]
  by_cases hfailed : measured.1 ≠ .ok
  · rw [if_pos hfailed, if_pos hfailed]
    rfl
  rw [if_neg hfailed, if_neg hfailed]
  have hmux : ((u.nextScratch measured.2.destroy).setOut
      (u.nextScratch measured.2.destroy).out.read).held.mux =
        { u.held.mux with scratch := u.held.mux.scratch.tail } := by
    simp [Muxing.setOut, Muxing.out, Muxing.nextScratch, HeldBuffer.read]
  refine (Muxing.writeFooter_shows _ _).trans ?_
  rw [hmux]
  rfl

theorem Muxing.finish_shows (u : Muxing) :
    Prod.map id Muxing.plain u.finish = u.held.mux.finish := by
  unfold Muxing.finish Mux.finish
  split_ifs
  · exact heldAppendFooter_shows u
  · rfl

/-- **Closing** answers what it does apart from the memory. -/
theorem heldMuxClose_shows (u : Muxing) (files : Blocks) (written flushed : Bool) :
    (heldMuxClose u files written flushed).1 = muxClose u.held.mux written flushed := by
  unfold heldMuxClose muxClose
  have hfinish := Muxing.finish_shows { u with blocks := u.blocks.touch (some u.held.self) }
  rw [show u.held.mux.finish = _ from hfinish.symm]
  dsimp only
  generalize Muxing.finish { u with blocks := u.blocks.touch (some u.held.self) } = r
  obtain ⟨status, finished⟩ := r
  cases status <;> simp [Muxing.plain, Muxing.setOut, Muxing.out, HeldBuffer.read]

/-- **Creating** answers what it does apart from the memory, if the mux itself can be allocated. -/
theorem heldMuxCreate_shows (options : Option MuxOptions) (opened : Bool) (allocs : Stream' Bool)
    (scratch : Stream' (Stream' Bool)) (blocks files : Blocks) :
    let r := heldMuxCreate options true opened allocs scratch blocks files
    (r.status, r.mux.map HeldMux.mux) = muxCreate options opened allocs scratch := by
  obtain ⟨self, blocks', hmalloc⟩ := blocks.malloc_true
  unfold heldMuxCreate muxCreate
  rw [hmalloc]
  dsimp only
  cases opened with
  | false => rfl
  | true =>
    obtain ⟨file, files', hfopen⟩ := files.malloc_true
    have hheader := writeHeaderOn_shows heldBuffers_shows
      ⟨Buffer.empty (muxLimits options).maxAggregateAlloc.toNat allocs, none, blocks'⟩
      (muxTimeBase options) muxUuid
    rw [hfopen, show writeHeader (Buffer.empty (muxLimits options).maxAggregateAlloc.toNat allocs)
      (muxTimeBase options) muxUuid = _ from
      hheader.symm]
    dsimp only
    generalize writeHeaderOn heldBuffers ⟨Buffer.empty (muxLimits options).maxAggregateAlloc.toNat
      allocs, none, blocks'⟩
      (muxTimeBase options) muxUuid = header
    obtain ⟨status, b⟩ := header
    cases status <;> rfl

/-! ### A session -/

/-- A caller with a mux, as long as it is there, the memory and the files that are open. -/
structure MuxSession where
  mux : Option HeldMux
  blocks : Blocks
  files : Blocks

/-- What the caller may do. -/
inductive MuxCall where
  | write (content : Content)
  /-- With the outcomes of `fwrite` and `fclose`. -/
  | close (written flushed : Bool)
  | abort

/-- Calling: the status, and the bytes that are handed to `fwrite`. The caller forgets a mux that
it has closed or aborted, and calls with a null pointer from then on. -/
def MuxSession.call (s : MuxSession) : MuxCall → (Status × Option Bytes) × MuxSession
  | .write content =>
    match s.mux with
    | none => ((.invalidArgument, none), s)
    | some held =>
      let called := Muxing.call ⟨held, s.blocks⟩ content
      ((called.1, none), { s with mux := some called.2.held, blocks := called.2.blocks })
  | .close written flushed =>
    match s.mux with
    | none => ((.invalidArgument, none), s)
    | some held =>
      let closed := heldMuxClose ⟨held, s.blocks⟩ s.files written flushed
      (closed.1, ⟨none, closed.2.1, closed.2.2⟩)
  | .abort =>
    match s.mux with
    | none => ((.ok, none), s)
    | some held =>
      let aborted := Muxing.abort ⟨held, s.blocks⟩ s.files
      ((.ok, none), ⟨none, aborted.1, aborted.2⟩)

/-- A session begins. -/
def MuxSession.created (options : Option MuxOptions) (room opened : Bool) (allocs : Stream' Bool)
    (scratch : Stream' (Stream' Bool)) : Status × MuxSession :=
  let r := heldMuxCreate options room opened allocs scratch .empty .empty
  (r.status, ⟨r.mux, r.blocks, r.files⟩)

/-- **All is accounted for**: there was no fault, the live blocks are those of the mux, and its
file is the only one that is open; when the mux is gone there are none. -/
structure MuxSession.Sound (s : MuxSession) : Prop where
  faults : s.blocks.faults = 0 ∧ s.files.faults = 0
  live : (s.blocks.live : Multiset ℕ) = s.mux.elim 0 HeldMux.owned
  opened : (s.files.live : Multiset ℕ) = s.mux.elim 0 fun held => {held.file}

/-- The invariant of a session. -/
def MuxSession.Kept (s : MuxSession) : Prop :=
  match s.mux with
  | some held => Muxing.Owns ⟨held, s.blocks⟩ 0 ∧ s.files.Owned {held.file}
  | none => s.blocks.Owned 0 ∧ s.files.Owned 0

theorem MuxSession.Kept.sound {s : MuxSession} (h : s.Kept) : s.Sound := by
  obtain ⟨mux, blocks, files⟩ := s
  cases mux with
  | none => exact ⟨⟨h.1.faults, h.2.faults⟩, h.1.live, h.2.live⟩
  | some held =>
      exact ⟨⟨h.1.blocks.faults, h.2.faults⟩, h.1.blocks.live.trans (add_zero _), h.2.live⟩

/-- A call keeps the accounts. -/
theorem MuxSession.Kept.call {s : MuxSession} (h : s.Kept) (c : MuxCall) : (s.call c).2.Kept := by
  obtain ⟨mux, blocks, files⟩ := s
  cases mux with
  | none => cases c <;> exact h
  | some held =>
    obtain ⟨howns, hfiles⟩ := h
    cases c with
    | write content =>
      refine ⟨howns.call content, ?_⟩
      rw [Muxing.call_file]
      exact hfiles
    | close written flushed => exact howns.close hfiles written flushed
    | abort => exact howns.abort hfiles

/-- **Ownership in a session with a mux.** Whichever allocations succeed, whether the file can be
opened, written and closed, and whatever is written: in any calls in any order no block and no
file is touched or given back that is not there, and when the mux is closed or aborted, or was not
created, none is left. -/
theorem muxSession_owns (options : Option MuxOptions) (room opened : Bool) (allocs : Stream' Bool)
    (scratch : Stream' (Stream' Bool)) (calls : List MuxCall) :
    (answers MuxSession.call (MuxSession.created options room opened allocs scratch).2
      calls).2.Sound := by
  have hcreate := heldMuxCreate_owns Blocks.owned_empty Blocks.owned_empty options room
    opened allocs scratch
  have hkept : (MuxSession.created options room opened allocs scratch).2.Kept := hcreate
  have hstep : ∀ (s : MuxSession) (c : MuxCall), s.Kept → (s.call c).2.Kept := fun _ c h => h.call c
  exact (answers_invariant hstep hkept calls).sound

/-- What the calls do to a mux that is looked at apart from the memory. -/
def callMux (mux : Option Mux) : MuxCall → (Status × Option Bytes) × Option Mux
  | .write content =>
    match mux with
    | none => ((.invalidArgument, none), none)
    | some mux => (((mux.call content).1, none), some (mux.call content).2)
  | .close written flushed =>
    match mux with
    | none => ((.invalidArgument, none), none)
    | some mux => (muxClose mux written flushed, none)
  | .abort => ((.ok, none), none)

/-- A call answers what it does apart from the memory. -/
theorem MuxSession.call_shows (s : MuxSession) (c : MuxCall) :
    (s.call c).1 = (callMux (s.mux.map HeldMux.mux) c).1 ∧
      (s.call c).2.mux.map HeldMux.mux = (callMux (s.mux.map HeldMux.mux) c).2 := by
  obtain ⟨mux, blocks, files⟩ := s
  cases mux with
  | none => cases c <;> exact ⟨rfl, rfl⟩
  | some held =>
    cases c with
    | write content =>
      have hcall := Muxing.call_shows ⟨held, blocks⟩ content
      have hstatus := congrArg Prod.fst hcall
      have hmux := congrArg Prod.snd hcall
      exact ⟨congrArg (·, none) hstatus, congrArg some hmux⟩
    | close written flushed => exact ⟨heldMuxClose_shows ⟨held, blocks⟩ files written flushed, rfl⟩
    | abort => exact ⟨rfl, rfl⟩

/-- **A session and the plain mux.** A session answers what `muxCreate`, `Mux.call` and `muxClose`
do, until the mux is gone. -/
theorem muxSession_answers (options : Option MuxOptions) (room opened : Bool)
    (allocs : Stream' Bool) (scratch : Stream' (Stream' Bool)) (calls : List MuxCall) :
    let session := MuxSession.created options room opened allocs scratch
    let plain := if room then muxCreate options opened allocs scratch else (.resource, none)
    session.1 = plain.1 ∧
      (answers MuxSession.call session.2 calls).1 = (answers callMux plain.2 calls).1 := by
  intro session plain
  have hcreate : session.1 = plain.1 ∧ session.2.mux.map HeldMux.mux = plain.2 := by
    cases room with
    | false => exact ⟨rfl, rfl⟩
    | true =>
      have hshows := heldMuxCreate_shows options opened allocs scratch .empty .empty
      exact ⟨congrArg Prod.fst hshows, congrArg Prod.snd hshows⟩
  refine ⟨hcreate.1, (answers_eq (P := fun _ => True) (R := fun s mux => s.mux.map HeldMux.mux =
    mux) ?_ hcreate.2 fun _ _ => trivial).1⟩
  intro s mux c h _
  subst h
  exact s.call_shows c

end Tide
