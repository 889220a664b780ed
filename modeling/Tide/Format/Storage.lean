import Tide.Format.Writer
import Tide.Theory.Blocks
import Mathlib.Tactic.Abel

/-!
# The writer and the memory

The buffers of `src/common/checked.c` once more, with the blocks that they allocate and free, and
`src/format/writer.c` on them.

The writer does not look at the memory: `BufferOps` are the operations by which it uses a buffer,
and what they keep, it keeps (`writeRecordOn_keeps`). Over the buffers of `Tide.Common` it is the
writer of `Tide.Format.Writer` (`writeRecordOn_shows`).

`HeldBuffer` is a buffer in the memory. It owns its block (`heldBuffers_keeps`), and apart from
that it is a buffer of `Tide.Common` (`heldBuffers_shows`).
-/

namespace Tide

open Theory

/-! ### `writer.c` on any buffers -/

/-- What the writer does with a buffer. -/
structure BufferOps (B : Type) where
  append : B → Bytes → Status × B
  appendZero : B → ℕ → Status × B
  bytes : B → Bytes
  /-- Reading the bytes. -/
  read : B → B

/-- The buffers of `Tide.Common`. -/
def plainBuffers : BufferOps Buffer := ⟨bufferAppend, bufferAppendZero, Buffer.data, id⟩

variable {B : Type}

section

variable (ops : BufferOps B)

/-- `tide_write_header`. -/
def writeHeaderOn (out : B) (movieTimeBase : Rational) (uuid : Bytes) : Status × B :=
  if !rationalIsValid movieTimeBase || uuid == List.replicate 16 0 then (.invalidArgument, out)
  else
    let header := headerBody movieTimeBase uuid
    ops.append out (header ++ writeU32 (crc32c header))

/-- The four appends of `tide_write_record`. -/
def appendRecordOn (out : B) (recordPrefix payload : Bytes) (paddingSize : ℕ) : Status × B :=
  let crcStart := (ops.bytes out).length
  andThen (ops.append out recordPrefix) fun out =>
  andThen (ops.append out payload) fun out =>
  andThen (ops.appendZero out paddingSize) fun out =>
  ops.append (ops.read out) (writeU32 (crc32c ((ops.bytes out).drop crcStart)))

/-- `tide_write_record`. -/
def writeRecordOn (out : B) (type flags : UInt16) (alignmentLog2 : UInt8) (sequence : UInt64)
    (payload : Bytes) : Status × B :=
  if alignmentLog2 > 4 then (.invalidArgument, out)
  else
    let payloadSize := UInt64.ofNat payload.length
    let headerSize := 8 + uleb128Size payloadSize + uleb128Size sequence
    if headerSize > 65535 then (.resource, out)
    else
      let recordPrefix := writeU16 type ++ writeU16 flags ++ writeU16 (UInt16.ofNat headerSize) ++
        [alignmentLog2, 0] ++
        writeUleb128 payloadSize ++ writeUleb128 sequence
      match checkedAddU64 (UInt64.ofNat headerSize) payloadSize with
      | none => (.resource, out)
      | some unpaddedSize =>
        match alignU64 unpaddedSize (1 <<< alignmentLog2.toUInt64) with
        | none => (.resource, out)
        | some paddedSize =>
            appendRecordOn ops out recordPrefix payload (paddedSize - unpaddedSize).toNat

/-- `tide_encode_stream_payload`. -/
def encodeStreamPayloadOn (out : B) (stream : StreamInfo) : Status × B :=
  if !rationalIsValid stream.timeBase then (.invalidArgument, out)
  else
    andThen (ops.append out (streamFixed stream)) fun out =>
    andThen (ops.append out (writeUleb128 (UInt64.ofNat stream.config.length))) fun out =>
    ops.append out stream.config

/-- `tide_encode_packet_payload`. -/
def encodePacketPayloadOn (out : B) (packet : PacketInfo) : Status × B :=
  if packet.duration < 0 then (.invalidArgument, out)
  else
    andThen (ops.append out (packetFixed packet)) fun out =>
    andThen (ops.append out (writeUleb128 (UInt64.ofNat packet.payload.length))) fun out =>
    ops.append out packet.payload

end

/-- The operations keep `I`. -/
structure BufferOps.Keeps (ops : BufferOps B) (I : B → Prop) : Prop where
  append : ∀ b bs, I b → I (ops.append b bs).2
  appendZero : ∀ b n, I b → I (ops.appendZero b n).2
  read : ∀ b, I b → I (ops.read b)

/-- The operations do to what `plain` shows of a buffer what those of `Tide.Common` do. -/
structure BufferOps.Shows (ops : BufferOps B) (plain : B → Buffer) : Prop where
  append : ∀ b bs, Prod.map id plain (ops.append b bs) = bufferAppend (plain b) bs
  appendZero : ∀ b n, Prod.map id plain (ops.appendZero b n) = bufferAppendZero (plain b) n
  bytes : ∀ b, ops.bytes b = (plain b).data
  read : ∀ b, plain (ops.read b) = plain b

theorem andThen_keeps {I : B → Prop} {r : Status × B} {f : B → Status × B} (hr : I r.2)
    (hf : ∀ b, I b → I (f b).2) :
    I (andThen r f).2 := by
  obtain ⟨status, b⟩ := r
  cases status <;> first | exact hf b hr | exact hr

theorem andThen_map {plain : B → Buffer} {r : Status × B} {f : B → Status × B}
    {r' : Status × Buffer} {g : Buffer → Status × Buffer} (hr : Prod.map id plain r = r')
    (hf : ∀ b, Prod.map id plain (f b) = g (plain b)) :
    Prod.map id plain (andThen r f) = andThen r' g := by
  subst hr
  obtain ⟨status, b⟩ := r
  cases status <;> first | exact hf b | rfl

section

variable {ops : BufferOps B} {I : B → Prop} {plain : B → Buffer} {out : B}

theorem writeHeaderOn_keeps (h : ops.Keeps I) (hout : I out) (movieTimeBase : Rational)
    (uuid : Bytes) :
    I (writeHeaderOn ops out movieTimeBase uuid).2 := by
  unfold writeHeaderOn
  split
  · exact hout
  · exact h.append _ _ hout

theorem appendRecordOn_plain (out : Buffer) (recordPrefix payload : Bytes) (paddingSize : ℕ) :
    appendRecordOn plainBuffers out recordPrefix payload paddingSize =
      andThen (bufferAppend out recordPrefix) fun out' =>
      andThen (bufferAppend out' payload) fun out' =>
      andThen (bufferAppendZero out' paddingSize) fun out' =>
      bufferAppend out' (writeU32 (crc32c (out'.data.drop out.data.length))) := by
  simp only [appendRecordOn, plainBuffers, id_eq]

/-- **How `tide_write_record` goes**, on whatever buffers: it refuses, or it makes its four
appends. -/
theorem writeRecord_layout (type flags : UInt16) (alignmentLog2 : UInt8) (sequence : UInt64)
    (payload : Bytes) :
    (∃ status : Status, (∀ out, writeRecord out type flags alignmentLog2 sequence payload =
      (status, out)) ∧
        ∀ {B : Type} (ops : BufferOps B) (out : B),
          writeRecordOn ops out type flags alignmentLog2 sequence payload = (status, out)) ∨
      ∃ recordPrefix paddingSize,
        (∀ out, writeRecord out type flags alignmentLog2 sequence payload =
          appendRecordOn plainBuffers out recordPrefix payload paddingSize) ∧
        ∀ {B : Type} (ops : BufferOps B) (out : B),
          writeRecordOn ops out type flags alignmentLog2 sequence payload =
            appendRecordOn ops out recordPrefix payload paddingSize := by
  by_cases halign : alignmentLog2 > 4
  · exact .inl ⟨.invalidArgument, fun out => if_pos halign, fun ops out => if_pos halign⟩
  by_cases hlong : 8 + uleb128Size (UInt64.ofNat payload.length) + uleb128Size sequence > 65535
  · exact .inl ⟨.resource, fun out => (if_neg halign).trans (if_pos hlong),
      fun ops out => (if_neg halign).trans (if_pos hlong)⟩
  cases hadd : checkedAddU64 (UInt64.ofNat (8 + uleb128Size (UInt64.ofNat payload.length) +
    uleb128Size sequence))
      (UInt64.ofNat payload.length) with
  | none =>
    refine .inl ⟨.resource, fun out => ?_, fun ops out => ?_⟩
    · rw [writeRecord, if_neg halign]
      simp only [if_neg hlong, hadd]
    · rw [writeRecordOn, if_neg halign]
      simp only [if_neg hlong, hadd]
  | some unpaddedSize =>
    cases hpad : alignU64 unpaddedSize (1 <<< alignmentLog2.toUInt64) with
    | none =>
      refine .inl ⟨.resource, fun out => ?_, fun ops out => ?_⟩
      · rw [writeRecord, if_neg halign]
        simp only [if_neg hlong, hadd, hpad]
      · rw [writeRecordOn, if_neg halign]
        simp only [if_neg hlong, hadd, hpad]
    | some paddedSize =>
      refine .inr ⟨writeU16 type ++ writeU16 flags ++
        writeU16 (UInt16.ofNat (8 + uleb128Size (UInt64.ofNat payload.length) +
          uleb128Size sequence)) ++ [alignmentLog2, 0] ++
        writeUleb128 (UInt64.ofNat payload.length) ++ writeUleb128 sequence,
        (paddedSize - unpaddedSize).toNat, fun out => ?_, fun ops out => ?_⟩
      · rw [appendRecordOn_plain, writeRecord, if_neg halign]
        simp only [if_neg hlong, hadd, hpad]
      · rw [writeRecordOn, if_neg halign]
        simp only [if_neg hlong, hadd, hpad]

/-- **Writing a record** keeps what the operations keep. -/
theorem writeRecordOn_keeps (h : ops.Keeps I) (hout : I out) (type flags : UInt16)
    (alignmentLog2 : UInt8) (sequence : UInt64) (payload : Bytes) :
    I (writeRecordOn ops out type flags alignmentLog2 sequence payload).2 := by
  obtain ⟨status, -, hrefused⟩ | ⟨recordPrefix, paddingSize, -, happends⟩ :=
    writeRecord_layout type flags alignmentLog2 sequence payload
  · rw [hrefused]
    exact hout
  · rw [happends]
    refine andThen_keeps (h.append _ _ hout) fun b hb =>
      andThen_keeps (h.append _ _ hb) fun b hb => ?_
    exact andThen_keeps (h.appendZero _ _ hb) fun b hb => h.append _ _ (h.read _ hb)

theorem encodeStreamPayloadOn_keeps (h : ops.Keeps I) (hout : I out) (stream : StreamInfo) :
    I (encodeStreamPayloadOn ops out stream).2 := by
  unfold encodeStreamPayloadOn
  split
  · exact hout
  · exact andThen_keeps (h.append _ _ hout) fun b hb => andThen_keeps (h.append _ _ hb) fun b hb =>
      h.append _ _ hb

theorem encodePacketPayloadOn_keeps (h : ops.Keeps I) (hout : I out) (packet : PacketInfo) :
    I (encodePacketPayloadOn ops out packet).2 := by
  unfold encodePacketPayloadOn
  split
  · exact hout
  · exact andThen_keeps (h.append _ _ hout) fun b hb => andThen_keeps (h.append _ _ hb) fun b hb =>
      h.append _ _ hb

theorem writeHeaderOn_shows (h : ops.Shows plain) (out : B) (movieTimeBase : Rational)
    (uuid : Bytes) :
    Prod.map id plain (writeHeaderOn ops out movieTimeBase uuid) =
      writeHeader (plain out) movieTimeBase uuid := by
  unfold writeHeaderOn writeHeader
  split
  · rfl
  · exact h.append _ _

/-- **Writing a record** does what it does to the buffers of `Tide.Common`. -/
theorem writeRecordOn_shows (h : ops.Shows plain) (out : B) (type flags : UInt16)
    (alignmentLog2 : UInt8) (sequence : UInt64) (payload : Bytes) :
    Prod.map id plain (writeRecordOn ops out type flags alignmentLog2 sequence payload) =
      writeRecord (plain out) type flags alignmentLog2 sequence payload := by
  obtain ⟨status, hplain, hrefused⟩ | ⟨recordPrefix, paddingSize, hplain, happends⟩ :=
    writeRecord_layout type flags alignmentLog2 sequence payload
  · rw [hplain, hrefused]
    rfl
  · rw [hplain, happends, appendRecordOn_plain]
    refine andThen_map (h.append _ _) fun b => andThen_map (h.append _ _) fun b =>
      andThen_map (h.appendZero _ _) fun b => ?_
    rw [h.append, h.read, h.bytes, h.bytes]

theorem encodeStreamPayloadOn_shows (h : ops.Shows plain) (stream : StreamInfo) :
    Prod.map id plain (encodeStreamPayloadOn ops out stream) = encodeStreamPayload
      (plain out) stream := by
  unfold encodeStreamPayloadOn encodeStreamPayload
  split
  · rfl
  · exact andThen_map (h.append _ _) fun b => andThen_map (h.append _ _) fun b => h.append _ _

theorem encodePacketPayloadOn_shows (h : ops.Shows plain) (packet : PacketInfo) :
    Prod.map id plain (encodePacketPayloadOn ops out packet) = encodePacketPayload
      (plain out) packet := by
  unfold encodePacketPayloadOn encodePacketPayload
  split
  · rfl
  · exact andThen_map (h.append _ _) fun b => andThen_map (h.append _ _) fun b => h.append _ _

end

/-! ### Buffers in the memory -/

/-- `tide_buffer`, with the block it points to, and the memory around it. -/
structure HeldBuffer where
  buffer : Buffer
  block : Option ℕ
  blocks : Blocks

/-- `tide_buffer_reserve`. -/
def heldReserve (b : HeldBuffer) (additional : ℕ) : Status × HeldBuffer :=
  if additional > sizeMax - b.buffer.data.length then (.resource, b)
  else
    let needed := b.buffer.data.length + additional
    if needed > b.buffer.aggregateLimit ∧ b.buffer.aggregateLimit ≠ 0 then (.resource, b)
    else if needed ≤ b.buffer.capacity then (.ok, b)
    else
      let next := growCapacity needed 65 (if b.buffer.capacity = 0 then 256 else b.buffer.capacity)
      match b.blocks.realloc b.block b.buffer.allocs.head with
      | (none, blocks) =>
          (.resource, { b with buffer := { b.buffer with allocs := b.buffer.allocs.tail },
                               blocks := blocks })
      | (some block, blocks) =>
        (.ok, { buffer := { b.buffer with capacity := next, allocs := b.buffer.allocs.tail },
                block := some block, blocks := blocks })

/-- Touching the block of a buffer, unless there is nothing to touch it for. -/
def HeldBuffer.touch (b : HeldBuffer) (size : ℕ) : HeldBuffer :=
  if size ≠ 0 then { b with blocks := b.blocks.touch b.block } else b

/-- Writing bytes behind the others. -/
def HeldBuffer.store (b : HeldBuffer) (data : Bytes) : HeldBuffer :=
  HeldBuffer.touch { b with buffer := { b.buffer with data := b.buffer.data ++ data } } data.length

/-- `tide_buffer_append`. -/
def heldAppend (b : HeldBuffer) (data : Bytes) : Status × HeldBuffer :=
  match heldReserve b data.length with
  | (.ok, b) => (.ok, b.store data)
  | r => r

/-- `tide_buffer_append_zero`. -/
def heldAppendZero (b : HeldBuffer) (size : ℕ) : Status × HeldBuffer :=
  match heldReserve b size with
  | (.ok, b) => (.ok, b.store (List.replicate size 0))
  | r => r

/-- Reading the bytes. -/
def HeldBuffer.read (b : HeldBuffer) : HeldBuffer := b.touch b.buffer.data.length

/-- `tide_buffer_destroy`, as far as the memory goes. -/
def HeldBuffer.destroy (b : HeldBuffer) : Blocks := b.blocks.free b.block

/-- The buffers in the memory. -/
def heldBuffers : BufferOps HeldBuffer :=
  ⟨heldAppend, heldAppendZero, fun b => b.buffer.data, HeldBuffer.read⟩

/-- **What a buffer owns**: its block, which is there if it has room for any bytes. -/
structure HeldBuffer.Owns (b : HeldBuffer) (rest : Multiset ℕ) : Prop where
  blocks : b.blocks.Owned ((b.block.toList : Multiset ℕ) + rest)
  backed : b.buffer.capacity ≠ 0 → ∃ p, b.block = some p
  room : b.buffer.data.length ≤ b.buffer.capacity

section

variable {b : HeldBuffer} {rest : Multiset ℕ}

/-- An empty buffer owns nothing. -/
theorem HeldBuffer.owns_empty {blocks : Blocks} (h : blocks.Owned rest) (limit : ℕ)
    (allocs : Stream' Bool) : HeldBuffer.Owns ⟨Buffer.empty limit allocs, none, blocks⟩ rest :=
  ⟨h.congr (by simp), fun hne => absurd rfl hne, Nat.le_refl _⟩

/-- A buffer may be touched where it has room. -/
theorem HeldBuffer.Owns.touch (h : b.Owns rest) {size : ℕ}
    (hsize : size ≤ b.buffer.capacity) : b.touch size = b := by
  unfold HeldBuffer.touch
  split_ifs with hne
  · obtain ⟨p, hp⟩ := h.backed (by omega)
    have htouch : b.blocks.touch b.block = b.blocks := by
      rw [hp]
      exact h.blocks.touch (by simp [hp])
    rw [htouch]
  · rfl

theorem HeldBuffer.Owns.read (h : b.Owns rest) : b.read = b := h.touch h.room

/-- Destroying gives back what is owned. -/
theorem HeldBuffer.Owns.destroy (h : b.Owns rest) : b.destroy.Owned rest := h.blocks.free

/-- Reserving keeps what is owned, and there is room. -/
theorem HeldBuffer.Owns.reserve (h : b.Owns rest) (additional : ℕ) :
    (heldReserve b additional).2.Owns rest ∧
      (heldReserve b additional).2.buffer.data = b.buffer.data ∧
      ((heldReserve b additional).1 = .ok →
        b.buffer.data.length + additional ≤ (heldReserve b additional).2.buffer.capacity) := by
  generalize hr : heldReserve b additional = r
  unfold heldReserve at hr
  by_cases hover : additional > sizeMax - b.buffer.data.length
  · rw [if_pos hover] at hr
    subst hr
    exact ⟨h, rfl, by simp⟩
  rw [if_neg hover] at hr
  dsimp only at hr
  by_cases hlimit : b.buffer.data.length + additional > b.buffer.aggregateLimit ∧
    b.buffer.aggregateLimit ≠ 0
  · rw [if_pos hlimit] at hr
    subst hr
    exact ⟨h, rfl, by simp⟩
  rw [if_neg hlimit] at hr
  by_cases hfits : b.buffer.data.length + additional ≤ b.buffer.capacity
  · rw [if_pos hfits] at hr
    subst hr
    exact ⟨h, rfl, fun _ => hfits⟩
  rw [if_neg hfits] at hr
  have hroom := h.room
  have hgrown : b.buffer.data.length + additional ≤
      growCapacity (b.buffer.data.length + additional) 65 (if b.buffer.capacity = 0 then 256
        else b.buffer.capacity) := by
    apply le_growCapacity
    · omega
    · split <;> omega
  generalize growCapacity (b.buffer.data.length + additional) 65 (if b.buffer.capacity = 0 then 256
    else b.buffer.capacity) = next at hr hgrown
  obtain ⟨hnone, -⟩ | ⟨q, blocks, hrealloc, howned, -⟩ := h.blocks.realloc b.buffer.allocs.head
  · rw [hnone] at hr
    subst hr
    exact ⟨⟨h.blocks, h.backed, h.room⟩, rfl, by simp⟩
  · rw [hrealloc] at hr
    subst hr
    exact ⟨⟨howned.congr (by simp), fun _ => ⟨q, rfl⟩, (Nat.le_add_right _ _).trans hgrown⟩, rfl,
      fun _ => hgrown⟩

/-- Storing bytes where there is room for them. -/
theorem HeldBuffer.Owns.store (h : b.Owns rest) {data : Bytes}
    (hroom : b.buffer.data.length + data.length ≤ b.buffer.capacity) :
    (b.store data).Owns rest := by
  have hstored : HeldBuffer.Owns
      { b with buffer := { b.buffer with data := b.buffer.data ++ data } } rest :=
    ⟨h.blocks, h.backed, by simpa using hroom⟩
  unfold HeldBuffer.store
  rw [hstored.touch ((Nat.le_add_left _ _).trans hroom)]
  exact hstored

theorem HeldBuffer.Owns.append (h : b.Owns rest) (data : Bytes) :
    (heldAppend b data).2.Owns rest := by
  obtain ⟨hreserved, hdata, hroom⟩ := h.reserve data.length
  unfold heldAppend
  generalize heldReserve b data.length = r at hreserved hdata hroom
  obtain ⟨status, grown⟩ := r
  cases status <;> first | exact hreserved.store (by rw [hdata]; exact hroom rfl) | exact hreserved

theorem HeldBuffer.Owns.appendZero (h : b.Owns rest) (size : ℕ) :
    (heldAppendZero b size).2.Owns rest := by
  obtain ⟨hreserved, hdata, hroom⟩ := h.reserve size
  unfold heldAppendZero
  generalize heldReserve b size = r at hreserved hdata hroom
  obtain ⟨status, grown⟩ := r
  cases status <;> first
    | exact hreserved.store (by rw [hdata, List.length_replicate]; exact hroom rfl)
    | exact hreserved

/-- **The operations on a buffer** keep what it owns. -/
theorem heldBuffers_keeps (rest : Multiset ℕ) : heldBuffers.Keeps fun b => b.Owns rest where
  append _ data h := h.append data
  appendZero _ size h := h.appendZero size
  read _ h := by
    rw [show heldBuffers.read = HeldBuffer.read from rfl, h.read]
    exact h

@[simp] theorem HeldBuffer.touch_buffer (b : HeldBuffer) (size : ℕ) :
    (b.touch size).buffer = b.buffer := by
  unfold HeldBuffer.touch
  split <;> rfl

/-- Reserving shows what `bufferReserve` does. -/
theorem heldReserve_shows (b : HeldBuffer) (additional : ℕ) :
    Prod.map id HeldBuffer.buffer (heldReserve b additional) =
      bufferReserve b.buffer additional := by
  unfold heldReserve bufferReserve
  by_cases hover : additional > sizeMax - b.buffer.data.length
  · rw [if_pos hover, if_pos hover]
    rfl
  rw [if_neg hover, if_neg hover]
  dsimp only
  by_cases hlimit : b.buffer.data.length + additional > b.buffer.aggregateLimit ∧
    b.buffer.aggregateLimit ≠ 0
  · rw [if_pos hlimit, if_pos hlimit]
    rfl
  rw [if_neg hlimit, if_neg hlimit]
  by_cases hfits : b.buffer.data.length + additional ≤ b.buffer.capacity
  · rw [if_pos hfits, if_pos hfits]
    rfl
  rw [if_neg hfits, if_neg hfits]
  generalize growCapacity (b.buffer.data.length + additional) 65 (if b.buffer.capacity = 0 then 256
    else b.buffer.capacity) = next
  cases b.buffer.allocs.head with
  | false => rfl
  | true =>
    obtain ⟨p, blocks, hrealloc⟩ := b.blocks.realloc_true b.block
    rw [hrealloc]
    rfl

theorem heldAppend_shows (b : HeldBuffer) (data : Bytes) :
    Prod.map id HeldBuffer.buffer (heldAppend b data) = bufferAppend b.buffer data := by
  have hreserve := heldReserve_shows b data.length
  unfold heldAppend bufferAppend
  rw [← hreserve]
  generalize heldReserve b data.length = r
  obtain ⟨status, grown⟩ := r
  cases status <;> simp [HeldBuffer.store]

theorem heldAppendZero_shows (b : HeldBuffer) (size : ℕ) :
    Prod.map id HeldBuffer.buffer (heldAppendZero b size) = bufferAppendZero b.buffer size := by
  have hreserve := heldReserve_shows b size
  unfold heldAppendZero bufferAppendZero
  rw [← hreserve]
  generalize heldReserve b size = r
  obtain ⟨status, grown⟩ := r
  cases status <;> simp [HeldBuffer.store]

/-- **The operations on a buffer** show those of `Tide.Common`. -/
theorem heldBuffers_shows : heldBuffers.Shows HeldBuffer.buffer where
  append := heldAppend_shows
  appendZero := heldAppendZero_shows
  bytes _ := rfl
  read b := b.touch_buffer _

end

end Tide
