import Tide.Cli.Copies
import Tide.Remux.Ownership

/-!
# The program and the memory

`src/cli/main.c` once more, with `src/source` and `src/repair/scanner.c`, and with the blocks of
memory, the leases and the files that a run of the program takes and gives back, but for the table
that the parser keeps of the tracks: a source owns its bytes, a plan its block, and a command its
demux and its mux.

* `heldSourceFromFile_cases`, `heldSourceFromMemory_owns`: there is a source that owns its blocks,
  or there is none, and nothing is left of it.
* `Process.copy_settled`: what a command does with a source gives back all that it takes.
* `main_owns`: whatever is asked of the program, whatever the files are, and whatever the machine
  refuses, a run uses and gives back only what is there, nothing is left at its end, and it is the
  program of `Tide.Cli`.
-/

namespace Tide

open Theory

/-! ### Sources -/

/-- `struct tide_source`, with its own block and that of its bytes. -/
structure HeldSource where
  self : ℕ
  block : Option ℕ
  bytes : Bytes

/-- The blocks of a source. -/
def HeldSource.owned (source : HeldSource) : Multiset ℕ :=
  source.self ::ₘ (source.block.toList : Multiset ℕ)

/-- Reading the bytes. -/
def HeldSource.read (source : HeldSource) (blocks : Blocks) : Blocks :=
  let blocks := blocks.touch (some source.self)
  if source.bytes.length ≠ 0 then blocks.touch source.block else blocks

/-- `tide_source_destroy`. -/
def HeldSource.destroy (source : HeldSource) (blocks : Blocks) : Blocks :=
  ((blocks.touch (some source.self)).free source.block).free (some source.self)

/-- `tide_source_from_memory`; `room` and `dataRoom` are the outcomes of its two allocations. -/
def heldSourceFromMemory (blocks : Blocks) (bytes : Bytes) (room dataRoom : Bool) :
    Status × Option HeldSource × Blocks :=
  match blocks.malloc room with
  | (none, blocks) => (.resource, none, blocks)
  | (some self, blocks) =>
    if bytes.length ≠ 0 then
      match blocks.malloc dataRoom with
      | (none, blocks) => (.resource, none, blocks.free (some self))
      | (some data, blocks) => (.ok, some ⟨self, some data, bytes⟩, blocks)
    else (.ok, some ⟨self, none, bytes⟩, blocks)

/-! ### Taking and giving back a source -/

section

variable {blocks : Blocks} {rest : Multiset ℕ}

/-- A source may be read. -/
theorem HeldSource.read_owned {source : HeldSource} (h : blocks.Owned (source.owned + rest))
    (hblock : source.bytes.length ≠ 0 → source.block ≠ none) : source.read blocks = blocks := by
  unfold HeldSource.read
  rw [h.touch (by simp [HeldSource.owned])]
  dsimp only
  split_ifs with hne
  · obtain ⟨p, hp⟩ := Option.ne_none_iff_exists'.mp (hblock hne)
    rw [hp, h.touch (by simp [HeldSource.owned, hp])]
  · rfl

/-- Destroying gives back what is owned. -/
theorem HeldSource.destroy_owned {source : HeldSource} (h : blocks.Owned (source.owned + rest)) :
    (source.destroy blocks).Owned rest := by
  unfold HeldSource.destroy
  rw [h.touch (by simp [HeldSource.owned])]
  have hself : (blocks.free source.block).Owned (source.self ::ₘ rest) := by
    refine Blocks.Owned.free (h.congr ?_)
    simp only [HeldSource.owned, ← Multiset.singleton_add]
    abel
  exact hself.free_cons

/-- **A source from memory** owns its blocks and holds the bytes, or there is none. -/
theorem heldSourceFromMemory_owns (h : blocks.Owned rest) (bytes : Bytes) (room dataRoom : Bool)
    (hbytes : bytes.length ≠ 0) :
    let r := heldSourceFromMemory blocks bytes room dataRoom
    (room && dataRoom) = false ∧ r.1 = .resource ∧ r.2.1 = none ∧ r.2.2.Owned rest ∨
      (room && dataRoom) = true ∧ r.1 = .ok ∧ ∃ source, r.2.1 = some source ∧
        r.2.2.Owned (source.owned + rest) ∧ source.bytes = bytes ∧
        source.block ≠ none := by
  unfold heldSourceFromMemory
  obtain ⟨hnone, hroom⟩ | ⟨self, blocks', hmalloc, howned, hroom⟩ := h.malloc room
  · rw [hnone, hroom]
    exact .inl ⟨rfl, rfl, rfl, h⟩
  rw [hmalloc]
  dsimp only
  rw [if_pos hbytes, hroom]
  obtain ⟨hnone, hdata⟩ | ⟨data, blocks'', hmalloc', howned', hdata⟩ := howned.malloc dataRoom
  · rw [hnone, hdata]
    exact .inl ⟨rfl, rfl, rfl, howned.free_cons⟩
  rw [hmalloc', hdata]
  refine .inr ⟨rfl, rfl, ⟨self, some data, bytes⟩, rfl, howned'.congr ?_, rfl, by simp⟩
  simp only [HeldSource.owned, Option.toList_some, Multiset.coe_singleton, ← Multiset.singleton_add]
  abel

end

namespace Cli

/-- A run of the program: the blocks, the open files and the leases, and the files of the
machine. -/
structure Process where
  blocks : Blocks
  handles : Blocks
  heap : LeaseHeap
  files : Files

/-- The end of `tide_source_from_file`: the bytes are read, and on an error the source is
destroyed. -/
def heldLoad (blocks : Blocks) (bytes : Bytes) (env : SourceEnv) :
    Status × Option HeldSource × Blocks :=
  match blocks.malloc env.allocated with
  | (none, blocks) => (.resource, none, blocks)
  | (some self, blocks) =>
    if bytes.length ≠ 0 then
      match blocks.malloc env.dataAllocated with
      | (none, blocks) => (.resource, none, HeldSource.destroy ⟨self, none, bytes⟩ blocks)
      | (some data, blocks) =>
        let blocks := blocks.touch (some data)
        if !env.read then
          (.io, none, HeldSource.destroy ⟨self, some data, bytes⟩ blocks)
            else (.ok, some ⟨self, some data, bytes⟩, blocks)
    else (.ok, some ⟨self, none, bytes⟩, blocks)

/-- `tide_source_from_file`. The file is closed in any case. -/
def heldSourceFromFile (w : Process) (path : String) (env : SourceEnv) :
    Status × Option HeldSource × Process :=
  match w.files path with
  | none => (.io, none, w)
  | some bytes =>
    match w.handles.malloc env.opened with
    | (none, handles) => (.io, none, { w with handles := handles })
    | (some file, handles) =>
      let w := { w with handles := (handles.touch (some file)).free (some file) }
      if !env.soughtEnd then (.io, none, w)
      else if !env.told ∨ 2 ^ 63 ≤ bytes.length then (.io, none, w)
      else if !env.soughtSet then (.io, none, w)
      else
        let loaded := heldLoad w.blocks bytes env
        (loaded.1, loaded.2.1, { w with blocks := loaded.2.2 })

/-- **What a run holds**: the blocks of `m`, no open file and no lease. -/
structure Process.Settled (w : Process) (m : Multiset ℕ) : Prop where
  blocks : w.blocks.Owned m
  handles : w.handles.Owned 0
  leases : w.heap.counts.Balanced 0
  numbered : ∀ lease ∈ w.heap.counts.made, lease.block < w.heap.counts.made.length

section

variable {w : Process} {m : Multiset ℕ}

theorem Process.Settled.setBlocks (h : w.Settled m) {blocks : Blocks} {m' : Multiset ℕ}
    (hblocks : blocks.Owned m') : Process.Settled { w with blocks := blocks } m' :=
  ⟨hblocks, h.handles, h.leases, h.numbered⟩

/-- Reading the bytes: there is a source that owns its blocks, or there is none. -/
theorem heldLoad_cases {blocks : Blocks} (h : blocks.Owned m) (bytes : Bytes) (env : SourceEnv) :
    let r := heldLoad blocks bytes env
    let plain : Status × Option Bytes :=
      if !env.allocated then (.resource, none)
      else if bytes.length ≠ 0 ∧ !env.dataAllocated then (.resource, none)
      else if bytes.length ≠ 0 ∧ !env.read then (.io, none)
      else (.ok, some bytes)
    (r.1 ≠ .ok ∧ r.2.1 = none ∧ plain = (r.1, none) ∧ r.2.2.Owned m) ∨
      ∃ source, r.1 = .ok ∧ r.2.1 = some source ∧ plain = (.ok, some source.bytes) ∧
        (source.bytes.length ≠ 0 → source.block ≠ none) ∧
        r.2.2.Owned (source.owned + m) := by
  unfold heldLoad
  cases env.allocated with
  | false =>
      exact .inl ⟨by simp [Blocks.malloc_false], by simp [Blocks.malloc_false],
        by simp [Blocks.malloc_false], h⟩
  | true =>
    obtain ⟨-, hfalse⟩ | ⟨self, blocks', hmalloc, howned, -⟩ := h.malloc true
    · cases hfalse
    rw [hmalloc]
    dsimp only
    by_cases hempty : bytes.length = 0
    · refine .inr ⟨⟨self, none, bytes⟩, ?_⟩
      rw [if_neg (not_not.mpr hempty)]
      refine ⟨rfl, rfl, by simp [hempty], fun hne => absurd hempty hne, howned.congr ?_⟩
      simp [HeldSource.owned]
    rw [if_pos hempty]
    cases env.dataAllocated with
    | false =>
      refine .inl ⟨by simp [Blocks.malloc_false], by simp [Blocks.malloc_false],
        by simp [Blocks.malloc_false, hempty], ?_⟩
      exact HeldSource.destroy_owned (howned.congr (by simp [HeldSource.owned]))
    | true =>
      obtain ⟨-, hfalse⟩ | ⟨data, blocks'', hmalloc', howned', -⟩ := howned.malloc true
      · cases hfalse
      rw [hmalloc']
      dsimp only
      rw [howned'.touch (Multiset.mem_cons_self ..)]
      have hsource : blocks''.Owned (HeldSource.owned ⟨self, some data, bytes⟩ + m) := by
        refine howned'.congr ?_
        simp only [HeldSource.owned, Option.toList_some, Multiset.coe_singleton,
          ← Multiset.singleton_add]
        abel
      cases env.read with
      | false =>
          exact .inl
            ⟨by simp, by simp, by simp [hempty], by simpa using HeldSource.destroy_owned hsource⟩
      | true =>
          exact .inr ⟨⟨self, some data, bytes⟩,
            by simp, by simp, by simp, by simp, by simpa using hsource⟩

/-- **A source from a file** owns its blocks, or there is none, and the status is that of
`sourceFromFile`. -/
theorem heldSourceFromFile_cases (h : w.Settled m) (path : String) (env : SourceEnv) :
    (∃ status w', heldSourceFromFile w path env = (status, none, w') ∧ status ≠ .ok ∧
        sourceFromFile w.files path env = (status, none) ∧ w'.files = w.files ∧ w'.Settled m) ∨
      ∃ source w', heldSourceFromFile w path env = (.ok, some source, w') ∧
        sourceFromFile w.files path env = (.ok, some source.bytes) ∧
        w'.files = w.files ∧ w'.heap = w.heap ∧ (source.bytes.length ≠ 0 → source.block ≠ none) ∧
          w'.Settled (source.owned + m) := by
  unfold heldSourceFromFile sourceFromFile
  cases hfile : w.files path with
  | none => exact .inl ⟨.io, w, rfl, by simp, rfl, rfl, h⟩
  | some bytes =>
    dsimp only
    cases hopened : env.opened with
    | false => exact .inl ⟨.io, w, rfl, by simp, rfl, rfl, h⟩
    | true =>
      obtain ⟨-, hfalse⟩ | ⟨file, handles, hmalloc, howned, -⟩ := h.handles.malloc true
      · cases hfalse
      rw [hmalloc]
      dsimp only
      have hclosed : ((handles.touch (some file)).free (some file)).Owned 0 := by
        rw [howned.touch (Multiset.mem_cons_self ..)]
        exact howned.free_cons
      generalize (handles.touch (some file)).free (some file) = handles' at hclosed
      have hw : Process.Settled { w with handles := handles' } m :=
        ⟨h.blocks, hclosed, h.leases, h.numbered⟩
      rw [if_neg (show ¬ (!true) = true by simp)]
      by_cases hend : (!env.soughtEnd) = true
      · rw [if_pos hend, if_pos hend]
        exact .inl ⟨.io, _, rfl, by simp, rfl, rfl, hw⟩
      rw [if_neg hend, if_neg hend]
      by_cases htold : (!env.told) = true ∨ 2 ^ 63 ≤ bytes.length
      · rw [if_pos htold, if_pos htold]
        exact .inl ⟨.io, _, rfl, by simp, rfl, rfl, hw⟩
      rw [if_neg htold, if_neg htold]
      by_cases hset : (!env.soughtSet) = true
      · rw [if_pos hset, if_pos hset]
        exact .inl ⟨.io, _, rfl, by simp, rfl, rfl, hw⟩
      rw [if_neg hset, if_neg hset]
      have hloaded := heldLoad_cases h.blocks bytes env
      generalize heldLoad w.blocks bytes env = loaded at hloaded
      obtain ⟨status, source, blocks⟩ := loaded
      dsimp only at hloaded ⊢
      obtain ⟨hne, rfl, hplain, hblocks⟩ | ⟨source, rfl, rfl, hplain, hblock, hblocks⟩ := hloaded
      · exact .inl ⟨status, _, rfl, hne, hplain, rfl, hw.setBlocks hblocks⟩
      · exact .inr ⟨source, _, rfl, hplain, rfl, rfl, hblock, hw.setBlocks hblocks⟩

end

/-! ### A demux and a mux -/

/-- `tide_demux_close`. -/
def Process.closeDemux (w : Process) : Option HeldDemux → Process
  | none => w
  | some demux =>
    let closed := Demuxing.close ⟨demux, w.blocks, w.heap⟩
    { w with blocks := closed.1, heap := closed.2 }

/-- What `remux_cmd` and `tide_repair_write` do with a demux: they create a mux, copy to it and
close it, and close the demux. After an error `tide_repair_write` `aborts` the mux, and
`remux_cmd` closes it nevertheless. -/
def Process.transfer (w : Process) (demux : HeldDemux) (options : Option MuxOptions) (path : String)
    (m : Machine) (aborts : Bool) : Status × Process :=
  let created :=
    heldMuxCreate options m.muxAllocated m.mux.opened m.mux.allocs m.mux.scratch w.blocks w.handles
  let files := if m.muxAllocated ∧ m.mux.opened then Function.update w.files path (some [])
    else w.files
  match created.mux with
  | none =>
      (created.status, Process.closeDemux ⟨created.blocks, created.files, w.heap,
        files⟩ (some demux))
  | some mux =>
    let copied := heldCopyAll ⟨demux, mux, created.blocks, w.heap⟩
    let u : Muxing := ⟨copied.2.mux, copied.2.blocks⟩
    if aborts ∧ copied.1 ≠ .ok then
      let aborted := u.abort created.files
      (copied.1, Process.closeDemux ⟨aborted.1, aborted.2, copied.2.heap, files⟩
        (some copied.2.demux))
    else
      let closed := heldMuxClose u created.files m.mux.written m.mux.flushed
      (if copied.1 = .ok then closed.1.1 else copied.1,
        Process.closeDemux ⟨closed.2.1, closed.2.2, copied.2.heap,
          Function.update files path (some (m.left closed.1.2))⟩
          (some copied.2.demux))

/-- The same apart from the memory. -/
def transferred (demux : Demux) (options : Option MuxOptions) (m : Machine)
    (aborts : Bool) : Status × Option Bytes :=
  match muxCreate options m.mux.opened m.mux.allocs m.mux.scratch with
  | (.ok, some mux) =>
    let copied := copyAll demux mux
    if aborts ∧ copied.1 ≠ .ok then (copied.1, none)
    else
      let closed := muxClose copied.2 m.mux.written m.mux.flushed
      (if copied.1 = .ok then closed.1 else copied.1, closed.2)
  | (status, _) => (status, none)

section

variable {w : Process} {rest : Multiset ℕ} {m : Machine}

/-- Closing gives back what the demux owns. -/
theorem Process.settled_closeDemux {demux : HeldDemux}
    (h : Demuxing.Owns ⟨demux, w.blocks, w.heap⟩ rest 0) (hhandles : w.handles.Owned 0) :
    (w.closeDemux (some demux)).Settled rest := by
  obtain ⟨hblocks, hleases, hmade⟩ := h.close
  have hnumbered := h.numbered
  dsimp only at hnumbered hmade
  rw [← hmade] at hnumbered
  exact ⟨hblocks, hhandles, hleases, hnumbered⟩

/-- **A transfer** gives back all but `rest`. -/
theorem Process.transfer_settled {demux : HeldDemux}
    (h : Demuxing.Owns ⟨demux, w.blocks, w.heap⟩ rest 0) (hfilled : demux.Filled)
    (hhandles : w.handles.Owned 0) (options : Option MuxOptions) (path : String) (m : Machine)
    (aborts : Bool) :
    (w.transfer demux options path m aborts).2.Settled rest := by
  have hcreate := heldMuxCreate_owns h.blocks hhandles options m.muxAllocated m.mux.opened
    m.mux.allocs m.mux.scratch
  unfold Process.transfer
  dsimp only at hcreate ⊢
  generalize heldMuxCreate options m.muxAllocated m.mux.opened m.mux.allocs m.mux.scratch w.blocks
    w.handles = created at hcreate
  generalize (if m.muxAllocated = true ∧
    m.mux.opened = true then Function.update w.files path (some []) else w.files) = files
  obtain ⟨status, mux, blocks, handles⟩ := created
  cases mux with
  | none =>
      exact Process.settled_closeDemux (w := ⟨blocks, handles, w.heap, files⟩) ⟨h.shaped, hcreate.1,
        h.leases, h.numbered⟩ hcreate.2
  | some mux =>
    obtain ⟨hmux, hfile⟩ := hcreate
    -- the new mux is beside the demux
    have hstart : Copying.Owns ⟨demux, mux, blocks, w.heap⟩ mux.file rest 0 :=
      ⟨⟨h.shaped, hmux.blocks.congr (by rw [add_left_comm]), h.leases, h.numbered⟩,
        hmux, hfilled, rfl⟩
    have hcopied := heldCopyAll_owns hstart
    dsimp only
    generalize heldCopyAll ⟨demux, mux, blocks, w.heap⟩ = copied at hcopied
    rw [← hcopied.file] at hfile
    have hgone : ∀ {blocks' : Blocks}, blocks'.Owned (copied.2.demux.owned + rest) →
        Demuxing.Owns ⟨copied.2.demux, blocks', copied.2.heap⟩ rest 0 :=
      fun hblocks => ⟨hcopied.demux.shaped, hblocks, hcopied.demux.leases, hcopied.demux.numbered⟩
    by_cases habort : aborts = true ∧ copied.1 ≠ .ok
    · rw [if_pos habort]
      obtain ⟨hblocks, hhandles'⟩ := hcopied.mux.abort hfile
      exact Process.settled_closeDemux (w := ⟨_, _, _, _⟩) (hgone hblocks) hhandles'
    · rw [if_neg habort]
      obtain ⟨hblocks, hhandles'⟩ := hcopied.mux.close hfile m.mux.written m.mux.flushed
      exact Process.settled_closeDemux (w := ⟨_, _, _, _⟩) (hgone hblocks) hhandles'

theorem Process.closeDemux_files (w : Process) (demux : Option HeldDemux) :
    (w.closeDemux demux).files = w.files := by
  cases demux <;> rfl

/-- There is a mux only if all went well. -/
theorem muxCreate_of_some {options : Option MuxOptions} {opened : Bool} {allocs : Stream' Bool}
    {scratch : Stream' (Stream' Bool)} {status : Status} {mux : Mux}
    (h : (status, some mux) = muxCreate options opened allocs scratch) :
    status = .ok ∧ opened = true := by
  unfold muxCreate at h
  dsimp only at h
  generalize writeHeader (Buffer.empty (muxLimits options).maxAggregateAlloc.toNat allocs)
    (muxTimeBase options) muxUuid = r at h
  rcases r with ⟨status', buffer⟩
  cases opened <;> cases status' <;> simp at h ⊢
  exact h.1

/-- **A transfer** does to the files what it does apart from the memory, if the mux can be
allocated. -/
theorem Process.transfer_shows {held : HeldDemux} {demux : Demux} (h : held.Shows demux)
    (options : Option MuxOptions) (path : String) (m : Machine) (aborts : Bool) :
    (w.transfer held options path m aborts).1 = (if m.muxAllocated
      then (transferred demux options m aborts).1 else .resource) ∧
      (w.transfer held options path m aborts).2.files =
        if m.muxAllocated ∧ m.mux.opened then
          Function.update w.files path (some (m.left (transferred demux options m aborts).2))
        else w.files := by
  unfold Process.transfer transferred
  cases m.muxAllocated with
  | false => exact ⟨rfl, by simp [heldMuxCreate, Blocks.malloc_false, Process.closeDemux_files]⟩
  | true =>
    have hcreate := heldMuxCreate_shows options m.mux.opened m.mux.allocs m.mux.scratch
      w.blocks w.handles
    dsimp only at hcreate ⊢
    generalize heldMuxCreate options true m.mux.opened m.mux.allocs m.mux.scratch w.blocks
      w.handles = created at hcreate
    obtain ⟨status, mux, blocks, handles⟩ := created
    cases mux with
    | none =>
      rw [← hcreate]
      refine ⟨?_, ?_⟩
      · cases status <;> rfl
      · rw [Process.closeDemux_files]
        cases status <;> rfl
    | some mux =>
      obtain ⟨rfl, hopened⟩ := muxCreate_of_some hcreate
      have hcopied := heldCopyAll_shows (c := ⟨held, mux, blocks, w.heap⟩) h
      rw [← hcreate, hopened]
      dsimp only [Option.map_some]
      rw [← hcopied]
      generalize heldCopyAll ⟨held, mux, blocks, w.heap⟩ = copied
      simp only [Prod.map_fst, Prod.map_snd, id_eq, and_self, if_true]
      by_cases habort : aborts = true ∧ copied.1 ≠ .ok
      · rw [if_pos habort, if_pos habort]
        exact ⟨rfl, Process.closeDemux_files ..⟩
      · rw [if_neg habort, if_neg habort]
        have hclose := heldMuxClose_shows ⟨copied.2.mux, copied.2.blocks⟩ handles m.mux.written
          m.mux.flushed
        dsimp only
        rw [hclose, Process.closeDemux_files, Function.update_idem]
        exact ⟨rfl, rfl⟩

/-! ### A demux that is opened and copied -/

/-- The status with which a command goes on that has opened a demux; a command that `repairs`
bears a tail. -/
def borne (repairs : Bool) (opened : Status) : Status :=
  if repairs ∧ opened = .partialTail then .ok else opened

/-- What `remux_cmd` and `tide_repair_write` do with the bytes of a source. -/
def Process.copy (w : Process) (bytes : Bytes) (demuxOptions : DemuxOptions)
    (muxOptions : Option MuxOptions) (path : String) (m : Machine)
    (repairs : Bool) : Status × Process :=
  let opened := heldOpen bytes (some demuxOptions) m.trackAllocs m.demuxAllocated w.blocks w.heap
  let w := { w with blocks := opened.blocks, heap := opened.heap }
  match borne repairs opened.status, opened.demux with
  | .ok, some demux => w.transfer demux muxOptions path m repairs
  | status, demux => (status, w.closeDemux demux)

/-- The same apart from the memory. -/
def copied (bytes : Bytes) (demuxOptions : DemuxOptions) (muxOptions : Option MuxOptions)
    (m : Machine) (repairs : Bool) : Status × Option Bytes :=
  let opened := demuxOpen bytes (some demuxOptions) m.trackAllocs m.allocs
  match borne repairs opened.1, opened.2 with
  | .ok, some demux => transferred demux muxOptions m repairs
  | status, _ => (status, none)

/-- A copy gives back all but `rest`. -/
theorem Process.copy_settled (h : w.Settled rest) (bytes : Bytes) (demuxOptions : DemuxOptions)
    (muxOptions : Option MuxOptions) (path : String) (m : Machine) (repairs : Bool) :
    (w.copy bytes demuxOptions muxOptions path m repairs).2.Settled rest := by
  have hopen := heldOpen_owns h.blocks h.leases h.numbered bytes (some demuxOptions) m.trackAllocs
    m.demuxAllocated
  have hfilled := @heldOpen_filled bytes (some demuxOptions) m.trackAllocs m.demuxAllocated
    w.blocks w.heap
  unfold Process.copy
  dsimp only at hopen ⊢
  generalize heldOpen bytes (some demuxOptions) m.trackAllocs m.demuxAllocated w.blocks w.heap =
    opened at hopen hfilled
  obtain ⟨status, demux, blocks, heap⟩ := opened
  generalize borne repairs _ = status'
  cases demux with
  | none =>
    have hnone : Process.Settled { w with blocks := blocks, heap := heap } rest :=
      ⟨hopen.1, h.handles, hopen.2.1, hopen.2.2⟩
    cases status' <;> exact hnone
  | some demux =>
    have hclose := Process.settled_closeDemux (w := { w with blocks := blocks, heap := heap })
      hopen h.handles
    by_cases hok : status' = .ok
    · rw [hok]
      exact Process.transfer_settled (w := { w with blocks := blocks, heap := heap }) hopen
        (hfilled rfl) h.handles muxOptions path m repairs
    · cases status' <;> first | exact absurd rfl hok | exact hclose

/-- **A copy** does to the files what it does apart from the memory, if the demux and the mux can
be allocated. -/
theorem Process.copy_shows (hallocs : w.heap.allocs = m.allocs) (bytes : Bytes)
    (demuxOptions : DemuxOptions) (muxOptions : Option MuxOptions) (path : String) (repairs : Bool)
    (hstrict : demuxOptions.strict = false) :
    let status := borne repairs (demuxOpen bytes (some demuxOptions) m.trackAllocs m.allocs).1
    let r := w.copy bytes demuxOptions muxOptions path m repairs
    let r' := copied bytes demuxOptions muxOptions m repairs
    if !m.demuxAllocated ∨ status = .ok ∧ !m.muxAllocated then r.1 = .resource ∧ r.2.files = w.files
    else
      r.1 = r'.1 ∧ r.2.files = if creates m status
        then Function.update w.files path (some (m.left r'.2)) else w.files := by
  unfold Process.copy copied
  cases hdemux : m.demuxAllocated with
  | false =>
    rw [heldOpen, Blocks.malloc_false]
    simp [borne, Process.closeDemux]
  | true =>
    have hopen := heldOpen_shows bytes (some demuxOptions) m.trackAllocs w.blocks w.heap
    -- with a status that a command goes on with there is a demux
    have hsome : borne repairs (demuxOpen bytes (some demuxOptions) m.trackAllocs m.allocs).1 =
        .ok → ∃ demux, (demuxOpen bytes (some demuxOptions) m.trackAllocs m.allocs).2 =
          some demux :=
          fun h => by
      have hopened : (demuxOpen bytes (some demuxOptions) m.trackAllocs m.allocs).1 = .ok ∨
          (demuxOpen bytes (some demuxOptions) m.trackAllocs m.allocs).1 = .partialTail := by
        unfold borne at h
        split_ifs at h with htail
        · exact .inr htail.2
        · exact .inl h
      obtain ⟨demux, hdemux⟩ := exists_demuxOpen_iff.mpr ⟨(demuxOpen_fst ..).symm,
        hopened.imp id fun htail => ⟨htail, by simp [hstrict]⟩⟩
      exact ⟨demux, congrArg Prod.snd hdemux⟩
    rw [hallocs] at hopen
    dsimp only at hopen hsome ⊢
    generalize heldOpen bytes (some demuxOptions) m.trackAllocs true w.blocks w.heap =
      opened at hopen
    generalize demuxOpen bytes (some demuxOptions) m.trackAllocs m.allocs = opened' at hopen hsome
    obtain ⟨status, held, blocks, heap⟩ := opened
    obtain ⟨status', demux⟩ := opened'
    obtain ⟨rfl, hshows⟩ := hopen
    dsimp only at hshows hsome ⊢
    generalize borne repairs status = status' at hsome
    by_cases hok : status' = .ok
    · obtain ⟨demux, rfl⟩ := hsome hok
      subst hok
      cases hshows with
      | some hshows =>
        have htransfer := Process.transfer_shows (w := { w with blocks := blocks, heap := heap })
          hshows muxOptions path m repairs
        dsimp only
        cases hmux : m.muxAllocated with
        | false => simpa [hmux] using htransfer
        | true => simpa [hmux, creates] using htransfer
    · cases status' <;> first | exact absurd rfl hok | simp [creates, Process.closeDemux_files]

/-- `remux` bears no tail, and closes its mux in any case. -/
theorem remux_eq (source : Bytes) :
    remux source m.trackAllocs m.allocs m.mux = copied source remuxDemuxOptions
      (some remuxMuxOptions) m false := by
  unfold remux copied borne transferred
  simp only [Bool.false_eq_true, false_and, if_false]
  rcases demuxOpen source (some remuxDemuxOptions) m.trackAllocs m.allocs with ⟨status, demux⟩
  dsimp only
  cases status <;> cases demux <;> rfl

/-- `repairWrite` bears a tail, and aborts its mux on an error. -/
theorem repairWrite_eq {plan : RepairPlan} (h : plan.validPrefix ≠ 0) :
    repairWrite plan m.trackAllocs m.allocs m.mux = copied (plan.source.take plan.validPrefix)
      repairDemuxOptions none m true := by
  unfold repairWrite copied borne transferred
  rw [if_neg h]
  simp only [true_and]
  rcases demuxOpen (plan.source.take plan.validPrefix) (some repairDemuxOptions) m.trackAllocs
    m.allocs with ⟨opened, demux⟩
  dsimp only
  generalize (if opened = .partialTail then Status.ok else opened) = status
  cases status <;> cases demux <;> try rfl
  generalize muxCreate none m.mux.opened m.mux.allocs m.mux.scratch = created
  rcases created with ⟨status, mux⟩
  cases status <;> cases mux <;> try rfl
  dsimp only
  generalize copyAll _ _ = r
  rcases r with ⟨status, mux⟩
  cases status <;> simp

/-- The valid prefix is of the bytes that are scanned. -/
theorem repairScan_validPrefix_le (source : Bytes) (options : Option RepairOptions)
    (trackAllocs : Stream' Bool) :
    (repairScan source options trackAllocs).2.validPrefix ≤ source.length := by
  unfold repairScan parseTideBytes
  dsimp only
  cases hheader : validateHeader source _ with
  | error e => exact Nat.zero_le _
  | ok _ =>
    have hlong : 72 ≤ source.length := length_of_validateHeader hheader
    exact (kept_validPrefix source.length).parseRecords (Nat.le_refl _) hlong source 72 0

end

/-! ### The commands -/

/-- The loop over the streams of `inspect_cmd`, from `index` on. -/
def heldInspectStreams (demux : HeldDemux) : (left index : ℕ) → Blocks → List String × Blocks
  | 0, _, blocks => ([], blocks)
  | left + 1, index, blocks =>
    let info := demux.streamInfo blocks index
    let rest := heldInspectStreams demux left (index + 1) info.2
    (info.1.toList.map streamLine ++ rest.1, rest.2)

/-- `inspect_cmd`. -/
def heldInspectCmd (w : Process) (path : String) (m : Machine) : Outcome × Process :=
  let sourced := heldSourceFromFile w path m.source
  let w := sourced.2.2
  match sourced.2.1 with
  | none => (finish "source" sourced.1 [] w.files, w)
  | some source =>
    let opened := heldOpen source.bytes (some inspectDemuxOptions) m.trackAllocs m.demuxAllocated
      (source.read w.blocks) w.heap
    match opened.demux with
    | none =>
        (finish "decode" opened.status [] w.files, { w with blocks := source.destroy opened.blocks,
                                                            heap := opened.heap })
    | some demux =>
      let lines :=
        heldInspectStreams demux demux.streams.length 0 (opened.blocks.touch (some demux.self))
      let w := Process.closeDemux ⟨lines.2, w.handles, opened.heap, w.files⟩ (some demux)
      (⟨statusToExit opened.status,
          ("status=" ++ statusString opened.status) ::
            ("streams=" ++ toString demux.streams.length) :: lines.1, [], w.files⟩,
        { w with blocks := source.destroy w.blocks })

/-- `remux_cmd`. -/
def heldRemuxCmd (w : Process) (inPath outPath : String) (m : Machine) : Outcome × Process :=
  let sourced := heldSourceFromFile w inPath m.source
  let w := sourced.2.2
  match sourced.2.1 with
  | none => (finish "remux" sourced.1 [] w.files, w)
  | some source =>
    let w := { w with blocks := source.read w.blocks }
    let r := w.copy source.bytes remuxDemuxOptions (some remuxMuxOptions) outPath m false
    (finish "remux" r.1 [] r.2.files, { r.2 with blocks := source.destroy r.2.blocks })

/-- `tide_repair_write`. Of the two allocations for the source of the prefix, `prefixRoom` tells
which one fails if one does. -/
def heldRepairWrite (w : Process) (plan : RepairPlan) (source : HeldSource) (path : String)
    (m : Machine) (prefixRoom : Bool) : Status × Process :=
  if plan.validPrefix = 0 then (.invalidArgument, w)
  else
    let sourced := heldSourceFromMemory (source.read w.blocks) (plan.source.take plan.validPrefix)
      (m.prefixAllocated || prefixRoom)
      m.prefixAllocated
    match sourced.2.1 with
    | none => (sourced.1, { w with blocks := sourced.2.2 })
    | some source =>
      let w := { w with blocks := source.read sourced.2.2 }
      let r := w.copy source.bytes repairDemuxOptions none path m true
      (r.1, { r.2 with blocks := source.destroy r.2.blocks })

/-- `repair_cmd`, with the block of the plan. -/
def heldRepairCmd (w : Process) (inPath outPath : String) (m : Machine)
    (prefixRoom : Bool) : Outcome × Process :=
  let sourced := heldSourceFromFile w inPath m.source
  let w := sourced.2.2
  match sourced.2.1 with
  | none => (finish "repair" sourced.1 [] w.files, w)
  | some source =>
    match w.blocks.malloc m.planAllocated with
    | (none, blocks) =>
        (finish "repair" .resource [] w.files, { w with blocks := source.destroy blocks })
    | (some self, blocks) =>
      let scanned := repairScan source.bytes none m.scanAllocs
      let w := { w with blocks := (source.read blocks).touch (some self) }
      if scanned.1 = .ok ∨ scanned.1 = .partialTail then
        let r := heldRepairWrite w scanned.2 source outPath m prefixRoom
        (finish "repair" r.1 ["valid_prefix=" ++ toString scanned.2.validPrefix] r.2.files,
          { r.2 with blocks := source.destroy (r.2.blocks.free (some self)) })
      else
        (finish "repair" scanned.1 [] w.files,
          { w with blocks := source.destroy (w.blocks.free (some self)) })

/-- `main`, from where nothing is allocated. -/
def heldMain (files : Files) (argv : List String) (m : Machine)
    (prefixRoom : Bool) : Outcome × Process :=
  let w : Process := ⟨.empty, .empty, ⟨.empty, 1, m.allocs⟩, files⟩
  match argv with
  | [_, command, path] =>
    if command = "inspect" then heldInspectCmd w path m
    else if command = "demux" then heldInspectCmd w path m
    else if command = "index" then heldInspectCmd w path m
    else (usage files, w)
  | [_, command, inPath, outPath] =>
    if command = "remux" then heldRemuxCmd w inPath outPath m
    else if command = "repair" then heldRepairCmd w inPath outPath m prefixRoom
    else (usage files, w)
  | _ => (usage files, w)

/-! ### What a run leaves -/

/-- The streams are printed one by one. -/
theorem heldInspectStreams_eq {demux : HeldDemux} {blocks : Blocks}
    (h : ∀ i, demux.streamInfo blocks i = (demux.streams[i]?, blocks)) {left index : ℕ}
    (hleft : index + left = demux.streams.length) :
    heldInspectStreams demux left index blocks = ((demux.streams.drop index).map streamLine,
      blocks) := by
  induction left generalizing index with
  | zero =>
    rw [List.drop_eq_nil_of_le (by omega)]
    rfl
  | succ left ih =>
    have hlt : index < demux.streams.length := by omega
    unfold heldInspectStreams
    dsimp only
    rw [h, ih (by omega), List.drop_eq_getElem_cons hlt, List.getElem?_eq_getElem hlt]
    rfl

section

variable {w : Process} {m : Machine}

theorem heldInspectCmd_owns (h : w.Settled 0) (hallocs : w.heap.allocs = m.allocs) (path : String) :
    (heldInspectCmd w path m).1 = inspectCmd w.files path m ∧
      (heldInspectCmd w path m).2.Settled 0 := by
  unfold heldInspectCmd inspectCmd
  obtain ⟨status, w', hheld, hne, hplain, hfiles, hsettled⟩ | ⟨source, w', hheld, hplain, hfiles,
      hheap, hblock, hsettled⟩ :=
    heldSourceFromFile_cases h path m.source
  · rw [hheld, hplain, ← hfiles]
    cases status <;> first | exact absurd rfl hne | exact ⟨rfl, hsettled⟩
  rw [hheld, hplain, ← hfiles]
  rw [← hheap] at hallocs
  dsimp only
  rw [source.read_owned hsettled.blocks hblock]
  have hopen := heldOpen_owns hsettled.blocks hsettled.leases hsettled.numbered source.bytes
    (some inspectDemuxOptions) m.trackAllocs
    m.demuxAllocated
  cases hdemux : m.demuxAllocated with
  | false =>
    rw [heldOpen, Blocks.malloc_false]
    exact ⟨rfl, hsettled.setBlocks (HeldSource.destroy_owned hsettled.blocks)⟩
  | true =>
    have hshows := heldOpen_shows source.bytes (some inspectDemuxOptions) m.trackAllocs
      w'.blocks w'.heap
    rw [hdemux] at hopen
    rw [hallocs] at hshows
    dsimp only at hopen hshows ⊢
    generalize heldOpen source.bytes (some inspectDemuxOptions) m.trackAllocs true w'.blocks
      w'.heap = opened at hopen hshows
    generalize demuxOpen source.bytes (some inspectDemuxOptions) m.trackAllocs m.allocs =
      opened' at hshows
    obtain ⟨status, held, blocks, heap⟩ := opened
    obtain ⟨status', demux⟩ := opened'
    obtain ⟨rfl, hshows⟩ := hshows
    rw [if_neg (by simp)]
    cases hshows with
    | none => exact ⟨rfl, HeldSource.destroy_owned hopen.1, hsettled.handles, hopen.2.1, hopen.2.2⟩
    | some hshows =>
      rename_i held demux
      have htouch : blocks.touch (some held.self) = blocks :=
        hopen.blocks.touch (by simp [HeldDemux.owned])
      dsimp only
      rw [htouch, heldInspectStreams_eq hopen.streamInfo (Nat.zero_add _), inspectLines_eq,
        hshows.streams]
      have hclosed := Process.settled_closeDemux (w := { w' with blocks := blocks, heap := heap })
        hopen hsettled.handles
      exact ⟨rfl, hclosed.setBlocks (HeldSource.destroy_owned hclosed.blocks)⟩

theorem heldRemuxCmd_owns (h : w.Settled 0) (hallocs : w.heap.allocs = m.allocs)
    (inPath outPath : String) :
    (heldRemuxCmd w inPath outPath m).1 = remuxCmd w.files inPath outPath m ∧
      (heldRemuxCmd w inPath outPath m).2.Settled 0 := by
  unfold heldRemuxCmd remuxCmd
  obtain ⟨status, w', hheld, hne, hplain, hfiles, hsettled⟩ | ⟨source, w', hheld, hplain, hfiles,
      hheap, hblock, hsettled⟩ :=
    heldSourceFromFile_cases h inPath m.source
  · rw [hheld, hplain, ← hfiles]
    cases status <;> first | exact absurd rfl hne | exact ⟨rfl, hsettled⟩
  rw [hheld, hplain, ← hfiles]
  rw [← hheap] at hallocs
  dsimp only
  rw [source.read_owned hsettled.blocks hblock]
  have hcopied := Process.copy_settled hsettled source.bytes remuxDemuxOptions
    (some remuxMuxOptions) outPath m false
  have hshows := Process.copy_shows hallocs source.bytes remuxDemuxOptions (some remuxMuxOptions)
    outPath false rfl
  refine ⟨?_, hcopied.setBlocks (HeldSource.destroy_owned hcopied.blocks)⟩
  rw [remux_eq]
  dsimp only [borne] at hshows
  simp only [Bool.false_eq_true, false_and, if_false] at hshows
  change finish "remux" (w'.copy ..).1 [] (w'.copy ..).2.files = _
  split_ifs at hshows ⊢ <;> rw [hshows.1, hshows.2]

/-- **Writing a repair** leaves the source and the plan, and does to the files what
`repairWriteFile` does. -/
theorem heldRepairWrite_owns {rest : Multiset ℕ} {source : HeldSource}
    (h : w.Settled (source.owned + rest)) (hallocs : w.heap.allocs = m.allocs)
    (hblock : source.bytes.length ≠ 0 → source.block ≠ none) {plan : RepairPlan}
    (hle : plan.validPrefix ≤ plan.source.length) (path : String) (prefixRoom : Bool) :
    let r := heldRepairWrite w plan source path m prefixRoom
    (r.1, r.2.files) = repairWriteFile w.files plan path m ∧ r.2.Settled (source.owned + rest) := by
  unfold heldRepairWrite repairWriteFile
  by_cases hzero : plan.validPrefix = 0
  · rw [if_pos hzero, if_pos hzero]
    exact ⟨rfl, h⟩
  rw [if_neg hzero, if_neg hzero, source.read_owned h.blocks hblock]
  have hlength : (plan.source.take plan.validPrefix).length ≠ 0 := by
    rw [List.length_take]
    omega
  have hcases := heldSourceFromMemory_owns h.blocks (plan.source.take plan.validPrefix)
    (m.prefixAllocated || prefixRoom) m.prefixAllocated
    hlength
  generalize heldSourceFromMemory w.blocks (plan.source.take plan.validPrefix)
    (m.prefixAllocated || prefixRoom) m.prefixAllocated = sourced
    at hcases
  obtain ⟨status, held, blocks⟩ := sourced
  dsimp only at hcases ⊢
  obtain ⟨hroom, rfl, rfl, howned⟩ | ⟨hroom, rfl, held, rfl, howned, hbytes, hheld⟩ := hcases
  · have hallocated : m.prefixAllocated = false := by
      cases hallocated : m.prefixAllocated with
      | false => rfl
      | true => simp [hallocated] at hroom
    rw [if_pos (.inl (by simp [hallocated]))]
    exact ⟨rfl, h.setBlocks howned⟩
  have hallocated : m.prefixAllocated = true := by
    cases hallocated : m.prefixAllocated with
    | false => simp [hallocated] at hroom
    | true => rfl
  dsimp only
  rw [held.read_owned howned (fun _ => hheld), hbytes, repairWrite_eq hzero, hallocated]
  have hcopied := Process.copy_settled (h.setBlocks howned) (plan.source.take plan.validPrefix)
    repairDemuxOptions none path m true
  have hshows := Process.copy_shows (w := { w with blocks := blocks }) hallocs
    (plan.source.take plan.validPrefix) repairDemuxOptions none
    path true rfl
  refine ⟨?_, hcopied.setBlocks (HeldSource.destroy_owned hcopied.blocks)⟩
  have hstatus : borne true (demuxOpen (plan.source.take plan.validPrefix) (some repairDemuxOptions)
      m.trackAllocs m.allocs).1 = prefixStatus plan m := by simp [borne, prefixStatus]
  dsimp only at hshows ⊢
  rw [hstatus] at hshows
  rw [Bool.not_true]
  simp only [Bool.false_eq_true, false_or]
  split_ifs at hshows ⊢ <;> exact Prod.ext hshows.1 hshows.2

theorem heldRepairCmd_owns (h : w.Settled 0) (hallocs : w.heap.allocs = m.allocs)
    (inPath outPath : String) (prefixRoom : Bool) :
    (heldRepairCmd w inPath outPath m prefixRoom).1 = repairCmd w.files inPath outPath m ∧
      (heldRepairCmd w inPath outPath m prefixRoom).2.Settled 0 := by
  unfold heldRepairCmd repairCmd
  obtain ⟨status, w', hheld, hne, hplain, hfiles, hsettled⟩ | ⟨source, w', hheld, hplain, hfiles,
      hheap, hblock, hsettled⟩ :=
    heldSourceFromFile_cases h inPath m.source
  · rw [hheld, hplain, ← hfiles]
    cases status <;> first | exact absurd rfl hne | exact ⟨rfl, hsettled⟩
  rw [hheld, hplain, ← hfiles]
  rw [← hheap] at hallocs
  dsimp only
  obtain ⟨hnone, hplan⟩ | ⟨self, blocks, hmalloc, howned, hplan⟩ :=
    hsettled.blocks.malloc m.planAllocated
  · rw [hnone, hplan]
    exact ⟨rfl, hsettled.setBlocks (HeldSource.destroy_owned hsettled.blocks)⟩
  rw [hmalloc]
  replace howned : blocks.Owned (source.owned + (self ::ₘ 0)) :=
    howned.congr (by simp [← Multiset.singleton_add, add_comm])
  dsimp only
  rw [hplan, source.read_owned howned hblock, howned.touch (by simp)]
  -- the plan and then the source are gone in the end
  have hgone : ∀ {v : Process}, v.Settled (source.owned + (self ::ₘ 0)) →
      Process.Settled { v with blocks := source.destroy (v.blocks.free (some self)) } 0 :=
        fun {v} hv => by
    have hplanned : v.blocks.Owned (self ::ₘ (source.owned + 0)) :=
      hv.blocks.congr (by simp [← Multiset.singleton_add, add_comm])
    exact hv.setBlocks (HeldSource.destroy_owned hplanned.free_cons)
  have hw : Process.Settled { w' with blocks := blocks } (source.owned + (self ::ₘ 0)) :=
    hsettled.setBlocks howned
  have hle := repairScan_validPrefix_le source.bytes none m.scanAllocs
  have hsource : (repairScan source.bytes none m.scanAllocs).2.source = source.bytes := rfl
  rw [if_neg (show ¬ (!true) = true by simp)]
  generalize repairScan source.bytes none m.scanAllocs = scanned at hle hsource
  by_cases hscanned : scanned.1 = .ok ∨ scanned.1 = .partialTail
  · rw [if_pos hscanned, if_pos hscanned]
    obtain ⟨hwritten, hsettled'⟩ := heldRepairWrite_owns hw hallocs hblock (hsource ▸ hle)
      outPath prefixRoom
    refine ⟨?_, hgone hsettled'⟩
    rw [← hwritten]
  · rw [if_neg hscanned, if_neg hscanned]
    exact ⟨rfl, hgone hw⟩

/-- **What a run of the program leaves**: whatever is asked of it, whatever the files are and
whatever the machine refuses, it uses and gives back only what is there, nothing is left when it
is done, and it is the program. -/
theorem main_owns (files : Files) (argv : List String) (m : Machine) (prefixRoom : Bool) :
    (heldMain files argv m prefixRoom).1 = main files argv m ∧
      (heldMain files argv m prefixRoom).2.Settled 0 := by
  have hstart : Process.Settled ⟨.empty, .empty, ⟨.empty, 1, m.allocs⟩, files⟩ 0 :=
    ⟨Blocks.owned_empty, Blocks.owned_empty, RefCounts.balanced_empty, by simp [RefCounts.empty]⟩
  unfold heldMain main
  rcases argv with _ | ⟨program, _ | ⟨command, _ | ⟨inPath, _ | ⟨outPath, _ | ⟨extra, rest⟩⟩⟩⟩⟩
  · exact ⟨rfl, hstart⟩
  · exact ⟨rfl, hstart⟩
  · exact ⟨rfl, hstart⟩
  · dsimp only
    split_ifs
    · exact heldInspectCmd_owns hstart rfl inPath
    · exact heldInspectCmd_owns hstart rfl inPath
    · exact heldInspectCmd_owns hstart rfl inPath
    · exact ⟨rfl, hstart⟩
  · dsimp only
    split_ifs
    · exact heldRemuxCmd_owns hstart rfl inPath outPath
    · exact heldRepairCmd_owns hstart rfl inPath outPath prefixRoom
    · exact ⟨rfl, hstart⟩
  · exact ⟨rfl, hstart⟩

end

end Cli

end Tide
