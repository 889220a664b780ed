import Tide.Repair.Salvage

/-!
# The program

The model of `src/cli/main.c` on the files of a machine, with `tide_source_from_file` and
`tide_status_string`. A command reads one file whole and then writes at most one, so what it does
to the files is said by its source, its status and what it leaves of the file it writes
(`remuxCmd_cases`, `repairCmd_cases`, `main_cases`).

* `main_frame`: no file is changed but the one that `remux` or `repair` is to write.
* `repair_leaves`: what a repair leaves there that fails.
-/

namespace Tide.Cli

/-- `tide_status_string`. -/
def statusString : Status → String
  | .ok => "OK"
  | .partialTail => "PARTIAL"
  | .wouldBlock => "WOULD_BLOCK"
  | .cancelled => "CANCELLED"
  | .invalidArgument => "INVALID_ARGUMENT"
  | .format => "FORMAT"
  | .truncated => "TRUNCATED"
  | .unsupported => "UNSUPPORTED"
  | .integrity => "INTEGRITY"
  | .timeline => "TIMELINE"
  | .index => "INDEX"
  | .resource => "RESOURCE"
  | .io => "IO"
  | .internal => "INTERNAL"

/-- The bytes of the files that are there, by their paths. -/
abbrev Files := String → Option Bytes

/-- The outcomes of the calls with which a source is read: `fopen`, the two `fseek`, `ftell` and
`fread`, and the two allocations. -/
structure SourceEnv where
  opened : Bool
  soughtEnd : Bool
  told : Bool
  soughtSet : Bool
  allocated : Bool
  dataAllocated : Bool
  read : Bool

/-- `tide_source_from_file`. The length is a `long`. -/
def sourceFromFile (files : Files) (path : String) (env : SourceEnv) : Status × Option Bytes :=
  match files path with
  | none => (.io, none)
  | some bytes =>
    if !env.opened then (.io, none)
    else if !env.soughtEnd then (.io, none)
    else if !env.told ∨ 2 ^ 63 ≤ bytes.length then (.io, none)
    else if !env.soughtSet then (.io, none)
    else if !env.allocated then (.resource, none)
    else if bytes.length ≠ 0 ∧ !env.dataAllocated then (.resource, none)
    else if bytes.length ≠ 0 ∧ !env.read then (.io, none)
    else (.ok, some bytes)

/-- What a command asks of the machine: the outcomes of its calls, one of each kind, and how much
of a file is there of which writing or closing fails. -/
structure Machine where
  source : SourceEnv
  planAllocated : Bool
  scanAllocs : Stream' Bool
  prefixAllocated : Bool
  demuxAllocated : Bool
  trackAllocs : Stream' Bool
  allocs : Stream' Bool
  muxAllocated : Bool
  mux : MuxEnv
  reached : ℕ

/-- The bytes of a file that was opened to be written, when the mux is gone: those that were
handed to `fwrite`, if any. -/
def Machine.left (m : Machine) : Option Bytes → Bytes
  | none => []
  | some bytes => if m.mux.written ∧ m.mux.flushed then bytes else bytes.take m.reached

/-- What there is when the program is done: its exit code, the lines it has printed, and the
files. -/
structure Outcome where
  exit : ℕ
  out : List String
  err : List String
  files : Files

/-- The end of a command: a status that is not `OK` is printed. -/
def finish (name : String) (status : Status) (out : List String) (files : Files) : Outcome :=
  ⟨statusToExit status, out,
    if status = .ok then [] else [name ++ ": " ++ statusString status], files⟩

/-! ### The commands -/

/-- The line of a stream. -/
def streamLine (stream : StreamInfo) : String :=
  "stream track=" ++ toString stream.trackId ++ " generation=" ++ toString stream.generation ++
    " time_base=" ++
    toString stream.timeBase.numerator ++ "/" ++ toString stream.timeBase.denominator ++
      " codec=" ++ toString stream.codecTag

/-- What `inspect_cmd` prints of a demux that was opened with the status. -/
def inspectLines (status : Status) (demux : Demux) : List String :=
  ("status=" ++ statusString status) :: ("streams=" ++ toString (demuxStreamCount demux)) ::
    (List.range (demuxStreamCount demux)).filterMap fun i =>
      match demuxStreamInfo demux i with
      | (.ok, some stream) => some (streamLine stream)
      | _ => none

/-- The `options` of `inspect_cmd`. -/
def inspectDemuxOptions : DemuxOptions := ⟨limitsDefault, 0, false⟩

/-- `inspect_cmd`. -/
def inspectCmd (files : Files) (path : String) (m : Machine) : Outcome :=
  match sourceFromFile files path m.source with
  | (.ok, some source) =>
    if !m.demuxAllocated then finish "decode" .resource [] files
    else
      match demuxOpen source (some inspectDemuxOptions) m.trackAllocs m.allocs with
      | (status, some demux) => ⟨statusToExit status, inspectLines status demux, [], files⟩
      | (status, none) => finish "decode" status [] files
  | (status, _) => finish "source" status [] files

/-- A command comes to open the file that it is to write. -/
def creates (m : Machine) (opened : Status) : Prop := opened = .ok ∧ m.mux.opened

instance (m : Machine) (opened : Status) :
    Decidable (creates m opened) := inferInstanceAs (Decidable (_ ∧ _))

/-- `remux_cmd`; `Tide.remux` is what it does with a source, a demux and a mux for which there was
memory. -/
def remuxCmd (files : Files) (inPath outPath : String) (m : Machine) : Outcome :=
  match sourceFromFile files inPath m.source with
  | (.ok, some source) =>
    let opened := (demuxOpen source (some remuxDemuxOptions) m.trackAllocs m.allocs).1
    if !m.demuxAllocated ∨ opened = .ok ∧ !m.muxAllocated then finish "remux" .resource [] files
    else
      let r := remux source m.trackAllocs m.allocs m.mux
      finish "remux" r.1 [] (if creates m opened
        then Function.update files outPath (some (m.left r.2)) else files)
  | (status, _) => finish "remux" status [] files

/-- The status with which `tide_repair_write` goes on to the mux. -/
def prefixStatus (plan : RepairPlan) (m : Machine) : Status :=
  let opened := (demuxOpen (plan.source.take plan.validPrefix) (some repairDemuxOptions)
    m.trackAllocs m.allocs).1
  if opened = .partialTail then .ok else opened

/-- `tide_repair_write` on the files; `Tide.repairWrite` is what it does if there was memory for the
source of the prefix, the demux and the mux. -/
def repairWriteFile (files : Files) (plan : RepairPlan) (path : String)
    (m : Machine) : Status × Files :=
  if plan.validPrefix = 0 then (.invalidArgument, files)
  else if !m.prefixAllocated ∨ !m.demuxAllocated ∨ prefixStatus plan m = .ok ∧ !m.muxAllocated then
    (.resource, files)
  else
    let r := repairWrite plan m.trackAllocs m.allocs m.mux
    (r.1, if creates m (prefixStatus plan m) then Function.update files path (some (m.left r.2))
      else files)

/-- `repair_cmd`. -/
def repairCmd (files : Files) (inPath outPath : String) (m : Machine) : Outcome :=
  match sourceFromFile files inPath m.source with
  | (.ok, some source) =>
    if !m.planAllocated then finish "repair" .resource [] files
    else
      let scanned := repairScan source none m.scanAllocs
      if scanned.1 = .ok ∨ scanned.1 = .partialTail then
        let r := repairWriteFile files scanned.2 outPath m
        finish "repair" r.1 ["valid_prefix=" ++ toString scanned.2.validPrefix] r.2
      else finish "repair" scanned.1 [] files
  | (status, _) => finish "repair" status [] files

/-- `usage`, and the return with 2. -/
def usage (files : Files) : Outcome where
  exit := 2
  out := []
  err := ["usage:", "  tide inspect <file>", "  tide demux <file>", "  tide remux <in> <out>",
    "  tide index <file>", "  tide repair <in> <out>"]
  files := files

/-- `main`. -/
def main (files : Files) (argv : List String) (m : Machine) : Outcome :=
  match argv with
  | [_, command, path] =>
    if command = "inspect" then inspectCmd files path m
    else if command = "demux" then inspectCmd files path m
    else if command = "index" then inspectCmd files path m
    else usage files
  | [_, command, inPath, outPath] =>
    if command = "remux" then remuxCmd files inPath outPath m
    else if command = "repair" then repairCmd files inPath outPath m
    else usage files
  | _ => usage files

/-! ### What a command does to the files -/

theorem statusToExit_eq_zero_iff (status : Status) : statusToExit status = 0 ↔ status = .ok := by
  cases status <;> simp [statusToExit]

@[simp] theorem finish_exit (name : String) (status : Status) (out : List String) (files : Files) :
    (finish name status out files).exit = statusToExit status := rfl

@[simp] theorem finish_files (name : String) (status : Status) (out : List String) (files : Files) :
    (finish name status out files).files = files := rfl

/-- A source is the whole file. -/
theorem sourceFromFile_cases (files : Files) (path : String) (env : SourceEnv) :
    (∃ source, sourceFromFile files path env = (.ok, some source) ∧ files path = some source ∧
      source.length ≤ sizeMax) ∨
      ∃ status, status ≠ .ok ∧ sourceFromFile files path env = (status, none) := by
  unfold sourceFromFile
  cases hfile : files path with
  | none => exact .inr ⟨.io, by simp, rfl⟩
  | some bytes =>
    dsimp only
    split_ifs
    · exact .inr ⟨.io, by simp, rfl⟩
    · exact .inr ⟨.io, by simp, rfl⟩
    · exact .inr ⟨.io, by simp, rfl⟩
    · exact .inr ⟨.io, by simp, rfl⟩
    · exact .inr ⟨.resource, by simp, rfl⟩
    · exact .inr ⟨.resource, by simp, rfl⟩
    · exact .inr ⟨.io, by simp, rfl⟩
    · rename_i hlong _ _ _ _
      have hlt : bytes.length < 2 ^ 63 := by
        by_contra hle
        exact hlong (.inr (Nat.le_of_not_lt hle))
      exact .inl ⟨bytes, rfl, rfl, by rw [sizeMax]; omega⟩

/-- A mux that is closed hands its bytes to `fwrite`, and then it is up to the machine, or it does
not. -/
theorem muxClose_cases (mux : Mux) (written flushed : Bool) :
    ((muxClose mux written flushed).1 ≠ .ok ∧ (muxClose mux written flushed).2 = none) ∨
      ∃ bytes, (muxClose mux written flushed).2 = some bytes ∧
        ((muxClose mux written flushed).1 = .ok ↔ written = true ∧ flushed = true) := by
  unfold muxClose
  generalize mux.finish = r
  rcases r with ⟨status, mux'⟩
  cases status <;> cases written <;> cases flushed <;> simp

/-- A command that copies is done with `OK` if the file was opened, written and closed. -/
theorem remux_ok {source : Bytes} {trackAllocs allocs : Stream' Bool} {env : MuxEnv}
    (h : (remux source trackAllocs allocs env).1 = .ok) :
    env.opened = true ∧ env.written = true ∧ env.flushed = true ∧
      ∃ bytes, remux source trackAllocs allocs env = (.ok, some bytes) := by
  obtain ⟨demux, hopen⟩ := demuxOpen_of_ok (demuxOpen_of_remux h)
  unfold remux at h ⊢
  rw [hopen] at h ⊢
  dsimp only at h ⊢
  by_cases hcreated : (muxCreate (some remuxMuxOptions) env.opened env.allocs env.scratch).1 = .ok
  · obtain ⟨hopened, mux, hcreate⟩ := muxCreate_of_ok hcreated
    rw [hcreate] at h ⊢
    dsimp only at h ⊢
    split_ifs at h ⊢ with hcopied
    · obtain ⟨hne, -⟩ | ⟨bytes, hbytes, hok⟩ :=
        muxClose_cases (copyAll demux mux).2 env.written env.flushed
      · exact absurd h hne
      · obtain ⟨hwritten, hflushed⟩ := hok.mp h
        exact ⟨hopened, hwritten, hflushed, bytes, Prod.ext h hbytes⟩
    · exact absurd h hcopied
  · generalize muxCreate (some remuxMuxOptions) env.opened env.allocs env.scratch = r at h hcreated
    rcases r with ⟨status, mux⟩
    cases status <;> first | exact absurd rfl hcreated | simp at h

/-- A repair that comes to close its mux has opened the file; one that does not writes nothing. -/
theorem repairWrite_cases (plan : RepairPlan) (m : Machine) :
    ((repairWrite plan m.trackAllocs m.allocs m.mux).1 ≠ .ok ∧
      (repairWrite plan m.trackAllocs m.allocs m.mux).2 = none) ∨
      plan.validPrefix ≠ 0 ∧ creates m (prefixStatus plan m) ∧
        ∃ mux, repairWrite plan m.trackAllocs m.allocs m.mux =
          muxClose mux m.mux.written m.mux.flushed := by
  unfold repairWrite creates prefixStatus
  by_cases hzero : plan.validPrefix = 0
  · rw [if_pos hzero]
    exact .inl ⟨by simp, rfl⟩
  rw [if_neg hzero]
  dsimp only
  rcases hopen : demuxOpen (plan.source.take plan.validPrefix) (some repairDemuxOptions)
    m.trackAllocs m.allocs with ⟨opened, demux⟩
  generalize hstatus : (if opened = .partialTail then Status.ok else opened) = status
  dsimp only
  by_cases hok : status = .ok
  swap
  · cases status <;> first | exact absurd rfl hok | exact .inl ⟨by simp, rfl⟩
  subst hok
  cases demux with
  | none =>
    -- with one of the two statuses there is a demux
    have hopened : opened = .ok ∨ opened = .partialTail := by
      split_ifs at hstatus with htail
      · exact .inr htail
      · exact .inl hstatus
    have hfst := congrArg Prod.fst hopen
    rw [demuxOpen_fst] at hfst
    obtain ⟨demux, hsome⟩ :=
      exists_demuxOpen_iff.mpr ⟨hfst, hopened.imp id fun htail => ⟨htail, rfl⟩⟩
    rw [hopen] at hsome
    simp at hsome
  | some demux =>
    dsimp only
    by_cases hcreated : (muxCreate none m.mux.opened m.mux.allocs m.mux.scratch).1 = .ok
    · obtain ⟨hopened, mux, hcreate⟩ := muxCreate_of_ok hcreated
      rw [hcreate]
      dsimp only
      generalize copyAll demux mux = r
      rcases r with ⟨status, mux'⟩
      cases status <;> first
        | exact .inr ⟨hzero, ⟨rfl, hopened⟩, mux', rfl⟩
        | exact .inl ⟨by simp, rfl⟩
    · generalize muxCreate none m.mux.opened m.mux.allocs m.mux.scratch = r at hcreated
      rcases r with ⟨status, mux⟩
      cases status <;> first | exact absurd rfl hcreated | exact .inl ⟨by simp, rfl⟩

/-! ### What a command does -/

/-- A command that ends with a status that is not `OK` has an exit code. -/
theorem finish_exit_ne {name : String} {status : Status} {out : List String} {files : Files}
    (h : status ≠ .ok) :
    (finish name status out files).exit ≠ 0 := by
  rw [finish_exit, Ne, statusToExit_eq_zero_iff]
  exact h

section

variable (files : Files) (inPath outPath : String) (m : Machine)

/-- **What `remux` does**: it has copied the source, or it fails, and leaves something else. -/
theorem remuxCmd_cases :
    ((remuxCmd files inPath outPath m).exit ≠ 0 ∧ ((remuxCmd files inPath outPath m).files = files ∨
        ∃ left, (remuxCmd files inPath outPath m).files = Function.update files outPath
          (some left))) ∨
      (remuxCmd files inPath outPath m).exit = 0 ∧ ∃ source bytes, files inPath = some source ∧
        source.length ≤ sizeMax ∧
        remux source m.trackAllocs m.allocs m.mux = (.ok, some bytes) ∧
        (remuxCmd files inPath outPath m).files = Function.update files outPath (some bytes) := by
  unfold remuxCmd
  obtain ⟨source, hsource, hfile, hlong⟩ | ⟨status, hne, hsource⟩ :=
    sourceFromFile_cases files inPath m.source
  · rw [hsource]
    dsimp only
    split_ifs with hmemory hcreates
    · exact .inl ⟨finish_exit_ne (by simp), .inl rfl⟩
    · by_cases hok : (remux source m.trackAllocs m.allocs m.mux).1 = .ok
      · obtain ⟨hopened, hwritten, hflushed, bytes, hremux⟩ := remux_ok hok
        refine .inr ⟨(statusToExit_eq_zero_iff _).mpr hok, source, bytes, hfile, hlong, hremux, ?_⟩
        rw [finish_files, hremux, Machine.left, if_pos ⟨hwritten, hflushed⟩]
      · exact .inl ⟨finish_exit_ne hok, .inr ⟨_, rfl⟩⟩
    · exact .inl ⟨finish_exit_ne fun hok => hcreates ⟨demuxOpen_of_remux hok, (remux_ok hok).1⟩,
        .inl rfl⟩
  · rw [hsource]
    cases status <;> first | exact absurd rfl hne | exact .inl ⟨finish_exit_ne hne, .inl rfl⟩

/-- What a file may look like that was to be written with `bytes`, if that failed. -/
def Spoiled (path : String) (bytes : Option Bytes) (files' : Files) : Prop :=
  files' = files ∨ files' = Function.update files path (some []) ∨
    ¬ (m.mux.written = true ∧ m.mux.flushed = true) ∧ ∃ whole, bytes = some whole ∧
      files' = Function.update files path (some (whole.take m.reached))

/-- Writing the repaired file. -/
theorem repairWriteFile_cases (plan : RepairPlan) (path : String) :
    ((repairWriteFile files plan path m).1 ≠ .ok ∧
        Spoiled files m path (repairWrite plan m.trackAllocs m.allocs m.mux).2
          (repairWriteFile files plan path m).2) ∨
      (repairWriteFile files plan path m).1 = .ok ∧
        ∃ bytes, (repairWrite plan m.trackAllocs m.allocs m.mux).2 = some bytes ∧
        (repairWriteFile files plan path m).2 = Function.update files path (some bytes) := by
  unfold repairWriteFile
  by_cases hzero : plan.validPrefix = 0
  · rw [if_pos hzero]
    exact .inl ⟨by simp, .inl rfl⟩
  rw [if_neg hzero]
  by_cases hmemory : !m.prefixAllocated ∨ !m.demuxAllocated ∨ prefixStatus plan m = .ok ∧
    !m.muxAllocated
  · rw [if_pos hmemory]
    exact .inl ⟨by simp, .inl rfl⟩
  rw [if_neg hmemory]
  obtain ⟨hne, hnone⟩ | ⟨-, hcreates, mux, hclose⟩ := repairWrite_cases plan m
  · refine .inl ⟨hne, ?_⟩
    dsimp only
    split_ifs
    · rw [hnone]
      exact .inr (.inl rfl)
    · exact .inl rfl
  rw [hclose]
  dsimp only
  rw [if_pos hcreates]
  obtain ⟨hne, hnone⟩ | ⟨bytes, hbytes, hok⟩ := muxClose_cases mux m.mux.written m.mux.flushed
  · rw [hnone]
    exact .inl ⟨hne, .inr (.inl rfl)⟩
  rw [hbytes, Machine.left]
  by_cases hwritten : m.mux.written = true ∧ m.mux.flushed = true
  · rw [if_pos hwritten]
    exact .inr ⟨hok.mpr hwritten, bytes, rfl, rfl⟩
  · rw [if_neg hwritten]
    exact .inl ⟨mt hok.mp hwritten, .inr (.inr ⟨hwritten, bytes, rfl, rfl⟩)⟩

/-- **What `repair` does**: it has written what it was to write, or it fails, and leaves of that
file what was there before, or nothing, or as much as the machine has written. -/
theorem repairCmd_cases :
    ((repairCmd files inPath outPath m).exit ≠ 0 ∧
      ((repairCmd files inPath outPath m).files = files ∨
        ∃ source, files inPath = some source ∧ source.length ≤ sizeMax ∧
          Spoiled files m outPath (Tide.repairCmd source m.scanAllocs m.trackAllocs
            m.allocs m.mux).2
            (repairCmd files inPath outPath m).files)) ∨
      (repairCmd files inPath outPath m).exit = 0 ∧ ∃ source bytes, files inPath = some source ∧
        source.length ≤ sizeMax ∧
        (Tide.repairCmd source m.scanAllocs m.trackAllocs m.allocs m.mux).2 = some bytes ∧
        (repairCmd files inPath outPath m).files = Function.update files outPath (some bytes) := by
  unfold repairCmd
  obtain ⟨source, hsource, hfile, hlong⟩ | ⟨status, hne, hsource⟩ :=
    sourceFromFile_cases files inPath m.source
  swap
  · rw [hsource]
    cases status <;> first | exact absurd rfl hne | exact .inl ⟨finish_exit_ne hne, .inl rfl⟩
  rw [hsource]
  dsimp only
  split_ifs with hplan hscan
  · exact .inl ⟨finish_exit_ne (by simp), .inl rfl⟩
  · have hcmd : (Tide.repairCmd source m.scanAllocs m.trackAllocs m.allocs m.mux).2 =
        (repairWrite (repairScan source none m.scanAllocs).2 m.trackAllocs m.allocs m.mux).2 := by
      unfold Tide.repairCmd
      dsimp only
      rw [if_pos hscan]
    obtain ⟨hne, hspoiled⟩ | ⟨hok, bytes, hbytes, hfiles⟩ :=
      repairWriteFile_cases files m (repairScan source none m.scanAllocs).2 outPath
    · rw [← hcmd] at hspoiled
      exact .inl ⟨finish_exit_ne hne, .inr ⟨source, hfile, hlong, hspoiled⟩⟩
    · exact .inr ⟨(statusToExit_eq_zero_iff _).mpr hok, source, bytes, hfile, hlong,
        hcmd.trans hbytes, hfiles⟩
  · exact .inl ⟨finish_exit_ne fun hok => hscan (.inl hok), .inl rfl⟩

end

/-! ### The program -/

/-- Where a command that copies reads and writes. -/
def copyOf : List String → Option (String × String)
  | [_, command, inPath, outPath] => if command = "remux" ∨
      command = "repair" then some (inPath, outPath) else none
  | _ => none

theorem inspectCmd_files (files : Files) (path : String) (m : Machine) :
    (inspectCmd files path m).files = files := by
  unfold inspectCmd
  obtain ⟨source, hsource, -⟩ | ⟨status, hne, hsource⟩ := sourceFromFile_cases files path m.source
  · rw [hsource]
    dsimp only
    split_ifs
    · rfl
    · split <;> rfl
  · rw [hsource]
    cases status <;> first | exact absurd rfl hne | rfl

/-- **What `main` does**: it leaves the files alone, or it is one of the two commands that copy. -/
theorem main_cases (files : Files) (argv : List String) (m : Machine) :
    (copyOf argv = none ∧ (main files argv m).files = files) ∨
      ∃ inPath outPath, copyOf argv = some (inPath, outPath) ∧
        (main files argv m = remuxCmd files inPath outPath m ∨
          main files argv m = repairCmd files inPath outPath m) := by
  unfold main
  split
  · refine .inl ⟨rfl, ?_⟩
    split_ifs
    · exact inspectCmd_files ..
    · exact inspectCmd_files ..
    · exact inspectCmd_files ..
    · rfl
  · rename_i program command inPath outPath
    have hcopy : copyOf [program, command, inPath, outPath] =
        if command = "remux" ∨ command = "repair" then some (inPath, outPath) else none := rfl
    rw [hcopy]
    by_cases hremux : command = "remux"
    · rw [if_pos hremux, if_pos (.inl hremux)]
      exact .inr ⟨inPath, outPath, rfl, .inl rfl⟩
    rw [if_neg hremux]
    by_cases hrepair : command = "repair"
    · rw [if_pos hrepair, if_pos (.inr hrepair)]
      exact .inr ⟨inPath, outPath, rfl, .inr rfl⟩
    · rw [if_neg hrepair, if_neg (fun h => h.elim hremux hrepair)]
      exact .inl ⟨rfl, rfl⟩
  · rename_i hthree hfour
    refine .inl ⟨?_, rfl⟩
    unfold copyOf
    split
    · rename_i command inPath outPath
      exact absurd rfl (hfour _ command inPath outPath)
    · rfl

/-- No file is changed but the one that is written. -/
theorem main_frame (files : Files) {argv : List String} (m : Machine) {path : String}
    (h : ∀ inPath, copyOf argv ≠ some (inPath, path)) :
    (main files argv m).files path = files path := by
  obtain ⟨-, hfiles⟩ | ⟨inPath, outPath, hcopy, hcmd⟩ := main_cases files argv m
  · rw [hfiles]
  have hne : path ≠ outPath := fun heq => h inPath (heq ▸ hcopy)
  rcases hcmd with hremux | hrepair
  · rw [hremux]
    obtain ⟨-, hsame | ⟨left, hleft⟩⟩ | ⟨-, source, bytes, -, -, -, hfiles⟩ :=
      remuxCmd_cases files inPath outPath m
    · rw [hsame]
    · rw [hleft, Function.update_of_ne hne]
    · rw [hfiles, Function.update_of_ne hne]
  · rw [hrepair]
    obtain ⟨-, hsame | ⟨source, -, -, hspoiled⟩⟩ | ⟨-, source, bytes, -, -, -, hfiles⟩ :=
      repairCmd_cases files inPath outPath m
    · rw [hsame]
    · rcases hspoiled with hsame | hempty | ⟨-, bytes, -, hleft⟩
      · rw [hsame]
      · rw [hempty, Function.update_of_ne hne]
      · rw [hleft, Function.update_of_ne hne]
    · rw [hfiles, Function.update_of_ne hne]

/-- The machine has room for the table of the tracks. -/
structure Machine.Roomy (m : Machine) : Prop where
  scanAllocs : m.scanAllocs = Stream'.const true
  trackAllocs : m.trackAllocs = Stream'.const true

/-- **A repair is all or nothing**: if it ends with 0, the file is that of what is salvaged of the
source, and if it fails, the file is as it was before, or empty, or the beginning of that file if
writing it was what failed. No other file is changed. -/
theorem repair_all_or_nothing (files : Files) (program inPath outPath : String) (m : Machine)
    (hm : m.Roomy) :
    let r := main files [program, "repair", inPath, outPath] m
    (∀ path, path ≠ outPath → r.files path = files path) ∧
      (r.exit = 0 → ∃ source media, files inPath = some source ∧ salvaged source = some media ∧
        r.files outPath = some media.bytes) ∧
      (r.exit ≠ 0 → r.files outPath = files outPath ∨ r.files outPath = some [] ∨
        ¬ (m.mux.written = true ∧ m.mux.flushed = true) ∧
          ∃ source media, files inPath = some source ∧ salvaged source = some media ∧
          r.files outPath = some (media.bytes.take m.reached)) := by
  have hcmd : main files [program, "repair", inPath, outPath] m =
      repairCmd files inPath outPath m := rfl
  dsimp only
  rw [hcmd]
  obtain ⟨hexit, hsame | ⟨source, hfile, hlong, hspoiled⟩⟩ | ⟨hexit, source, bytes, hfile, hlong,
      hbytes, hfiles⟩ :=
    repairCmd_cases files inPath outPath m
  · rw [hsame]
    exact ⟨fun path _ => rfl, fun h => absurd h hexit, fun _ => .inl rfl⟩
  · rw [hm.scanAllocs, hm.trackAllocs] at hspoiled
    obtain hsame | hempty | ⟨hfailed, bytes, hbytes, hfiles⟩ := hspoiled
    · rw [hsame]
      exact ⟨fun path _ => rfl, fun h => absurd h hexit, fun _ => .inl rfl⟩
    · rw [hempty]
      exact ⟨fun path hne => Function.update_of_ne hne .., fun h => absurd h hexit,
        fun _ => .inr (.inl (Function.update_self ..))⟩
    · obtain ⟨media, hsalvaged, rfl, -⟩ := repairCmd_copies hlong hbytes
      rw [hfiles]
      refine ⟨fun path hne => Function.update_of_ne hne .., fun h => absurd h hexit,
        fun _ => .inr (.inr ?_)⟩
      exact ⟨hfailed, source, media, hfile, hsalvaged, Function.update_self ..⟩
  · rw [hm.scanAllocs, hm.trackAllocs] at hbytes
    obtain ⟨media, hsalvaged, rfl, -⟩ := repairCmd_copies hlong hbytes
    rw [hfiles]
    refine ⟨fun path hne => Function.update_of_ne hne .., fun _ => ?_, fun hne => absurd hexit hne⟩
    exact ⟨source, media, hfile, hsalvaged, Function.update_self ..⟩

/-- A machine on which nothing fails. -/
def Machine.calm : Machine where
  source := ⟨true, true, true, true, true, true, true⟩
  planAllocated := true
  scanAllocs := Stream'.const true
  prefixAllocated := true
  demuxAllocated := true
  trackAllocs := Stream'.const true
  allocs := Stream'.const true
  muxAllocated := true
  mux := .calm
  reached := 0

/-- A machine whose disk is full after ten bytes. -/
def Machine.full : Machine :=
  { Machine.calm with mux := { MuxEnv.calm with written := false }, reached := 10 }

/-- A machine that has the small file, with three bytes of a next record behind it. -/
def sampleFiles : Files := Function.update (fun _ => none) "in.tide"
    (some (sampleFile ++ [0x52, 0x45, 0x43]))

theorem sampleFiles_repaired :
    (main sampleFiles ["tide", "repair", "in.tide", "out.tide"] .calm).exit = 0 ∧
      (main sampleFiles ["tide", "repair", "in.tide", "out.tide"] .full).exit = 10 ∧
      ∃ source media, sampleFiles "in.tide" = some source ∧ salvaged source = some media ∧
        (main sampleFiles ["tide", "repair", "in.tide", "out.tide"] .calm).files "out.tide" =
          some media.bytes := by
  have hok : (main sampleFiles ["tide", "repair", "in.tide", "out.tide"] .calm).exit = 0 := by
    decide +kernel
  refine ⟨hok, by decide +kernel, ?_⟩
  exact (repair_all_or_nothing sampleFiles "tide" "in.tide" "out.tide" .calm ⟨rfl, rfl⟩).2.1 hok

end Tide.Cli
