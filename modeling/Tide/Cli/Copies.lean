import Tide.Cli
import Tide.Theory.Simulation

/-!
# The program copies

On a shelf lies what is known of the files: what is salvaged of each, and whether it was written
by a command that copies. To the shelf, `remux` and `repair` are the same, they put what lies in
one place into another, if they end with 0, and if they do not, nothing is known any more of the
file they were to write. So much is true of any number of commands, in any order and on
whatever files (`script_copies`): the shelf needs to see the commands and their exit codes
only.
-/

namespace Tide.Cli

open Theory

/-- What is known of a file: what is salvaged of it, and whether it is the file that is written of
that. -/
structure Known where
  media : Media
  written : Bool

/-- What is known of the files. -/
abbrev Shelf := String → Option Known

/-- What is known after a command, by its exit code. -/
def Shelf.after (shelf : Shelf) (argv : List String) (exit : ℕ) : Shelf :=
  match copyOf argv with
  | none => shelf
  | some (inPath, outPath) =>
    Function.update shelf outPath (if exit = 0 then (shelf inPath).map fun known =>
      { known with written := true } else none)

/-- What is known is true. -/
def Shelf.Agrees (shelf : Shelf) (files : Files) : Prop :=
  ∀ path known, shelf path = some known → ∃ bytes, files path = some bytes ∧
    salvaged bytes = some known.media ∧
    (known.written = true → bytes = known.media.bytes ∧ Tells bytes known.media)

/-- Nothing is known of a file that was to be written. -/
theorem Shelf.Agrees.forget {shelf : Shelf} {files files' : Files} (h : shelf.Agrees files)
    {outPath : String} (hframe : ∀ path, path ≠ outPath → files' path = files path) :
    Shelf.Agrees (Function.update shelf outPath none) files' := by
  intro path known hknown
  by_cases hpath : path = outPath
  · subst hpath
    rw [Function.update_self] at hknown
    cases hknown
  · rw [Function.update_of_ne hpath] at hknown
    rw [hframe path hpath]
    exact h path known hknown

/-- What is known of a source is known of its copy. -/
theorem Shelf.Agrees.copy {shelf : Shelf} {files : Files} (h : shelf.Agrees files)
    {inPath outPath : String} {source bytes : Bytes} {media : Media}
    (hsource : files inPath = some source) (hsalvaged : salvaged source = some media)
    (hbytes : bytes = media.bytes) (htells : Tells bytes media) :
    Shelf.Agrees (Function.update shelf outPath ((shelf inPath).map fun known =>
      { known with written := true }))
      (Function.update files outPath (some bytes)) := by
  intro path known hknown
  by_cases hpath : path = outPath
  swap
  · rw [Function.update_of_ne hpath] at hknown ⊢
    exact h path known hknown
  subst hpath
  rw [Function.update_self] at hknown
  obtain ⟨known', hin, rfl⟩ := Option.map_eq_some_iff.mp hknown
  obtain ⟨source', hsource', hsalvaged', -⟩ := h inPath known' hin
  obtain rfl : source = source' := Option.some.inj (hsource.symm.trans hsource')
  obtain rfl : media = known'.media := Option.some.inj (hsalvaged.symm.trans hsalvaged')
  exact ⟨bytes, Function.update_self .., htells.salvaged, fun _ => ⟨hbytes, htells⟩⟩

/-- A command that copies and ends with 0 has copied. -/
theorem main_copies {argv : List String} {inPath outPath : String} (files : Files) (m : Machine)
    (hm : m.Roomy) (hcopy : copyOf argv = some (inPath, outPath))
    (hexit : (main files argv m).exit = 0) :
    ∃ source bytes media, files inPath = some source ∧
      (main files argv m).files = Function.update files outPath (some bytes) ∧
      salvaged source = some media ∧ bytes = media.bytes ∧ Tells bytes media := by
  obtain ⟨hno, -⟩ | ⟨inPath', outPath', hcopy', hcmd⟩ := main_cases files argv m
  · rw [hcopy] at hno
    cases hno
  rw [hcopy, Option.some.injEq, Prod.mk.injEq] at hcopy'
  obtain ⟨rfl, rfl⟩ := hcopy'
  rcases hcmd with hremux | hrepair
  · rw [hremux] at hexit ⊢
    obtain ⟨hne, -⟩ | ⟨-, source, bytes, hfile, hlong, hok, hfiles⟩ :=
      remuxCmd_cases files inPath outPath m
    · exact absurd hexit hne
    rw [hm.trackAllocs] at hok
    obtain ⟨media, hcopies⟩ := remux_copies hlong hok
    exact ⟨source, bytes, media, hfile, hfiles, hcopies⟩
  · rw [hrepair] at hexit ⊢
    obtain ⟨hne, -⟩ | ⟨-, source, bytes, hfile, hlong, hok, hfiles⟩ :=
      repairCmd_cases files inPath outPath m
    · exact absurd hexit hne
    rw [hm.trackAllocs, hm.scanAllocs] at hok
    obtain ⟨media, hcopies⟩ := repairCmd_copies hlong hok
    exact ⟨source, bytes, media, hfile, hfiles, hcopies⟩

/-- **One command** does to the files what it does to the shelf. -/
theorem Shelf.Agrees.main {shelf : Shelf} {files : Files} (h : shelf.Agrees files)
    (argv : List String) (m : Machine) (hm : m.Roomy) :
    (shelf.after argv (main files argv m).exit).Agrees (main files argv m).files := by
  unfold Shelf.after
  cases hcopy : copyOf argv with
  | none =>
    obtain ⟨-, hfiles⟩ | ⟨inPath, outPath, hsome, -⟩ := main_cases files argv m
    · rw [hfiles]
      exact h
    · rw [hcopy] at hsome
      cases hsome
  | some paths =>
    obtain ⟨inPath, outPath⟩ := paths
    dsimp only
    by_cases hexit : (Cli.main files argv m).exit = 0
    · obtain ⟨source, bytes, media, hfile, hfiles, hsalvaged, hbytes, htells⟩ :=
        main_copies files m hm hcopy hexit
      rw [if_pos hexit, hfiles]
      exact h.copy hfile hsalvaged hbytes htells
    · rw [if_neg hexit]
      refine h.forget fun path hne => main_frame files m fun inPath' hcopy' => hne ?_
      rw [hcopy, Option.some.injEq, Prod.mk.injEq] at hcopy'
      exact hcopy'.2.symm

/-! ### Inspecting -/

theorem filterMap_range {α β : Type} (l : List α) (f : α → β) :
    (List.range l.length).filterMap (fun i => l[i]?.map f) = l.map f := by
  induction l with
  | nil => rfl
  | cons a l ih => simpa [List.range_succ_eq_map, List.filterMap_map, Function.comp_def] using ih

/-- The streams are printed one by one. -/
theorem inspectLines_eq (status : Status) (demux : Demux) :
    inspectLines status demux =
      ("status=" ++ statusString status) :: ("streams=" ++ toString demux.streams.length) ::
        demux.streams.map streamLine := by
  rw [← filterMap_range]
  unfold inspectLines demuxStreamInfo demuxStreamCount
  congr 3
  funext i
  cases demux.streams[i]? <;> rfl

/-- **Inspecting a file** where nothing fails prints its streams. -/
theorem inspectCmd_tells {files : Files} {path : String} {bytes : Bytes} {media : Media}
    (hfile : files path = some bytes) (htells : Tells bytes media) (hlong : bytes.length < 2 ^ 63) :
    inspectCmd files path .calm =
      ⟨0, "status=OK" :: ("streams=" ++ toString media.streams.length) ::
        media.streams.map streamLine, [], files⟩ := by
  have hsource : sourceFromFile files path Machine.calm.source = (.ok, some bytes) := by
    have hshort : ¬ 2 ^ 63 ≤ bytes.length := Nat.not_le.mpr hlong
    simp only [sourceFromFile, hfile, hshort]
    simp [Machine.calm]
  obtain ⟨hmax, hd, f, hok, rfl⟩ := htells
  obtain ⟨demux, hopen, hholds⟩ := @demuxOpen_file bytes (some inspectDemuxOptions) hd f hmax hok
  unfold inspectCmd
  rw [hsource]
  dsimp only
  rw [if_neg (by simp [Machine.calm]), show Machine.calm.trackAllocs = Stream'.const true from rfl,
    show Machine.calm.allocs = Stream'.const true from rfl, hopen]
  dsimp only
  rw [inspectLines_eq, hholds.streams]
  rfl

/-! ### Scripts -/

/-- Running a command on a machine. -/
def run (files : Files) (c : List String × Machine) : ℕ × Files :=
  ((main files c.1 c.2).exit, (main files c.1 c.2).files)

/-- What is known when a script is done, by the exit codes. -/
def Shelf.follow (shelf : Shelf) (c : (List String × Machine) × ℕ) : Shelf := shelf.after c.1.1 c.2

/-- A file that no command of a script was to write is as it was. -/
theorem run_frame (files : Files) (script : List (List String × Machine)) {path : String}
    (h : ∀ c ∈ script, ∀ inPath, copyOf c.1 ≠ some (inPath, path)) :
    (answers run files script).2 path = files path := by
  induction script generalizing files with
  | nil => rfl
  | cons c script ih =>
    obtain ⟨hc, hrest⟩ := List.forall_mem_cons.mp h
    exact (ih (run files c).2 hrest).trans (main_frame files c.2 hc)

/-- **The program copies**: after any script, on whatever machines, what is known by the exit
codes is true of the files. A file that was written is the one that is written of what it tells,
and `inspect` prints its streams. -/
theorem script_copies (files : Files) (shelf : Shelf) (hshelf : shelf.Agrees files)
    (script : List (List String × Machine)) (hroomy : ∀ c ∈ script, c.2.Roomy) :
    let done := answers run files script
    let known := (script.zip done.1).foldl Shelf.follow shelf
    known.Agrees done.2 ∧
      (∀ path, (∀ c ∈ script, ∀ inPath, copyOf c.1 ≠ some (inPath, path)) →
        done.2 path = files path) ∧
      ∀ path k, known path = some k → k.written = true → done.2 path = some k.media.bytes ∧
        ∀ program, k.media.bytes.length < 2 ^ 63 → main done.2 [program, "inspect", path] .calm =
          ⟨0, "status=OK" :: ("streams=" ++ toString k.media.streams.length) ::
            k.media.streams.map streamLine, [], done.2⟩ := by
  have hagrees : ((script.zip (answers run files script).1).foldl Shelf.follow shelf).Agrees
      (answers run files script).2 := by
    refine answers_follow (R := fun files shelf => Shelf.Agrees shelf files)
      (P := fun c => c.2.Roomy) ?_ hshelf hroomy
    intro files shelf c h hm
    exact h.main c.1 c.2 hm
  refine ⟨hagrees, fun path hpath => run_frame files script hpath, fun path k hk hwritten => ?_⟩
  obtain ⟨bytes, hbytes, -, htells⟩ := hagrees path k hk
  obtain ⟨rfl, htells⟩ := htells hwritten
  exact ⟨hbytes, fun program hlong => inspectCmd_tells hbytes htells hlong⟩

/-- What is known in the beginning. -/
def sampleShelf : Shelf := fun path => if path = "in.tide"
    then (salvaged (sampleFile ++ [0x52, 0x45, 0x43])).map (⟨·, false⟩) else none

theorem sampleShelf_agrees : sampleShelf.Agrees sampleFiles := by
  intro path known hknown
  unfold sampleShelf at hknown
  split_ifs at hknown with hpath
  obtain ⟨media, hmedia, rfl⟩ := Option.map_eq_some_iff.mp hknown
  exact ⟨sampleFile ++ [0x52, 0x45, 0x43], by rw [hpath]; rfl, hmedia, by simp⟩

/-- A file is repaired and its copy remuxed, and then the disk is full. -/
def sampleScript : List (List String × Machine) :=
  [(["tide", "repair", "in.tide", "a.tide"], .calm), (["tide", "remux", "a.tide", "b.tide"], .calm),
    (["tide", "repair", "b.tide", "in.tide"], .full)]

theorem sampleScript_copies : (answers run sampleFiles sampleScript).1 = [0, 0, 10] ∧
    ((sampleScript.zip (answers run sampleFiles sampleScript).1).foldl Shelf.follow
      sampleShelf).Agrees
      (answers run sampleFiles sampleScript).2 := by
  have hroomy : ∀ c ∈ sampleScript, c.2.Roomy := by
    intro c hc
    simp only [sampleScript, List.mem_cons, List.not_mem_nil, or_false] at hc
    rcases hc with rfl | rfl | rfl <;> exact ⟨rfl, rfl⟩
  exact ⟨by decide +kernel,
    (script_copies sampleFiles sampleShelf sampleShelf_agrees sampleScript hroomy).1⟩

end Tide.Cli
