import Sidlc.Equiv.FatalNumbers
import Sidlc.Equiv.Program
import Sidlc.Equiv.Termination

/-!
# The exceptions that leave the program

`main` catches the runtime errors of `sif_read` and `sif_write` and no other exceptions. Apart from
what creating directories raises, an exception leaves it exactly when a source is compiled in which
a number that `std::stoull` refuses stands where a number belongs, or when the source is a directory
(`main_ends`). In each case no file has been changed by then.
-/

namespace Sidlc

open Grammar StateExcept Sidlc.Parser

/-! ### The parser -/

section Parser

variable {source : Bytes} {firstAbirevision : UInt64} {firstFuncid : UInt32}

theorem parse_eq_error_iff {e : Exn} :
    Parser.parse source firstAbirevision firstFuncid = .error e ↔
      Parser.parseInterface firstAbirevision firstFuncid (Parser.start source) = .error e ∧
        ¬ Reported e := by
  rw [Parser.parse_eq]
  cases h : Parser.parseInterface firstAbirevision firstFuncid (Parser.start source) with
  | ok r => simp
  | error e' =>
    cases e' with
    | runtimeError what =>
      refine iff_of_false (by simp) ?_
      rintro ⟨he, hescapes⟩
      exact hescapes ⟨what, (Except.error.inj he).symm⟩
    | _ =>
      simp only [Except.error.injEq]
      refine (and_iff_left_of_imp fun he => ?_).symm
      rw [← he]
      rintro ⟨what, ⟨⟩⟩

/-- Where `parse` raises. -/
theorem parse_raises_iff :
    (∃ e, Parser.parse source firstAbirevision firstFuncid = .error e) ↔
      (Syntax.openInterface firstAbirevision firstFuncid).Breaks Repairs (lexemes source) := by
  have hescapes : Escapes Reported (Parser.parseInterface firstAbirevision firstFuncid)
      (Parser.start source) ↔ _ := Parser.escapes_interface_iff (Parser.valid_start source)
  rw [Parser.ahead_start] at hescapes
  rw [← hescapes]
  exact exists_congr fun e => parse_eq_error_iff

/-- What `std::stoull` raises. -/
def FromStoull (e : Exn) : Prop :=
  (∃ what, e = .invalidArgument what) ∨ ∃ what, e = .outOfRange what

theorem fromStoull_of_parse {e : Exn}
    (h : Parser.parse source firstAbirevision firstFuncid = .error e) : FromStoull e := by
  obtain ⟨hparse, hescapes⟩ := parse_eq_error_iff.1 h
  cases e with
  | runtimeError what => exact absurd ⟨what, rfl⟩ hescapes
  | invalidArgument what => exact .inl ⟨what, rfl⟩
  | outOfRange what => exact .inr ⟨what, rfl⟩
  | diverges => exact absurd hparse (halting_interface firstAbirevision firstFuncid).ne_out

theorem parseInterfaceFile_eq_error_iff {e : Exn} :
    parseInterfaceFile source firstAbirevision firstFuncid = .error e ↔
      Parser.parse source firstAbirevision firstFuncid = .error e := by
  rw [parseInterfaceFile]
  cases Parser.parse source firstAbirevision firstFuncid with
  | error e' => rfl
  | ok result =>
    cases result with
    | none => exact iff_of_false (by rintro ⟨⟩) (by rintro ⟨⟩)
    | some interface => exact iff_of_false (by rintro ⟨⟩) (by rintro ⟨⟩)

theorem parseInterfacePath_eq_error_iff {host : Host} {files : FileSystem} {path : Bytes}
    {e : Exn} :
    parseInterfacePath host files path firstAbirevision firstFuncid = .error e ↔
      (∃ source, files path = some source ∧
        Parser.parse source firstAbirevision firstFuncid = .error e) ∨
      (files path = none ∧ host.isDirectory path = true) ∧ e = readsDirectory := by
  rw [parseInterfacePath]
  cases files path with
  | none =>
    cases host.isDirectory path with
    | true => simp [eq_comm]
    | false => simp [pure, Except.pure]
  | some source => simp [parseInterfaceFile_eq_error_iff]

end Parser

/-! ### `command_compile` -/

/-- With these options `command_compile` parses the source, on from these numbers. -/
structure ReachesParser (files : FileSystem) (options : CompileOptions) (source : Bytes)
    (firstAbirevision : UInt64) (firstFuncid : UInt32) : Prop where
  hasInput : options.inputPath ≠ []
  hasOutput : options.outputPath ≠ []
  source : files options.inputPath = some source
  numbers : (options.basePath = [] ∧ firstAbirevision = 0 ∧ firstFuncid = 0) ∨
    (options.basePath ≠ [] ∧ ∃ base, readSifFile files options.basePath = .ok (some base) ∧
      firstAbirevision = UInt64.ofNat base.abiversions.length ∧ firstFuncid = base.currentFuncid)

/-- With these options `command_compile` reads the source from a directory. -/
structure ReadsDirectory (host : Host) (files : FileSystem) (options : CompileOptions) : Prop where
  hasInput : options.inputPath ≠ []
  hasOutput : options.outputPath ≠ []
  base : options.basePath ≠ [] → ∃ base, readSifFile files options.basePath = .ok (some base)
  noFile : files options.inputPath = none
  directory : host.isDirectory options.inputPath = true

section Compile

variable {host : Host} {args : List Bytes} {files : FileSystem} {options : CompileOptions}

/-- Up to the output, only the parser raises, and a source that is a directory. -/
theorem compileInputs_eq_error_iff {e : Exn} (hinput : options.inputPath ≠ [])
    (houtput : options.outputPath ≠ []) :
    compileInputs host files options = .error e ↔
      (∃ source firstAbirevision firstFuncid,
        ReachesParser files options source firstAbirevision firstFuncid ∧
          Parser.parse source firstAbirevision firstFuncid = .error e) ∨
      ReadsDirectory host files options ∧ e = readsDirectory := by
  by_cases hbase : options.basePath = []
  · have hempty : options.basePath.isEmpty = true := List.isEmpty_iff.2 hbase
    rw [compileInputs, if_pos hempty, except_bind_eq_error, or_iff_left,
      parseInterfacePath_eq_error_iff]
    · refine or_congr ⟨?_, ?_⟩ (and_congr_left fun _ => ⟨?_, ?_⟩)
      · rintro ⟨source, hsource, hparse⟩
        exact ⟨source, 0, 0, ⟨hinput, houtput, hsource, .inl ⟨hbase, rfl, rfl⟩⟩, hparse⟩
      · rintro ⟨source, _, _, ⟨-, -, hsource, ⟨-, rfl, rfl⟩ | ⟨hne, -⟩⟩, hparse⟩
        · exact ⟨source, hsource, hparse⟩
        · exact absurd hbase hne
      · rintro ⟨hnone, hdirectory⟩
        exact ⟨hinput, houtput, fun hne => absurd hbase hne, hnone, hdirectory⟩
      · exact fun h => ⟨h.noFile, h.directory⟩
    · rintro ⟨_ | source, -, h⟩
      · cases h
      · cases h
  · have hempty : ¬ options.basePath.isEmpty = true := fun h => hbase (List.isEmpty_iff.1 h)
    rw [compileInputs, if_neg hempty, except_bind_eq_error,
      or_iff_right (readSifFile_ne_error files options.basePath e)]
    constructor
    · rintro ⟨_ | base, hread, h⟩
      · cases h
      rcases except_bind_eq_error.1 h with h | ⟨_ | source, -, h⟩
      · rcases parseInterfacePath_eq_error_iff.1 h with
          ⟨source, hsource, hparse⟩ | ⟨⟨hnone, hdirectory⟩, he⟩
        · exact .inl ⟨source, _, _, ⟨hinput, houtput, hsource,
            .inr ⟨hbase, base, hread, rfl, rfl⟩⟩, hparse⟩
        · exact .inr ⟨⟨hinput, houtput, fun _ => ⟨base, hread⟩, hnone, hdirectory⟩, he⟩
      · cases h
      · dsimp only at h
        cases hvalid : validateExtensionInterface base source with
        | error e' =>
          rw [hvalid] at h
          cases h
        | ok u =>
          rw [hvalid] at h
          cases h
    · rintro (⟨source, _, _, ⟨-, -, hsource, ⟨hnil, -, -⟩ | ⟨-, base, hread, rfl, rfl⟩⟩, hparse⟩ |
        ⟨hdirectory, he⟩)
      · exact absurd hnil hbase
      · exact ⟨some base, hread, except_bind_eq_error.2
          (.inl (parseInterfacePath_eq_error_iff.2 (.inl ⟨source, hsource, hparse⟩)))⟩
      · obtain ⟨base, hread⟩ := hdirectory.base hbase
        exact ⟨some base, hread, except_bind_eq_error.2 (.inl (parseInterfacePath_eq_error_iff.2
          (.inr ⟨⟨hdirectory.noFile, hdirectory.directory⟩, he⟩)))⟩

end Compile

/-! ### Endings -/

/-- The exception is one of those of creating directories. -/
def OfDirectories (host : DirectoryHost) (e : Exn) : Prop :=
  (∃ path, host.createDirectories path = .error e) ∨ ∃ path, host.createDirectory path = .error e

/-- The command ends with `0` or `1`, or with an exception of the directories before it has changed
a file. -/
def EndsOrRaises (host : DirectoryHost) (files : FileSystem) (ending : Writing Nat) : Prop :=
  (∃ status files', status ≤ 1 ∧ ending = (.ok status, files')) ∨
    ∃ e, OfDirectories host e ∧ ending = (.error e, files)

theorem EndsOrRaises.of_status {host : DirectoryHost} {files : FileSystem} {status : Nat}
    (h : status ≤ 1) (files' : FileSystem) : EndsOrRaises host files (.ok status, files') :=
  .inl ⟨status, files', h, rfl⟩

theorem openOutputFile_cases (host : Host) (files : FileSystem) (path : Bytes) :
    (∃ e, host.createDirectories path = .error e ∧ openOutputFile host files path = .error e) ∨
      ∃ opened, openOutputFile host files path = .ok opened := by
  rw [openOutputFile]
  cases host.createDirectories path with
  | error e => exact .inl ⟨e, rfl, rfl⟩
  | ok u =>
    cases host.opens path with
    | true => exact .inr ⟨_, rfl⟩
    | false => exact .inr ⟨_, rfl⟩

section Commands

variable {host : DirectoryHost} {files : FileSystem} {args : List Bytes} {interface : InterfaceNode}

theorem ends_writeOutput {path : Bytes} {extensions : List InterfaceNode}
    (huuid : interface.hasUuid = true) (hpre : interface.hasPrefix = true) :
    EndsOrRaises host files (writeOutput host.toHost files path interface extensions) := by
  have hopen : openBinaryOutputFile host.toHost files path
      = openOutputFile host.toHost files path := rfl
  rw [writeOutput, hopen]
  rcases openOutputFile_cases host.toHost files path with ⟨e, he, hraises⟩ | ⟨_ | opened, hopened⟩
  · rw [hraises]
    exact .inr ⟨e, .inl ⟨path, he⟩, rfl⟩
  · rw [hopened]
    exact .of_status (Nat.le_refl 1) files
  · rw [hopened]
    -- what `sif_write` raises is caught
    by_cases hwritable : Writable interface extensions
    · have hwrite := (sifWrite_eq_ok_iff interface extensions _).2 ⟨hwritable, rfl⟩
      simp only [sifWriteTo_of_sifWrite hwrite, catchRuntimeError]
      exact .of_status (Nat.zero_le 1) _
    · obtain ⟨what, hstream⟩ := sifWriteTo_of_not_writable huuid hpre hwritable
      simp only [hstream, catchRuntimeError]
      exact .of_status (Nat.le_refl 1) _

/-- What the parser raises leaves `command_compile`, and otherwise the command ends. -/
theorem commandCompile_cases (host : DirectoryHost) (args : List Bytes) (files : FileSystem) :
    (∃ options e, takeOptions {} args = (true, options) ∧ options.inputPath ≠ [] ∧
      options.outputPath ≠ [] ∧ compileInputs host.toHost files options = .error e ∧
      commandCompile host.toHost args files = (.error e, files)) ∨
    (¬ (∃ options e, takeOptions {} args = (true, options) ∧ options.inputPath ≠ [] ∧
      options.outputPath ≠ [] ∧ compileInputs host.toHost files options = .error e) ∧
      EndsOrRaises host files (commandCompile host.toHost args files)) := by
  rw [commandCompile]
  rcases hargs : takeOptions {} args with ⟨taken, options⟩
  dsimp only
  cases taken with
  | false =>
    refine .inr ⟨?_, .of_status (Nat.le_refl 1) files⟩
    rintro ⟨options', e, hoptions, -⟩
    cases hoptions
  | true =>
    rw [if_neg (by decide)]
    by_cases hpaths : options.inputPath.isEmpty ∨ options.outputPath.isEmpty
    · rw [if_pos hpaths]
      refine .inr ⟨?_, .of_status (Nat.le_refl 1) files⟩
      rintro ⟨options', e, hoptions, hinput, houtput, -⟩
      obtain rfl : options = options' := (Prod.mk.inj hoptions).2
      simp [hinput, houtput] at hpaths
    · rw [if_neg hpaths]
      have hnonempty : options.inputPath ≠ [] ∧ options.outputPath ≠ [] := by
        simpa [not_or] using hpaths
      cases hinputs : compileInputs host.toHost files options with
      | error e =>
        exact .inl ⟨options, e, rfl, hnonempty.1, hnonempty.2, hinputs, rfl⟩
      | ok inputs =>
        refine .inr ⟨?_, ?_⟩
        · rintro ⟨options', e, hoptions, -, -, herror⟩
          obtain rfl : options = options' := (Prod.mk.inj hoptions).2
          rw [hinputs] at herror
          cases herror
        · cases inputs with
          | none => exact .of_status (Nat.le_refl 1) files
          | some inputs =>
            obtain ⟨huuid, hpre⟩ := identity_of_compileInputs hinputs
            exact ends_writeOutput huuid hpre

theorem ends_commandDecompile :
    EndsOrRaises host files (commandDecompile host.toHost args files) := by
  rw [commandDecompile]
  rcases decompileParser.take {} args with ⟨taken, options⟩
  dsimp only
  cases taken with
  | false => exact .of_status (Nat.le_refl 1) files
  | true =>
    rw [if_neg (by decide)]
    split
    · exact .of_status (Nat.le_refl 1) files
    cases hread : readSifFile files options.inputPath with
    | error e => exact absurd hread (readSifFile_ne_error files options.inputPath e)
    | ok read =>
      cases read with
      | none => exact .of_status (Nat.le_refl 1) files
      | some interface =>
        dsimp only
        rcases openOutputFile_cases host.toHost files options.outputPath
          with ⟨e, he, hraises⟩ | ⟨_ | opened, hopened⟩
        · rw [hraises]
          exact .inr ⟨e, .inl ⟨_, he⟩, rfl⟩
        · rw [hopened]
          exact .of_status (Nat.le_refl 1) files
        · rw [hopened]
          -- what the reader accepts has an identity
          obtain ⟨file, -, haccepted⟩ := readSifFile_eq_some_iff.1 hread
          obtain ⟨hdecoded, -⟩ := (sifRead_eq_ok_iff ..).1 haccepted
          have htext : sifDecompile interface = .ok (decompileInterface interface) := by
            rw [sifDecompile, hdecoded.hasUuid, hdecoded.hasPrefix]
            rfl
          rw [htext]
          exact .of_status (Nat.zero_le 1) _

/-- The arguments generate the server of an interface with the last of all numbers. -/
def GeneratesLastNumber (args : List Bytes) (files : FileSystem) : Prop :=
  ∃ options abi interface headerName, generateParser.take {} args = (true, options) ∧
    ReachesOutputs options files abi interface .Server headerName ∧ interface.HasLastNumber

theorem ends_commandGenerate {past : List FileSystem} (h : History (files :: past))
    (build : Build) (hids : ¬GeneratesLastNumber args files) :
    EndsOrRaises host files (commandGenerate host build args files) := by
  by_cases hreaches : ∃ options abi interface mode headerName,
      generateParser.take {} args = (true, options) ∧
        ReachesOutputs options files abi interface mode headerName
  · obtain ⟨options, abi, interface, mode, headerName, hargs, hreaches⟩ := hreaches
    obtain ⟨file, hfile, hread⟩ := readSifFile_eq_some_iff.1 hreaches.read
    obtain ⟨outputs⟩ := exists_outputs (h.artifact hfile hread).normalized
      (maxRegArgs_archAbis hreaches.arch) (options.toC mode headerName) (by
        rintro (rfl : mode = .Server) hlast
        exact hids ⟨options, abi, interface, headerName, hargs, hreaches, hlast⟩) build
    rw [commandGenerate_of_reaches hargs hreaches,
      writeGenerated_eq (requiredPaths_toC hreaches.hasSource hreaches.mode) outputs]
    cases hheader : host.createDirectory options.headerDir with
    | error e => exact .inr ⟨e, .inr ⟨_, hheader⟩, rfl⟩
    | ok u =>
      cases hsource : host.createDirectories options.sourcePath with
      | error e => exact .inr ⟨e, .inl ⟨_, hsource⟩, rfl⟩
      | ok u =>
        dsimp only
        split
        · exact .of_status (Nat.zero_le 1) _
        · exact .of_status (Nat.le_refl 1) _
  · rw [commandGenerate_of_not_reaches hreaches]
    exact .of_status (Nat.le_refl 1) files

end Commands

/-! ### The program -/

/-- The arguments compile a source with a number, where a number belongs, that `std::stoull`
refuses. -/
def CompilesFatalNumber (argv : List Bytes) (files : FileSystem) : Prop :=
  ∃ args options source firstAbirevision firstFuncid, argv = ascii "compile" :: args ∧
    takeOptions {} args = (true, options) ∧
    ReachesParser files options source firstAbirevision firstFuncid ∧
    (Syntax.openInterface firstAbirevision firstFuncid).Breaks Repairs (lexemes source)

/-- The arguments compile a directory. -/
def CompilesDirectory (host : Host) (argv : List Bytes) (files : FileSystem) : Prop :=
  ∃ args options, argv = ascii "compile" :: args ∧ takeOptions {} args = (true, options) ∧
    ReadsDirectory host files options

/-- What the inputs of `command_compile` raise is one of the two. -/
theorem raises_compileInputs {host : Host} {args : List Bytes} {files : FileSystem}
    {options : CompileOptions} {e : Exn} (hoptions : takeOptions {} args = (true, options))
    (hinput : options.inputPath ≠ []) (houtput : options.outputPath ≠ [])
    (h : compileInputs host files options = .error e) :
    CompilesFatalNumber (ascii "compile" :: args) files ∧ FromStoull e ∨
      CompilesDirectory host (ascii "compile" :: args) files ∧ e = readsDirectory := by
  rcases (compileInputs_eq_error_iff hinput houtput).1 h with
    ⟨source, m, n, hreaches, hparse⟩ | ⟨hdirectory, he⟩
  · exact .inl ⟨⟨args, options, source, m, n, rfl, hoptions, hreaches,
      parse_raises_iff.1 ⟨e, hparse⟩⟩, fromStoull_of_parse hparse⟩
  · exact .inr ⟨⟨args, options, rfl, hoptions, hdirectory⟩, he⟩

/-- A directory is no file, so only one of them can be the case. -/
theorem CompilesFatalNumber.not_directory {host : Host} {argv : List Bytes} {files : FileSystem}
    (h : CompilesFatalNumber argv files) : ¬CompilesDirectory host argv files := by
  obtain ⟨args, options, source, _, _, rfl, hoptions, hreaches, -⟩ := h
  rintro ⟨args', options', hargv, hoptions', hdirectory⟩
  obtain rfl : args = args' := (List.cons.inj hargv).2
  obtain rfl : options = options' := (Prod.mk.inj (hoptions.symm.trans hoptions')).2
  have hsource := hreaches.source
  rw [hdirectory.noFile] at hsource
  cases hsource

/-- In either case the inputs raise. -/
theorem exists_raises {host : Host} {args : List Bytes} {files : FileSystem}
    (h : CompilesFatalNumber (ascii "compile" :: args) files ∨
      CompilesDirectory host (ascii "compile" :: args) files) :
    ∃ options e, takeOptions {} args = (true, options) ∧ options.inputPath ≠ [] ∧
      options.outputPath ≠ [] ∧ compileInputs host files options = .error e := by
  rcases h with ⟨args', options, source, m, n, hargv, hoptions, hreaches, hbreaks⟩ |
    ⟨args', options, hargv, hoptions, hdirectory⟩
  · obtain rfl : args = args' := (List.cons.inj hargv).2
    obtain ⟨e, hparse⟩ := parse_raises_iff.2 hbreaks
    exact ⟨options, e, hoptions, hreaches.hasInput, hreaches.hasOutput,
      (compileInputs_eq_error_iff hreaches.hasInput hreaches.hasOutput).2
        (.inl ⟨source, m, n, hreaches, hparse⟩)⟩
  · obtain rfl : args = args' := (List.cons.inj hargv).2
    exact ⟨options, readsDirectory, hoptions, hdirectory.hasInput, hdirectory.hasOutput,
      (compileInputs_eq_error_iff hdirectory.hasInput hdirectory.hasOutput).2
        (.inr ⟨hdirectory, rfl⟩)⟩

/-- The program generates such a server. -/
def GeneratesUndefined (argv : List Bytes) (files : FileSystem) : Prop :=
  ∃ args, argv = ascii "generate" :: args ∧ GeneratesLastNumber args files

/-- **The program in any run** ends with an exception of `std::stoull` exactly when it compiles a
source with such a number, and with that of a stream exactly when it compiles a directory; else,
where C++ defines what it does, it ends with `0` or `1` or with an exception of creating
directories. An exception leaves the files as they are. -/
theorem main_ends (files : FileSystem) (past : List FileSystem) (h : History (files :: past))
    (host : DirectoryHost) (build : Build) (argv : List Bytes) :
    (CompilesFatalNumber argv files →
      ∃ e, FromStoull e ∧ main host build argv files = (.error e, files)) ∧
    (CompilesDirectory host.toHost argv files →
      main host build argv files = (.error readsDirectory, files)) ∧
    (¬ CompilesFatalNumber argv files → ¬ CompilesDirectory host.toHost argv files →
      ¬ GeneratesUndefined argv files → EndsOrRaises host files (main host build argv files)) := by
  -- the other commands do not compile
  have hother (command : Bytes) (args : List Bytes) (hne : command ≠ ascii "compile")
      (hends : ¬ GeneratesUndefined (command :: args) files →
        EndsOrRaises host files (main host build (command :: args) files)) :
      (CompilesFatalNumber (command :: args) files →
        ∃ e, FromStoull e ∧ main host build (command :: args) files = (.error e, files)) ∧
      (CompilesDirectory host.toHost (command :: args) files →
        main host build (command :: args) files = (.error readsDirectory, files)) ∧
      (¬ CompilesFatalNumber (command :: args) files →
        ¬ CompilesDirectory host.toHost (command :: args) files →
        ¬ GeneratesUndefined (command :: args) files →
        EndsOrRaises host files (main host build (command :: args) files)) := by
    refine ⟨?_, ?_, fun _ _ => hends⟩
    · rintro ⟨args', options, source, _, _, hargv, -⟩
      exact absurd (List.cons.inj hargv).1 hne
    · rintro ⟨args', options, hargv, -⟩
      exact absurd (List.cons.inj hargv).1 hne
  cases argv with
  | nil =>
    exact ⟨by rintro ⟨_, _, _, _, _, ⟨⟩, -⟩, by rintro ⟨_, _, ⟨⟩, -⟩,
      fun _ _ _ => .of_status (Nat.le_refl 1) files⟩
  | cons command args =>
    by_cases hcompile : command = ascii "compile"
    · subst hcompile
      have hrun : main host build (ascii "compile" :: args) files
          = commandCompile host.toHost args files := by
        rw [main, if_neg (by decide), if_neg (by decide), if_pos rfl]
      rw [hrun]
      rcases commandCompile_cases host args files with
        ⟨options, e, hoptions, hinput, houtput, hraises, hends⟩ | ⟨hnone, hends⟩
      · rw [hends]
        rcases raises_compileInputs hoptions hinput houtput hraises with
          ⟨hfatal, hstoull⟩ | ⟨hdirectory, rfl⟩
        · exact ⟨fun _ => ⟨e, hstoull, rfl⟩,
            fun hdirectory => absurd hdirectory hfatal.not_directory,
            fun hnofatal => absurd hfatal hnofatal⟩
        · exact ⟨fun hfatal => absurd hdirectory hfatal.not_directory, fun _ => rfl,
            fun _ hnodirectory => absurd hdirectory hnodirectory⟩
      · exact ⟨fun hfatal => absurd (exists_raises (.inl hfatal)) hnone,
          fun hdirectory => absurd (exists_raises (.inr hdirectory)) hnone, fun _ _ _ => hends⟩
    · refine hother command args hcompile fun hdefined => ?_
      rw [main]
      split_ifs with _ _ _ hgenerate
      · exact .of_status (Nat.zero_le 1) files
      · exact .of_status (Nat.zero_le 1) files
      · exact ends_commandDecompile
      · subst hgenerate
        exact ends_commandGenerate h build fun hlast => hdefined ⟨args, rfl, hlast⟩
      · exact .of_status (Nat.le_refl 1) files

def fatalFiles : FileSystem := fun path =>
  if path = ascii "b" then some fatalSource else none

/-- `compile -o a b`, where `b` has a revision with too large a number, and where `b` is a
directory. -/
theorem main_ends_fatalSource :
    (∃ e, FromStoull e ∧
      main sampleDirectoryHost sampleBuild (ascii "compile" :: sampleArgs) fatalFiles
        = (.error e, fatalFiles)) ∧
    main { sampleDirectoryHost with isDirectory := fun _ => true } sampleBuild
        (ascii "compile" :: sampleArgs) (fun _ => none)
      = (.error readsDirectory, fun _ => none) := by
  have hoptions : takeOptions {} sampleArgs
      = (true, { outputPath := ascii "a", inputPath := ascii "b" }) := by decide
  constructor
  · have hfirst : History [fatalFiles] := by
      refine .first fun path content hcontent => ?_
      rw [fatalFiles] at hcontent
      split at hcontent
      · rw [← Option.some.inj hcontent]
        exact rejected_cons (by decide) _
      · cases hcontent
    have hraises : ∃ e, Parser.parse fatalSource 0 0 = .error e := by
      have herror : (Parser.parse fatalSource 0 0).isOk = false := by decide +kernel
      cases hparse : Parser.parse fatalSource 0 0 with
      | error e => exact ⟨e, rfl⟩
      | ok result =>
        rw [hparse] at herror
        cases herror
    have hfatal : CompilesFatalNumber (ascii "compile" :: sampleArgs) fatalFiles :=
      ⟨_, _, fatalSource, 0, 0, rfl, hoptions,
        ⟨by decide, by decide, if_pos rfl, .inl ⟨rfl, rfl, rfl⟩⟩, parse_raises_iff.1 hraises⟩
    exact (main_ends fatalFiles [] hfirst sampleDirectoryHost sampleBuild
      (ascii "compile" :: sampleArgs)).1 hfatal
  · have hfirst : History [fun _ => none] := .first fun path content hcontent => by cases hcontent
    obtain ⟨-, hdirectory, -⟩ := main_ends (fun _ => none) [] hfirst
      { sampleDirectoryHost with isDirectory := fun _ => true } sampleBuild
      (ascii "compile" :: sampleArgs)
    exact hdirectory ⟨_, _, rfl, hoptions, by decide, by decide, fun hne => absurd rfl hne, rfl,
      rfl⟩

end Sidlc
