import Sidlc.Command
import Sidlc.Equiv.Incremental
import Sidlc.Sif.Equiv.Stream

/-!
# What a failing compile does to its output

The command changes no file but its output, and that only after the source and the base have been
read and accepted (`commandCompile_of_not_reaches`). Opened, the output is truncated; so a failure
of `sif_write`, which comes after, leaves what `sif_write` had written by then in place of the old
contents (`failureKeepsOutput_iff`).
-/

namespace Sidlc

open StateExcept CellFormat

section

variable {host : Host} {args : List Bytes} {files : FileSystem} {options : CompileOptions}
  {interface : InterfaceNode} {extensions : List InterfaceNode}

/-! ### The inputs -/

theorem parseInterfacePath_eq_some_iff {path : Bytes} {firstAbirevision : UInt64}
    {firstFuncid : UInt32} :
    parseInterfacePath host files path firstAbirevision firstFuncid = .ok (some interface) ↔
      ∃ source, files path = some source ∧
        parseInterfaceFile source firstAbirevision firstFuncid = .ok (some interface) := by
  rw [parseInterfacePath]
  cases files path with
  | none => cases host.isDirectory path <;> simp [pure, Except.pure]
  | some source => simp

theorem readSifFile_eq_some_iff {path : Bytes} :
    readSifFile files path = .ok (some interface) ↔
      ∃ file, files path = some file ∧ sifRead file = .ok interface := by
  rw [readSifFile]
  cases files path with
  | none => simp [pure, Except.pure]
  | some file => simp [catchRuntimeError_eq_some_iff]

/-- Without a base, the interface of the source is written. -/
theorem compileInputs_first_iff (hbase : options.basePath.isEmpty = true) :
    compileInputs host files options = .ok (some (interface, extensions)) ↔
      extensions = [] ∧ ∃ source, files options.inputPath = some source ∧
        parseInterfaceFile source 0 0 = .ok (some interface) := by
  rw [compileInputs, if_pos hbase, except_bind_eq_ok]
  constructor
  · rintro ⟨_ | source, hparse, h⟩
    · exact absurd h (by simp [pure, Except.pure])
    · obtain ⟨rfl, rfl⟩ := Prod.mk.inj (Option.some.inj (except_pure_eq_ok.1 h))
      exact ⟨rfl, parseInterfacePath_eq_some_iff.1 hparse⟩
  · rintro ⟨rfl, hparse⟩
    exact ⟨_, parseInterfacePath_eq_some_iff.2 hparse, rfl⟩

/-- With a base, the base is written, extended by the interface of the source. -/
theorem compileInputs_extension_iff (hbase : options.basePath.isEmpty = false) :
    compileInputs host files options = .ok (some (interface, extensions)) ↔
      (∃ file, files options.basePath = some file ∧ sifRead file = .ok interface) ∧
      ∃ source extension, extensions = [extension] ∧ files options.inputPath = some source ∧
        parseInterfaceFile source (UInt64.ofNat interface.abiversions.length)
          interface.currentFuncid = .ok (some extension) ∧
        validateExtensionInterface interface extension = .ok () := by
  rw [compileInputs, if_neg (by simp [hbase]), except_bind_eq_ok]
  constructor
  · -- each `none` on the way is a failure that was reported, which leaves no inputs
    rintro ⟨_ | base, hread, h⟩
    · exact absurd h (by simp [pure, Except.pure])
    obtain ⟨_ | extension, hparse, h⟩ := except_bind_eq_ok.1 h
    · exact absurd h (by simp [pure, Except.pure])
    obtain ⟨source, hsource, hparse⟩ := parseInterfacePath_eq_some_iff.1 hparse
    cases hvalid : validateExtensionInterface base extension with
    | error e =>
      simp only [hvalid] at h
      exact absurd h (by simp [pure, Except.pure])
    | ok u =>
      simp only [hvalid] at h
      obtain ⟨rfl, rfl⟩ := Prod.mk.inj (Option.some.inj (except_pure_eq_ok.1 h))
      exact ⟨readSifFile_eq_some_iff.1 hread, source, extension, rfl, hsource, hparse, hvalid⟩
  · rintro ⟨hread, source, extension, rfl, hsource, hparse, hvalid⟩
    refine ⟨_, readSifFile_eq_some_iff.2 hread, except_bind_eq_ok.2
      ⟨_, parseInterfacePath_eq_some_iff.2 ⟨source, hsource, hparse⟩, ?_⟩⟩
    simp only [hvalid]
    rfl

/-- What is written is what the contents of the files are compiled to. -/
theorem compile_of_compileInputs
    (h : compileInputs host files options = .ok (some (interface, extensions))) {artifact : Bytes} :
    (∃ source, files options.inputPath = some source ∧
      compile (if options.basePath.isEmpty then none else files options.basePath) source
        = .ok (some artifact)) ↔ sifWrite interface extensions = .ok artifact := by
  cases hbase : options.basePath.isEmpty with
  | true =>
    obtain ⟨rfl, source, hsource, hparse⟩ := (compileInputs_first_iff hbase).1 h
    simp only [if_true, compile_none_eq_some_iff]
    constructor
    · rintro ⟨source', hsource', interface', hparse', hwrite⟩
      obtain rfl := Option.some.inj (hsource.symm.trans hsource')
      obtain rfl := Option.some.inj (Except.ok.inj (hparse.symm.trans hparse'))
      exact hwrite
    · exact fun hwrite => ⟨source, hsource, interface, hparse, hwrite⟩
  | false =>
    obtain ⟨⟨file, hfile, hread⟩, source, extension, rfl, hsource, hparse, hvalid⟩ :=
      (compileInputs_extension_iff hbase).1 h
    simp only [Bool.false_eq_true, if_false, hfile, compile_some_eq_some_iff]
    constructor
    · rintro ⟨source', hsource', interface', extension', hread', hparse', -, hwrite⟩
      obtain rfl := Option.some.inj (hsource.symm.trans hsource')
      obtain rfl := Except.ok.inj (hread.symm.trans hread')
      obtain rfl := Option.some.inj (Except.ok.inj (hparse.symm.trans hparse'))
      exact hwrite
    · exact fun hwrite => ⟨source, hsource, interface, extension, hread, hparse, hvalid, hwrite⟩

/-- Interfaces of sources and of artifacts have their identity. -/
theorem identity_of_compileInputs
    (h : compileInputs host files options = .ok (some (interface, extensions))) :
    interface.hasUuid = true ∧ interface.hasPrefix = true := by
  cases hbase : options.basePath.isEmpty with
  | true =>
    obtain ⟨-, source, -, hparse⟩ := (compileInputs_first_iff hbase).1 h
    obtain ⟨hnormalized, -⟩ := parseInterfaceFile_spec (n := 0) hparse
    exact ⟨hnormalized.hasUuid, hnormalized.hasPrefix⟩
  | false =>
    obtain ⟨⟨file, -, hread⟩, -⟩ := (compileInputs_extension_iff hbase).1 h
    obtain ⟨hdecoded, -⟩ := (sifRead_eq_ok_iff ..).1 hread
    exact ⟨hdecoded.hasUuid, hdecoded.hasPrefix⟩

/-! ### The command -/

/-- The value of `output_path`. -/
def outputPath (args : List Bytes) : Bytes :=
  (takeOptions {} args).2.outputPath

/-- The command opens its output and calls `sif_write`. -/
structure ReachesWrite (host : Host) (args : List Bytes) (files : FileSystem)
    (interface : InterfaceNode) (extensions : List InterfaceNode) : Prop where
  taken : (takeOptions {} args).1 = true
  hasInput : (takeOptions {} args).2.inputPath ≠ []
  hasOutput : outputPath args ≠ []
  inputs : compileInputs host files (takeOptions {} args).2 = .ok (some (interface, extensions))
  directories : host.createDirectories (outputPath args) = .ok ()
  opens : host.opens (outputPath args) = true

theorem commandCompile_of_reaches (h : ReachesWrite host args files interface extensions) :
    commandCompile host args files
      = writeOutput host files (outputPath args) interface extensions := by
  rw [commandCompile]
  simp only [h.taken, Bool.not_true, Bool.false_eq_true, if_false, h.inputs]
  rw [if_neg]
  · rfl
  · simpa using ⟨h.hasInput, h.hasOutput⟩

theorem openBinaryOutputFile_of_reaches
    (h : ReachesWrite host args files interface extensions) :
    openBinaryOutputFile host files (outputPath args)
      = .ok (some (Function.update files (outputPath args) (some []))) := by
  rw [openBinaryOutputFile, h.directories]
  show (if host.opens (outputPath args) = true then _ else _) = _
  rw [if_pos h.opens]
  rfl

/-- **A command that gets to `sif_write` and can write** leaves the artifact. -/
theorem commandCompile_of_sifWrite (h : ReachesWrite host args files interface extensions)
    {artifact : Bytes} (hwrite : sifWrite interface extensions = .ok artifact) :
    commandCompile host args files
      = (.ok 0, Function.update files (outputPath args) (some artifact)) := by
  rw [commandCompile_of_reaches h, writeOutput, openBinaryOutputFile_of_reaches h]
  simp only [sifWriteTo_of_sifWrite hwrite, catchRuntimeError, Function.update_idem]

/-- A command that gets to `sif_write` and cannot write has truncated the output. -/
theorem commandCompile_of_not_writable (h : ReachesWrite host args files interface extensions)
    (hwrite : ¬ Writable interface extensions) :
    commandCompile host args files = (.ok 1, Function.update files (outputPath args)
      (some (brokenOff interface extensions))) := by
  obtain ⟨huuid, hpre⟩ := identity_of_compileInputs h.inputs
  obtain ⟨what, hstream⟩ := sifWriteTo_of_not_writable huuid hpre hwrite
  rw [commandCompile_of_reaches h, writeOutput, openBinaryOutputFile_of_reaches h]
  simp only [hstream, catchRuntimeError, Function.update_idem]

/-- A command that does not get to `sif_write` fails and changes nothing. -/
theorem commandCompile_of_not_reaches
    (h : ¬ ∃ interface extensions, ReachesWrite host args files interface extensions) :
    ∃ ending, ending ≠ .ok 0 ∧ commandCompile host args files = (ending, files) := by
  have hone : (Except.ok 1 : Except Exn Nat) ≠ .ok 0 := by simp
  rw [commandCompile]
  by_cases htaken : (takeOptions {} args).1 = true
  · by_cases hpaths : (takeOptions {} args).2.inputPath.isEmpty ∨
        (takeOptions {} args).2.outputPath.isEmpty
    · simp only [htaken, Bool.not_true, Bool.false_eq_true, if_false, if_pos hpaths]
      exact ⟨_, hone, rfl⟩
    simp only [htaken, Bool.not_true, Bool.false_eq_true, if_false, hpaths]
    rw [not_or] at hpaths
    cases hinputs : compileInputs host files (takeOptions {} args).2 with
    | error e => exact ⟨.error e, by simp, rfl⟩
    | ok inputs =>
      cases inputs with
      | none => exact ⟨_, hone, rfl⟩
      | some inputs =>
        -- Only the output can be in the way now.
        show ∃ ending, ending ≠ .ok 0 ∧
          writeOutput host files (outputPath args) inputs.1 inputs.2 = (ending, files)
        cases hdirectories : host.createDirectories (outputPath args) with
        | error e =>
          have hclosed : openBinaryOutputFile host files (outputPath args) = .error e := by
            rw [openBinaryOutputFile, hdirectories]
            rfl
          exact ⟨.error e, by simp, by rw [writeOutput, hclosed]⟩
        | ok u =>
          have hopens : ¬ host.opens (outputPath args) = true := by
            intro hopens
            exact h ⟨_, _, htaken, by simpa using hpaths.1,
              fun hempty => hpaths.2 (List.isEmpty_iff.2 hempty), hinputs, hdirectories, hopens⟩
          have hclosed : openBinaryOutputFile host files (outputPath args) = .ok none := by
            rw [openBinaryOutputFile, hdirectories]
            exact if_neg hopens
          exact ⟨_, hone, by rw [writeOutput, hclosed]⟩
  · simp only [htaken, Bool.not_false, if_true]
    exact ⟨_, hone, rfl⟩

/-- **A successful command** leaves in its output what the contents of its files are compiled to. -/
theorem commandCompile_success {files' : FileSystem}
    (h : commandCompile host args files = (.ok 0, files')) :
    ∃ source artifact, files (takeOptions {} args).2.inputPath = some source ∧
      compile (if (takeOptions {} args).2.basePath.isEmpty then none
        else files (takeOptions {} args).2.basePath) source = .ok (some artifact) ∧
      files' = Function.update files (outputPath args) (some artifact) := by
  by_cases hreaches : ∃ interface extensions, ReachesWrite host args files interface extensions
  · obtain ⟨interface, extensions, hreaches⟩ := hreaches
    by_cases hwritable : Writable interface extensions
    · have hwrite := (sifWrite_eq_ok_iff ..).2 ⟨hwritable, rfl⟩
      obtain ⟨source, hsource, hcompile⟩ := (compile_of_compileInputs hreaches.inputs).2 hwrite
      have hrun := commandCompile_of_sifWrite hreaches hwrite
      exact ⟨source, _, hsource, hcompile, congrArg Prod.snd (h.symm.trans hrun)⟩
    · have hrun := commandCompile_of_not_writable hreaches hwritable
      exact absurd (congrArg Prod.fst (h.symm.trans hrun)) (by simp)
  · obtain ⟨ending, hne, hrun⟩ := commandCompile_of_not_reaches hreaches
    exact absurd (congrArg Prod.fst (hrun.symm.trans h)) hne

/-! ### Failures -/

/-- A failing command leaves the file at `output_path` as it is. -/
def FailureKeepsOutput (host : Host) (args : List Bytes) (files : FileSystem) : Prop :=
  ∀ status, (commandCompile host args files).1 = .ok status → status ≠ 0 →
    (commandCompile host args files).2 (outputPath args) = files (outputPath args)

end

/-- **A failing command leaves its output as it is** exactly when the failure comes before
`sif_write`, or the output is already what a failing `sif_write` makes of it. Other files are never
changed. -/
theorem failureKeepsOutput_iff (host : Host) (args : List Bytes) (files : FileSystem) :
    (∀ path, path ≠ outputPath args → (commandCompile host args files).2 path = files path) ∧
      (FailureKeepsOutput host args files ↔ ∀ interface extensions,
        ReachesWrite host args files interface extensions → ¬ Writable interface extensions →
          files (outputPath args) = some (brokenOff interface extensions)) := by
  by_cases hreaches : ∃ interface extensions, ReachesWrite host args files interface extensions
  · -- the inputs determine what is written
    obtain ⟨interface, extensions, hreaches⟩ := hreaches
    have hunique {interface' : InterfaceNode} {extensions' : List InterfaceNode}
        (h : ReachesWrite host args files interface' extensions') :
        interface' = interface ∧ extensions' = extensions :=
      Prod.mk.inj (Option.some.inj (Except.ok.inj (h.inputs.symm.trans hreaches.inputs)))
    by_cases hwritable : Writable interface extensions
    · have hrun := commandCompile_of_sifWrite hreaches
        ((sifWrite_eq_ok_iff ..).2 ⟨hwritable, rfl⟩)
      rw [FailureKeepsOutput, hrun]
      refine ⟨fun path hne => Function.update_of_ne hne .., iff_of_true ?_ ?_⟩
      · intro status hstatus hne
        exact absurd (Except.ok.inj hstatus).symm hne
      · rintro interface' extensions' h hnot
        obtain ⟨rfl, rfl⟩ := hunique h
        exact absurd hwritable hnot
    · rw [FailureKeepsOutput, commandCompile_of_not_writable hreaches hwritable]
      refine ⟨fun path hne => Function.update_of_ne hne .., ?_⟩
      simp only [Function.update_self]
      constructor
      · rintro hkeeps interface' extensions' h -
        obtain ⟨rfl, rfl⟩ := hunique h
        exact (hkeeps 1 rfl one_ne_zero).symm
      · intro hold _ _ _
        exact (hold interface extensions hreaches hwritable).symm
  · -- nothing is opened for writing before the inputs are read
    obtain ⟨ending, -, hsame⟩ := commandCompile_of_not_reaches hreaches
    rw [FailureKeepsOutput, hsame]
    refine ⟨fun _ _ => rfl, iff_of_true (fun _ _ _ => rfl) ?_⟩
    intro interface extensions h
    exact absurd ⟨interface, extensions, h⟩ hreaches

/-! ### A source without revisions -/

/-- `compile -o a b` -/
def sampleArgs : List Bytes :=
  [ascii "-o", ascii "a", ascii "b"]

/-- The source declares an interface without revisions; the output holds a byte. -/
def sampleFiles : FileSystem := fun path =>
  if path = ascii "a" then some [0]
  else if path = ascii "b" then some (repeatedSource 0 [])
  else none

def sampleHost : Host where
  createDirectories _ := .ok ()
  isDirectory _ := false
  opens _ := true

/-- Compiling a source without revisions fails and empties the output. -/
theorem not_failureKeepsOutput_empty :
    ¬ ∀ (host : Host) (args : List Bytes) (files : FileSystem),
      FailureKeepsOutput host args files := by
  intro hall
  have hoptions : takeOptions {} sampleArgs
      = (true, { outputPath := ascii "a", inputPath := ascii "b" }) := by decide
  have hparse := parseInterfaceFile_decompileInterface (normalized_sampleInterface _)
    (printable_repeatedRevisions 0 []) (versionsFrom_repeatedRevisions 0 []) 0
  have hout : outputPath sampleArgs = ascii "a" := by rw [outputPath, hoptions]
  have hfile : sampleFiles (ascii "b") = some (repeatedSource 0 []) := by
    have hne : ascii "b" ≠ ascii "a" := by decide
    rw [sampleFiles, if_neg hne, if_pos rfl]
  have hreaches : ReachesWrite sampleHost sampleArgs sampleFiles
      ((sampleInterface (repeatedRevisions 0 [])).reparsed 0) [] := by
    refine ⟨?_, ?_, ?_, ?_, rfl, rfl⟩
    · rw [hoptions]
    · rw [hoptions]
      decide
    · rw [hout]
      decide
    · rw [hoptions]
      exact (compileInputs_first_iff rfl).2 ⟨rfl, _, hfile, hparse⟩
  -- an interface without revisions cannot be written
  have hwritable : ¬ Writable ((sampleInterface (repeatedRevisions 0 [])).reparsed 0) [] :=
    fun h => h.nonempty rfl
  have hbroken : brokenOff ((sampleInterface (repeatedRevisions 0 [])).reparsed 0) [] = [] :=
    if_neg fun h => h.1 rfl
  have hrun := commandCompile_of_not_writable hreaches hwritable
  have hkept := hall sampleHost sampleArgs sampleFiles 1 (congrArg Prod.fst hrun) one_ne_zero
  have hbefore : sampleFiles (ascii "a") = some [0] := if_pos rfl
  have hafter : Function.update sampleFiles (ascii "a") (some []) (ascii "a") = some [] :=
    Function.update_self ..
  rw [hrun, hbroken, hout, hbefore] at hkept
  exact absurd (hafter.symm.trans hkept) (by decide)

end Sidlc
