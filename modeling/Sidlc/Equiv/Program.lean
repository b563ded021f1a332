import Sidlc.Equiv.Command
import Sidlc.Equiv.Recompile
import Sidlc.Generate.Equiv.FunctionNumbers
import Sidlc.Program
import Sidlc.Sif.Equiv.Partial

/-!
# Runs of the program

Over any sequence of invocations, whatever their options and however they end, the only files that
`sif_read` accepts are artifacts compiled from files that were there before (`accepted_compiled`):
the rest of what the commands write, texts and what failing commands leave, it rejects. On such
files the other commands end without exceptions of their own.
-/

namespace Sidlc

open CellFormat StateExcept

/-! ### Options -/

theorem valued_compileParser : compileParser.valued = compileOption :=
  rfl

/-- The loop of `command_compile` is the shared one. -/
theorem compileParser_take (options : CompileOptions) (args : List Bytes) :
    compileParser.take options args = takeOptions options args := by
  induction options, args using takeOptions.induct with
  | case1 options => rfl
  | case2 options arg args set hset hequals ih =>
    rw [OptionParser.take, takeOptions, valued_compileParser, hset]
    simpa only [hequals, if_true] using ih
  | case3 options arg set hset hequals =>
    rw [OptionParser.take, takeOptions, valued_compileParser, hset]
    simp only [hequals, if_false]
  | case4 options arg set hset hequals value args ih =>
    rw [OptionParser.take, takeOptions, valued_compileParser, hset]
    simpa only [hequals, if_false] using ih
  | case5 options arg args hset hdash =>
    rw [OptionParser.take, takeOptions, valued_compileParser, hset]
    exact (if_pos hdash).trans (if_pos hdash).symm
  | case6 options arg args hset hdash hempty ih =>
    rw [OptionParser.take, takeOptions, valued_compileParser, hset]
    exact ((if_neg hdash).trans (if_pos hempty)).trans
      (ih.trans ((if_neg hdash).trans (if_pos hempty)).symm)
  | case7 options arg args hset hdash hempty =>
    rw [OptionParser.take, takeOptions, valued_compileParser, hset]
    exact ((if_neg hdash).trans (if_neg hempty)).trans
      ((if_neg hdash).trans (if_neg hempty)).symm

/-! ### Contents that are no artifacts -/

/-- `sif_read` does not accept the bytes. -/
def Rejected (bs : Bytes) : Prop :=
  ∃ e, sifRead bs = .error e

theorem Rejected.ne_ok {bs : Bytes} {interface : InterfaceNode} (h : Rejected bs) :
    sifRead bs ≠ .ok interface := by
  obtain ⟨e, he⟩ := h
  rw [he]
  nofun

/-- The first byte of the magic is an `S`. -/
theorem rejected_cons {b : UInt8} (h : b ≠ 83) (bs : Bytes) : Rejected (b :: bs) := by
  cases hread : sifRead (b :: bs) with
  | error e => exact ⟨e, hread⟩
  | ok interface =>
    obtain ⟨-, hmatches⟩ := (sifRead_eq_ok_iff ..).1 hread
    obtain ⟨hfirst, -⟩ := List.forall₂_cons.1 hmatches
    exact absurd hfirst h

theorem rejected_decompileInterface (interface : InterfaceNode) :
    Rejected (decompileInterface interface) :=
  rejected_cons (b := chr '@') (by decide) _

theorem rejected_banner (build : Build) (name more : Bytes) :
    Rejected (banner build name ++ more) :=
  rejected_cons (b := chr '/') (by decide) _

section Texts

variable {build : Build} {abi : ArchAbi} {interface : InterfaceNode} {text : Bytes}

theorem rejected_writeHeader {mode : HeaderMode} {dependencyHeaderName : Bytes}
    (h : writeHeader build mode dependencyHeaderName abi interface = .ok text) : Rejected text := by
  rw [writeHeader] at h
  split_ifs at h
  split at h
  · split_ifs at h
  · rw [← Except.ok.inj h]
    simp only [List.append_assoc]
    exact rejected_banner build interface.name _

theorem rejected_writeUserSource {headerName : Bytes} {makeWeakSymbols emitHandleBinding : Bool}
    (h : writeUserSource build headerName makeWeakSymbols emitHandleBinding abi interface
      = .ok text) : Rejected text := by
  rw [writeUserSource] at h
  split_ifs at h
  rw [← Except.ok.inj h, userSourceHead]
  simp only [List.append_assoc]
  exact rejected_banner build interface.name _

theorem rejected_writeModuleSource {headerName : Bytes}
    (h : writeModuleSource build headerName abi interface = .ok text) : Rejected text := by
  rw [writeModuleSource] at h
  split_ifs at h
  obtain ⟨functionsById, -, htext⟩ := except_bind_eq_ok.1 h
  rw [← Except.ok.inj htext]
  unfold writeDispatcher
  simp only [List.append_assoc]
  exact rejected_banner build interface.name _

end Texts

/-! ### What an invocation writes -/

/-- The contents that an invocation may leave in a file that it writes. -/
inductive Product (files : FileSystem) : Bytes → Prop
  | rejected {content : Bytes} (h : Rejected content) : Product files content
  | first {path source artifact : Bytes} (hsource : files path = some source)
      (h : compile none source = .ok (some artifact)) : Product files artifact
  | extended {basePath base path source artifact : Bytes} (hbase : files basePath = some base)
      (hsource : files path = some source)
      (h : compile (some base) source = .ok (some artifact)) : Product files artifact

/-- Every file holds what it held before, or something new. -/
def Changes (new : Bytes → Prop) (files files' : FileSystem) : Prop :=
  ∀ path content, files' path = some content → files path = some content ∨ new content

namespace Changes

variable {new : Bytes → Prop} {files files' files'' : FileSystem}

theorem refl (files : FileSystem) : Changes new files files :=
  fun _ _ h => .inl h

theorem trans (h : Changes new files files') (h' : Changes new files' files'') :
    Changes new files files'' := by
  intro path content hcontent
  rcases h' path content hcontent with hbefore | hnew
  · exact h path content hbefore
  · exact .inr hnew

theorem mono {new' : Bytes → Prop} (h : Changes new files files')
    (hnew : ∀ content, new content → new' content) : Changes new' files files' :=
  fun path content hcontent => (h path content hcontent).imp_right (hnew content)

theorem update (files : FileSystem) (path : Bytes) {content : Bytes} (h : new content) :
    Changes new files (Function.update files path (some content)) := by
  intro path' content' hcontent
  by_cases hpath : path' = path
  · subst hpath
    rw [Function.update_self] at hcontent
    exact .inr (Option.some.inj hcontent ▸ h)
  · rw [Function.update_of_ne hpath] at hcontent
    exact .inl hcontent

end Changes

section Commands

variable {host : Host} {files : FileSystem} {interface : InterfaceNode}

theorem rejected_nil : Rejected [] :=
  sifRead_nil

/-- What `sif_write` leaves when it succeeds is compiled from the files. -/
theorem product_of_compileInputs {options : CompileOptions} {extensions : List InterfaceNode}
    {artifact : Bytes} (h : compileInputs host files options = .ok (some (interface, extensions)))
    (hwrite : sifWrite interface extensions = .ok artifact) : Product files artifact := by
  obtain ⟨source, hsource, hcompile⟩ := (compile_of_compileInputs h).2 hwrite
  cases hbase : options.basePath.isEmpty with
  | true =>
    rw [hbase] at hcompile
    exact .first hsource hcompile
  | false =>
    obtain ⟨⟨base, hfile, -⟩, -⟩ := (compileInputs_extension_iff hbase).1 h
    rw [hbase, hfile] at hcompile
    exact .extended hfile hsource hcompile

theorem changes_commandCompile (host : Host) (args : List Bytes) (files : FileSystem) :
    Changes (Product files) files (commandCompile host args files).2 := by
  by_cases hreaches : ∃ interface extensions, ReachesWrite host args files interface extensions
  · obtain ⟨interface, extensions, hreaches⟩ := hreaches
    by_cases hwritable : Writable interface extensions
    · have hwrite := (sifWrite_eq_ok_iff ..).2 ⟨hwritable, rfl⟩
      rw [commandCompile_of_sifWrite hreaches hwrite]
      exact .update _ _ (product_of_compileInputs hreaches.inputs hwrite)
    · obtain ⟨huuid, hpre⟩ := identity_of_compileInputs hreaches.inputs
      rw [commandCompile_of_not_writable hreaches hwritable]
      exact .update _ _ (.rejected (sifRead_brokenOff huuid hpre extensions))
  · obtain ⟨ending, -, hrun⟩ := commandCompile_of_not_reaches hreaches
    rw [hrun]
    exact .refl files

theorem changes_openOutputFile {path : Bytes} {opened : FileSystem}
    (h : openOutputFile host files path = .ok (some opened)) : Changes Rejected files opened := by
  rw [openOutputFile] at h
  obtain ⟨-, -, h⟩ := except_bind_eq_ok.1 h
  split at h
  · rw [Option.some.inj (except_pure_eq_ok.1 h)]
    exact .update _ _ rejected_nil
  · exact absurd (except_pure_eq_ok.1 h) (by simp)

theorem rejected_sifDecompile {text : Bytes} (h : sifDecompile interface = .ok text) :
    Rejected text := by
  rw [sifDecompile] at h
  split_ifs at h
  rw [← Except.ok.inj h]
  exact rejected_decompileInterface interface

theorem changes_commandDecompile (host : Host) (args : List Bytes) (files : FileSystem) :
    Changes Rejected files (commandDecompile host args files).2 := by
  rw [commandDecompile]
  dsimp only
  split_ifs
  · exact .refl files
  · exact .refl files
  split
  · exact .refl files
  · exact .refl files
  split
  · exact .refl files
  · exact .refl files
  next opened hopened =>
    have hchanges := changes_openOutputFile hopened
    split
    · exact hchanges
    next text htext => exact hchanges.trans (.update _ _ (rejected_sifDecompile htext))

theorem changes_generateFile {path : Bytes} {text : Except Exn Bytes}
    (h : ∀ t, text = .ok t → Rejected t) :
    Changes Rejected files (generateFile host path text files).2 := by
  unfold generateFile
  split
  · cases text with
    | error e => exact .update _ _ rejected_nil
    | ok t => exact .update _ _ (h t rfl)
  · exact .refl files

theorem changes_andThen {step : Writing Bool} {next : FileSystem → Writing Bool}
    (hstep : Changes Rejected files step.2)
    (hnext : ∀ files', Changes Rejected files' (next files').2) :
    Changes Rejected files (andThen step next).2 := by
  obtain ⟨_ | _ | _, files'⟩ := step
  · exact hstep
  · exact hstep
  · exact hstep.trans (hnext files')

theorem changes_cGenerate (host : Host) (build : Build) (abi : ArchAbi)
    (interface : InterfaceNode) (options : CGenerateOptions) (files : FileSystem) :
    Changes Rejected files (cGenerate host build abi interface options files).2 := by
  rw [cGenerate]
  split
  · exact .refl files
  refine changes_andThen (changes_generateFile fun _ => rejected_writeHeader) fun files' => ?_
  refine changes_andThen (changes_generateFile fun _ => rejected_writeHeader) fun files' => ?_
  split
  · exact changes_generateFile fun _ => rejected_writeModuleSource
  · exact changes_generateFile fun _ => rejected_writeUserSource

end Commands

/-! ### Generating -/

/-- A file that cannot be read or is not accepted is reported. -/
theorem readSifFile_ne_error (files : FileSystem) (path : Bytes) (e : Exn) :
    readSifFile files path ≠ .error e := by
  rw [readSifFile]
  cases files path with
  | none => simp [pure, Except.pure]
  | some file =>
    cases hread : sifRead file with
    | ok interface => simp [catchRuntimeError, hread]
    | error e' =>
      obtain ⟨what, rfl⟩ := sifRead_error hread
      simp [catchRuntimeError, hread]

/-- With these options the command reads an artifact and goes on to its outputs. -/
structure ReachesOutputs (options : GenerateOptions) (files : FileSystem) (abi : ArchAbi)
    (interface : InterfaceNode) (mode : CGenerateMode) (headerName : Bytes) : Prop where
  hasHeaderDir : options.headerDir ≠ []
  hasSource : options.sourcePath ≠ []
  hasInput : options.inputPath ≠ []
  arch : archAbis.lookup options.arch = some abi
  lang : options.lang = ascii "c"
  mode : generateMode options.mode (Path.stem options.inputPath) = some (mode, headerName)
  read : readSifFile files options.inputPath = .ok (some interface)

section Generate

variable {host : DirectoryHost} {build : Build} {args : List Bytes} {files : FileSystem}
  {options : GenerateOptions} {abi : ArchAbi} {interface : InterfaceNode} {mode : CGenerateMode}
  {headerName : Bytes}

theorem lookup_archAbis_nil : archAbis.lookup [] = none :=
  by decide

theorem generateMode_nil (baseName : Bytes) : generateMode [] baseName = none :=
  rfl

/-- No option that is needed is empty. -/
theorem ReachesOutputs.given (h : ReachesOutputs options files abi interface mode headerName) :
    ¬ (options.arch.isEmpty ∨ options.lang.isEmpty ∨ options.mode.isEmpty ∨
      options.headerDir.isEmpty ∨ options.sourcePath.isEmpty ∨ options.inputPath.isEmpty) := by
  have harch : options.arch ≠ [] := by
    intro hempty
    have hlookup := h.arch
    rw [hempty, lookup_archAbis_nil] at hlookup
    cases hlookup
  have hmode : options.mode ≠ [] := by
    intro hempty
    have hname := h.mode
    rw [hempty, generateMode_nil] at hname
    cases hname
  have hlang : options.lang ≠ [] := by
    rw [h.lang]
    decide
  simp [harch, hlang, hmode, h.hasHeaderDir, h.hasSource, h.hasInput]

theorem commandGenerate_of_reaches (hargs : generateParser.take {} args = (true, options))
    (h : ReachesOutputs options files abi interface mode headerName) :
    commandGenerate host build args files
      = writeGenerated host build abi interface options mode headerName files := by
  have hknown : ascii "c" ∈ langNames := by decide
  rw [commandGenerate, hargs]
  dsimp only
  rw [if_neg (by decide), if_neg h.given, h.arch, h.lang]
  dsimp only
  rw [if_neg (not_not.2 hknown), if_neg (not_not.2 rfl), h.mode, h.read]

/-- A command that does not get to its outputs changes nothing. -/
theorem commandGenerate_of_not_reaches
    (h : ¬ ∃ options abi interface mode headerName,
      generateParser.take {} args = (true, options) ∧
        ReachesOutputs options files abi interface mode headerName) :
    commandGenerate host build args files = (.ok 1, files) := by
  rw [commandGenerate]
  rcases hargs : generateParser.take {} args with ⟨taken, options⟩
  dsimp only
  cases taken with
  | false => rfl
  | true =>
    rw [if_neg (by decide)]
    split
    · rfl
    rename_i hgiven
    cases harch : archAbis.lookup options.arch with
    | none => rfl
    | some abi =>
      dsimp only
      split
      · rfl
      split
      · rfl
      rename_i hlang
      cases hmode : generateMode options.mode (Path.stem options.inputPath) with
      | none => rfl
      | some names =>
        dsimp only
        cases hread : readSifFile files options.inputPath with
        | error e => exact absurd hread (readSifFile_ne_error files options.inputPath e)
        | ok read =>
          cases read with
          | none => rfl
          | some interface =>
            simp only [not_or, List.isEmpty_iff] at hgiven
            exact absurd ⟨options, abi, interface, names.1, names.2, hargs, hgiven.2.2.2.1,
              hgiven.2.2.2.2.1, hgiven.2.2.2.2.2, harch, not_not.1 hlang, hmode, hread⟩ h

/-! The outputs -/

/-- The outputs, one after the other, up to the first that cannot be opened. -/
def writeOutputs (host : Host) : List (Bytes × Bytes) → FileSystem → Writing Bool
  | [], files => (.ok true, files)
  | (path, text) :: outputs, files =>
    if host.opens path then
      writeOutputs host outputs (Function.update files path (some text))
    else (.ok false, files)

/-- The files after writing the outputs. -/
def FileSystem.written (files : FileSystem) (outputs : List (Bytes × Bytes)) : FileSystem :=
  outputs.foldl (fun files output => Function.update files output.1 (some output.2)) files

theorem writeOutputs_eq (host : Host) (outputs : List (Bytes × Bytes)) (files : FileSystem) :
    writeOutputs host outputs files = (.ok (outputs.all fun output => host.opens output.1),
      files.written (outputs.takeWhile fun output => host.opens output.1)) := by
  induction outputs generalizing files with
  | nil => rfl
  | cons output outputs ih =>
    rw [writeOutputs]
    by_cases hopens : host.opens output.1 = true
    · rw [if_pos hopens, ih, List.all_cons, List.takeWhile_cons, hopens, Bool.true_and]
      rfl
    · rw [if_neg hopens, List.all_cons, List.takeWhile_cons, Bool.eq_false_iff.2 hopens]
      rfl

/-- The text of the source file that `c_generate` writes. -/
def CGenerateOptions.sourceText (options : CGenerateOptions) (build : Build) (abi : ArchAbi)
    (interface : InterfaceNode) : Except Exn Bytes :=
  if options.mode = .Server then
    writeModuleSource build options.sourceHeaderIncludePath abi interface
  else
    writeUserSource build options.sourceHeaderIncludePath options.makeWeakSymbols
      (options.mode = .Client) abi interface

/-- The generators have no exception to raise, and these are their outputs. -/
structure Outputs (options : CGenerateOptions) (build : Build) (abi : ArchAbi)
    (interface : InterfaceNode) where
  types : Bytes
  header : Bytes
  source : Bytes
  types_eq : writeHeader build .TYPE [] abi interface = .ok types
  header_eq : writeHeader build options.mode.headerMode options.typeHeaderIncludePath abi interface
    = .ok header
  source_eq : options.sourceText build abi interface = .ok source

/-- The files that are written, in order. -/
def Outputs.list {options : CGenerateOptions} (outputs : Outputs options build abi interface) :
    List (Bytes × Bytes) :=
  [(options.typeHeaderPath, outputs.types), (options.headerPath, outputs.header),
    (options.sourcePath, outputs.source)]

theorem cGenerate_eq {options : CGenerateOptions} (outputs : Outputs options build abi interface)
    (hpaths : options.requiredPaths.any List.isEmpty = false) (host : Host) (files : FileSystem) :
    cGenerate host build abi interface options files = writeOutputs host outputs.list files := by
  have hfile {path text : Bytes} {next : FileSystem → Writing Bool} (files : FileSystem) :
      andThen (generateFile host path (.ok text) files) next =
        if host.opens path then next (Function.update files path (some text))
        else (.ok false, files) := by
    unfold generateFile
    by_cases hopens : host.opens path = true
    · rw [if_pos hopens, if_pos hopens]
      rfl
    · rw [if_neg hopens, if_neg hopens]
      rfl
  have hsource := outputs.source_eq
  rw [CGenerateOptions.sourceText] at hsource
  rw [cGenerate, hpaths, if_neg Bool.false_ne_true]
  simp only [generateTypeHeader, generateHeaderFile, outputs.types_eq, outputs.header_eq, hfile]
  by_cases hmode : options.mode = .Server
  · rw [if_pos hmode] at hsource
    simp only [if_pos hmode, generateModuleSourceFile, hsource]
    rfl
  · rw [if_neg hmode] at hsource
    simp only [if_neg hmode, generateUserSourceFile, hsource]
    rfl

theorem writeHeader_of_normalized (h : interface.Normalized) (habi : 2 < abi.maxRegArgs)
    (build : Build) (mode : HeaderMode) (dependencyHeaderName : Bytes) :
    ∃ text, writeHeader build mode dependencyHeaderName abi interface = .ok text := by
  rw [writeHeader, if_neg (by omega), h.hasUuid, h.hasPrefix, find?_identity_of_normalized h]
  exact ⟨_, rfl⟩

/-- A function has the number for which the table of the dispatcher gets no place. -/
def InterfaceNode.HasLastNumber (interface : InterfaceNode) : Prop :=
  ∃ f ∈ functionsOf interface.abiversions, f.id.toNat = 2 ^ 32 - 1

theorem writeModuleSource_of_normalized (h : interface.Normalized) (habi : 2 < abi.maxRegArgs)
    (hids : ¬interface.HasLastNumber) (build : Build) (headerName : Bytes) :
    ∃ text, writeModuleSource build headerName abi interface = .ok text := by
  have hplaces : ∀ f ∈ functionsOf interface.abiversions, f.id.toNat < 2 ^ 32 - 1 := by
    intro f hf
    have hmax := f.id.toNat_lt
    have hne : f.id.toNat ≠ 2 ^ 32 - 1 := fun hid => hids ⟨f, hf, hid⟩
    omega
  have htable := foldlM_visitFunction (functionsOf interface.abiversions)
  rw [if_pos hplaces] at htable
  rw [writeModuleSource, if_neg (by omega), h.hasPrefix, any_annotations_eq_false h _ (.inr rfl),
    if_neg (by decide), if_neg (by decide)]
  show ∃ text, ((functionsOf interface.abiversions).foldlM visitFunction [] >>= _) = .ok text
  rw [htable]
  exact ⟨_, rfl⟩

/-- An interface whose identity is not among its annotations has its outputs. -/
theorem exists_outputs (h : interface.Normalized) (habi : 2 < abi.maxRegArgs)
    (options : CGenerateOptions) (hids : options.mode = .Server → ¬interface.HasLastNumber)
    (build : Build) :
    Nonempty (Outputs options build abi interface) := by
  obtain ⟨types, htypes⟩ := writeHeader_of_normalized h habi build .TYPE []
  obtain ⟨header, hheader⟩ := writeHeader_of_normalized h habi build options.mode.headerMode
    options.typeHeaderIncludePath
  obtain ⟨source, hsource⟩ : ∃ source, options.sourceText build abi interface = .ok source := by
    rw [CGenerateOptions.sourceText]
    split
    · next hmode =>
      exact writeModuleSource_of_normalized h habi (hids hmode) build _
    · rw [writeUserSource, h.hasPrefix, any_annotations_eq_false h _ (.inr rfl)]
      exact ⟨_, rfl⟩
  exact ⟨types, header, source, htypes, hheader, hsource⟩

theorem append_ne_nil (p : Bytes) {q : Bytes} (h : q ≠ []) : Path.append p q ≠ [] := by
  rw [Path.append]
  split_ifs <;> simp [h]

theorem genericString_ne_nil {p : Bytes} (h : p ≠ []) : Path.genericString p ≠ [] := by
  induction p with
  | nil => exact absurd rfl h
  | cons c p ih =>
    rw [Path.genericString]
    split_ifs with hseparator
    · -- another separator follows
      refine ih fun hnil => ?_
      rw [hnil] at hseparator
      cases hseparator.2
    · exact List.cons_ne_nil _ _

/-- No path is missing. -/
theorem requiredPaths_toC (hsource : options.sourcePath ≠ []) (hmode : generateMode options.mode
      (Path.stem options.inputPath) = some (mode, headerName)) :
    (options.toC mode headerName).requiredPaths.any List.isEmpty = false := by
  have hheader : headerName ≠ [] := by
    rw [generateMode] at hmode
    split_ifs at hmode <;>
      (rw [← (Prod.mk.inj (Option.some.inj hmode)).2]; simp [ascii])
  have htypes : Path.stem options.inputPath ++ ascii ".types.h" ≠ [] := by simp [ascii]
  have hinclude : includePathFor options.includeDir headerName ≠ [] := by
    rw [includePathFor]
    split_ifs
    · exact hheader
    · exact genericString_ne_nil (append_ne_nil _ hheader)
  have htypesPath := genericString_ne_nil (append_ne_nil options.headerDir htypes)
  have hheaderPath := genericString_ne_nil (append_ne_nil options.headerDir hheader)
  simp only [GenerateOptions.toC, CGenerateOptions.requiredPaths, List.any_cons, List.any_nil,
    Bool.or_false, Bool.or_eq_false_iff, List.isEmpty_eq_false_iff]
  exact ⟨htypesPath, htypes, hheaderPath, hsource, hinclude⟩

/-- **From the options on, `command_generate` writes its outputs up to the first that cannot be
opened**; the only exceptions are those of the directories. -/
theorem writeGenerated_eq (hpaths : (options.toC mode headerName).requiredPaths.any List.isEmpty
      = false)
    (outputs : Outputs (options.toC mode headerName) build abi interface) :
    writeGenerated host build abi interface options mode headerName files =
      match host.createDirectory options.headerDir, host.createDirectories options.sourcePath with
      | .error e, _ => (.error e, files)
      | .ok (), .error e => (.error e, files)
      | .ok (), .ok () =>
        (.ok (if outputs.list.all fun output => host.opens output.1 then 0 else 1),
          files.written (outputs.list.takeWhile fun output => host.opens output.1)) := by
  rw [writeGenerated, cGenerate_eq outputs hpaths, writeOutputs_eq]
  cases host.createDirectory options.headerDir with
  | error e => rfl
  | ok u =>
    cases host.createDirectories options.sourcePath with
    | error e => rfl
    | ok u => rfl

theorem changes_commandGenerate (host : DirectoryHost) (build : Build) (args : List Bytes)
    (files : FileSystem) : Changes Rejected files (commandGenerate host build args files).2 := by
  by_cases hreaches : ∃ options abi interface mode headerName,
      generateParser.take {} args = (true, options) ∧
        ReachesOutputs options files abi interface mode headerName
  · obtain ⟨options, abi, interface, mode, headerName, hargs, hreaches⟩ := hreaches
    rw [commandGenerate_of_reaches hargs hreaches, writeGenerated]
    split
    · exact .refl files
    split
    · exact .refl files
    have hchanges := changes_cGenerate host.toHost build abi interface
      (options.toC mode headerName) files
    rcases hrun : cGenerate host.toHost build abi interface (options.toC mode headerName) files
      with ⟨ending, files'⟩
    rw [hrun] at hchanges
    cases ending with
    | error e => exact hchanges
    | ok done => exact hchanges
  · rw [commandGenerate_of_not_reaches hreaches]
    exact .refl files

end Generate

/-! ### Runs -/

theorem changes_main (host : DirectoryHost) (build : Build) (argv : List Bytes)
    (files : FileSystem) : Changes (Product files) files (main host build argv files).2 := by
  cases argv with
  | nil => exact .refl files
  | cons command args =>
    rw [main]
    split_ifs
    · exact .refl files
    · exact .refl files
    · exact changes_commandCompile host.toHost args files
    · exact (changes_commandDecompile host.toHost args files).mono fun _ => .rejected
    · exact (changes_commandGenerate host build args files).mono fun _ => .rejected
    · exact .refl files

/-- The files change: by an invocation of the program, or else by an edit that does not make up an
artifact, by a copy, or by a removal. -/
inductive Step (files : FileSystem) : FileSystem → Prop
  | invoke (host : DirectoryHost) (build : Build) (argv : List Bytes) :
      Step files (main host build argv files).2
  | edit (path : Bytes) {content : Bytes} (h : Rejected content) :
      Step files (Function.update files path (some content))
  | copy (source target : Bytes) : Step files (Function.update files target (files source))
  | remove (path : Bytes) : Step files (Function.update files path none)

/-- The files over time, the latest first. There is no artifact at the beginning. -/
inductive History : List FileSystem → Prop
  | first {files : FileSystem}
      (h : ∀ path content, files path = some content → Rejected content) : History [files]
  | next {files files' : FileSystem} {past : List FileSystem} (h : History (files :: past))
      (hstep : Step files files') : History (files' :: files :: past)

/-- A source of one function. -/
def sourceFiles : FileSystem := fun path =>
  if path = ascii "b" then some (repeatedSource 0 [1]) else none

/-- On x86-64 only the low bits of the shift count. -/
def sampleBuild : Build where
  version := ascii "0.0.1"
  gitHash := ascii "unknown"
  wideShift bits := 1 <<< (bits % 64)

def sampleDirectoryHost : DirectoryHost :=
  { sampleHost with createDirectory := fun _ => .ok () }

/-- `sidlc compile -o a b` -/
theorem exists_history :
    ∃ (files : FileSystem) (artifact : Bytes) (interface : InterfaceNode),
      History [files, sourceFiles] ∧ files (ascii "a") = some artifact ∧
        sifRead artifact = .ok interface := by
  obtain ⟨artifact, abiversions, currentFuncid, hcompile, -, hartifact⟩ :=
    compile_repeatedSource [1] (by simp) (by decide) (by decide)
  obtain ⟨parsed, hparse, hwrite⟩ := compile_none_eq_some_iff.1 hcompile
  have hoptions : takeOptions {} sampleArgs
      = (true, { outputPath := ascii "a", inputPath := ascii "b" }) := by decide
  have hreaches : ReachesWrite sampleHost sampleArgs sourceFiles parsed [] := by
    refine ⟨?_, ?_, ?_, ?_, rfl, rfl⟩
    · rw [hoptions]
    · rw [hoptions]
      decide
    · rw [outputPath, hoptions]
      decide
    · rw [hoptions]
      exact (compileInputs_first_iff rfl).2 ⟨rfl, _, if_pos rfl, hparse⟩
  have hrun : main sampleDirectoryHost sampleBuild (ascii "compile" :: sampleArgs) sourceFiles
      = (.ok 0, Function.update sourceFiles (outputPath sampleArgs) (some artifact)) := by
    rw [main, if_neg (by decide), if_neg (by decide), if_pos rfl]
    exact commandCompile_of_sifWrite hreaches hwrite
  have hpath : outputPath sampleArgs = ascii "a" := by rw [outputPath, hoptions]
  have hstep : Step sourceFiles (Function.update sourceFiles (ascii "a") (some artifact)) := by
    have hinvoke := @Step.invoke sourceFiles sampleDirectoryHost sampleBuild
      (ascii "compile" :: sampleArgs)
    rwa [hrun, hpath] at hinvoke
  refine ⟨_, artifact, _, .next (.first ?_) hstep, Function.update_self .., hartifact.sifRead⟩
  intro path content hcontent
  rw [sourceFiles] at hcontent
  split at hcontent
  · rw [← Option.some.inj hcontent]
    exact rejected_decompileInterface _
  · cases hcontent

/-- The artifact is compiled from the contents of files. -/
def CompiledFrom (past : List FileSystem) (artifact : Bytes) : Prop :=
  ∃ sources, Compiled sources artifact ∧
    ∀ source ∈ sources, ∃ files ∈ past, ∃ path, files path = some source

/-- What a step may put into a file. -/
inductive Content (files : FileSystem) (content : Bytes) : Prop
  | old {path : Bytes} (h : files path = some content)
  | new (h : Product files content)

theorem Step.content {files files' : FileSystem} (h : Step files files') {path content : Bytes}
    (hcontent : files' path = some content) : Content files content := by
  cases h with
  | invoke host build argv =>
    rcases changes_main host build argv files path content hcontent with hold | hnew
    · exact .old hold
    · exact .new hnew
  | edit path' hrejected =>
    rcases Changes.update files path' hrejected path content hcontent with hold | hnew
    · exact .old hold
    · exact .new (.rejected hnew)
  | copy source target =>
    by_cases hpath : path = target
    · subst hpath
      rw [Function.update_self] at hcontent
      exact .old hcontent
    · rw [Function.update_of_ne hpath] at hcontent
      exact .old hcontent
  | remove path' =>
    by_cases hpath : path = path'
    · subst hpath
      rw [Function.update_self] at hcontent
      cases hcontent
    · rw [Function.update_of_ne hpath] at hcontent
      exact .old hcontent

theorem CompiledFrom.mono {past past' : List FileSystem} {artifact : Bytes}
    (h : CompiledFrom past artifact) (hsub : past ⊆ past') : CompiledFrom past' artifact := by
  obtain ⟨sources, hcompiled, hsources⟩ := h
  refine ⟨sources, hcompiled, fun source hsource => ?_⟩
  obtain ⟨files, hfiles, hpath⟩ := hsources source hsource
  exact ⟨files, hsub hfiles, hpath⟩

theorem History.compiledFrom {files : FileSystem} {past : List FileSystem}
    (h : History (files :: past)) {path artifact : Bytes} {interface : InterfaceNode}
    (hfile : files path = some artifact) (hread : sifRead artifact = .ok interface) :
    CompiledFrom past artifact := by
  induction past generalizing files path artifact interface with
  | nil =>
    cases h with
    | first hrejected => exact absurd hread (hrejected path artifact hfile).ne_ok
  | cons before past ih =>
    cases h with
    | next h hstep =>
    -- an accepted base is compiled from what was there before it
    have hbefore {path content : Bytes} {interface : InterfaceNode}
        (hcontent : before path = some content) (hread : sifRead content = .ok interface) :
        CompiledFrom (before :: past) content :=
      (ih h hcontent hread).mono (List.subset_cons_self ..)
    cases hstep.content hfile with
    | old hold => exact hbefore hold hread
    | new hnew =>
      cases hnew with
      | rejected hrejected => exact absurd hread hrejected.ne_ok
      | first hsource hcompile =>
        exact ⟨_, .first hcompile, List.forall_mem_singleton.2
          ⟨before, List.mem_cons_self, _, hsource⟩⟩
      | extended hbase hsource hcompile =>
        obtain ⟨base, extension, hread', -⟩ := compile_some_eq_some_iff.1 hcompile
        obtain ⟨sources, hcompiled, hsources⟩ := hbefore hbase hread'
        refine ⟨_, hcompiled.extend hcompile, fun source hmem => ?_⟩
        rcases List.mem_append.1 hmem with hmem | hmem
        · exact hsources source hmem
        · rw [List.mem_singleton.1 hmem]
          exact ⟨before, List.mem_cons_self, _, hsource⟩

/-- What is accepted is what the compiler makes. -/
theorem History.artifact {files : FileSystem} {past : List FileSystem}
    (h : History (files :: past)) {path file : Bytes} {interface : InterfaceNode}
    (hfile : files path = some file) (hread : sifRead file = .ok interface) :
    Artifact file interface := by
  obtain ⟨sources, hcompiled, -⟩ := h.compiledFrom hfile hread
  obtain ⟨interface', -, hartifact, -⟩ := hcompiled.spec
  obtain rfl : interface' = interface :=
    Except.ok.inj (hartifact.sifRead.symm.trans hread)
  exact hartifact

/-- **Every file that is ever accepted was compiled** from sources that were files before, and is
what `sif_write` makes of what it holds. -/
theorem accepted_compiled (files : FileSystem) (past : List FileSystem)
    (h : History (files :: past)) (path artifact : Bytes) (interface : InterfaceNode)
    (hfile : files path = some artifact) (hread : sifRead artifact = .ok interface) :
    CompiledFrom past artifact ∧ sifWrite interface [] = .ok artifact := by
  refine ⟨h.compiledFrom hfile hread, ?_⟩
  have hartifact := h.artifact hfile hread
  rw [hartifact.decoded.sifWrite_nil, ← hartifact.bytes]

/-- The artifact of a source with one function. -/
theorem accepted_compiled_sample :
    ∃ (files : FileSystem) (artifact : Bytes),
      files (ascii "a") = some artifact ∧ CompiledFrom [sourceFiles] artifact := by
  obtain ⟨files, artifact, interface, h, hfile, hread⟩ := exists_history
  exact ⟨files, artifact, hfile,
    (accepted_compiled files _ h (ascii "a") artifact interface hfile hread).1⟩

/-! ### Commands at the end of a run -/

theorem maxRegArgs_archAbis {arch : Bytes} {abi : ArchAbi}
    (h : archAbis.lookup arch = some abi) : 2 < abi.maxRegArgs := by
  rw [archAbis, List.lookup_cons] at h
  split at h
  · rw [← Option.some.inj h]
    decide
  · cases h

/-- **`command_generate` in any run** changes nothing and ends with `1`, or reads an artifact for
which it writes a header of types, a header and a source, in this order up to the first that cannot
be opened. It ends with `0` when all are written, and raises nothing but what the directories raise.
Only the server of an interface with the last of all numbers has no source. -/
theorem generate_ends (files : FileSystem) (past : List FileSystem) (h : History (files :: past))
    (host : DirectoryHost) (build : Build) (args : List Bytes) :
    ((¬ ∃ options abi interface mode headerName, generateParser.take {} args = (true, options) ∧
        ReachesOutputs options files abi interface mode headerName) →
      commandGenerate host build args files = (.ok 1, files)) ∧
    ∀ options abi interface mode headerName, generateParser.take {} args = (true, options) →
      ReachesOutputs options files abi interface mode headerName →
      (mode = .Server → ¬interface.HasLastNumber) →
      ∃ outputs : Outputs (options.toC mode headerName) build abi interface,
        commandGenerate host build args files =
          match host.createDirectory options.headerDir,
            host.createDirectories options.sourcePath with
          | .error e, _ => (.error e, files)
          | .ok (), .error e => (.error e, files)
          | .ok (), .ok () =>
            (.ok (if outputs.list.all fun output => host.opens output.1 then 0 else 1),
              files.written (outputs.list.takeWhile fun output => host.opens output.1)) := by
  refine ⟨commandGenerate_of_not_reaches, ?_⟩
  intro options abi interface mode headerName hargs hreaches hids
  obtain ⟨file, hfile, hread⟩ := readSifFile_eq_some_iff.1 hreaches.read
  obtain ⟨outputs⟩ := exists_outputs (h.artifact hfile hread).normalized
    (maxRegArgs_archAbis hreaches.arch) (options.toC mode headerName) hids build
  refine ⟨outputs, ?_⟩
  rw [commandGenerate_of_reaches hargs hreaches]
  exact writeGenerated_eq (requiredPaths_toC hreaches.hasSource hreaches.mode) outputs

/-- `generate -a x86_64 -l c --mode=client -h h// -s s a` -/
def sampleGenerateArgs : List Bytes :=
  [ascii "-a", ascii "x86_64", ascii "-l", ascii "c", ascii "--mode=client", ascii "-h",
    ascii "h//", ascii "-s", ascii "s", ascii "a"]

def sampleGenerateOptions : GenerateOptions where
  arch := ascii "x86_64"
  lang := ascii "c"
  mode := ascii "client"
  headerDir := ascii "h//"
  sourcePath := ascii "s"
  inputPath := ascii "a"

/-- A client of the artifact of a source with one function. -/
theorem generate_ends_sample :
    ∃ (files : FileSystem) (types header source : Bytes),
      commandGenerate sampleDirectoryHost sampleBuild sampleGenerateArgs files
        = (.ok 0, files.written [(ascii "h/a.types.h", types), (ascii "h/a.h", header),
            (ascii "s", source)]) := by
  obtain ⟨files, artifact, interface, h, hfile, hread⟩ := exists_history
  have hargs : generateParser.take {} sampleGenerateArgs = (true, sampleGenerateOptions) := by
    decide +kernel
  have hmode : generateMode sampleGenerateOptions.mode
      (Path.stem sampleGenerateOptions.inputPath) = some (.Client, ascii "a.h") := by
    decide +kernel
  obtain ⟨outputs, hrun⟩ := (generate_ends files _ h sampleDirectoryHost sampleBuild
    sampleGenerateArgs).2 sampleGenerateOptions x86_64 interface .Client (ascii "a.h") hargs
    ⟨by decide, by decide, by decide, rfl, rfl, hmode,
      readSifFile_eq_some_iff.2 ⟨artifact, hfile, hread⟩⟩ (by rintro ⟨⟩)
  have htypes : Path.genericString (Path.append (ascii "h//")
      (Path.stem (ascii "a") ++ ascii ".types.h")) = ascii "h/a.types.h" := by decide +kernel
  have hheader : Path.genericString (Path.append (ascii "h//") (ascii "a.h"))
      = ascii "h/a.h" := by decide +kernel
  refine ⟨files, outputs.types, outputs.header, outputs.source, ?_⟩
  rw [← htypes, ← hheader]
  exact hrun

theorem commandDecompile_of_read {host : Host} {args : List Bytes} {files : FileSystem}
    {options : DecompileOptions} {file : Bytes} {interface : InterfaceNode}
    (hargs : decompileParser.take {} args = (true, options)) (hinput : options.inputPath ≠ [])
    (houtput : options.outputPath ≠ []) (hfile : files options.inputPath = some file)
    (hartifact : Artifact file interface)
    (hdirectories : host.createDirectories options.outputPath = .ok ())
    (hopens : host.opens options.outputPath = true) :
    commandDecompile host args files = (.ok 0,
      Function.update files options.outputPath (some (decompileInterface interface))) := by
  have hread : readSifFile files options.inputPath = .ok (some interface) :=
    readSifFile_eq_some_iff.2 ⟨file, hfile, hartifact.sifRead⟩
  have hopened : openOutputFile host files options.outputPath
      = .ok (some (Function.update files options.outputPath (some []))) := by
    rw [openOutputFile, hdirectories]
    exact if_pos hopens
  rw [commandDecompile, hargs]
  dsimp only
  rw [if_neg (by decide), if_neg (by simp [hinput, houtput]), hread]
  dsimp only
  rw [hopened]
  dsimp only
  rw [hartifact.sifDecompile]
  dsimp only
  rw [Function.update_idem]

/-- The text of an accepted file is compiled. -/
theorem commandCompile_of_text {host : Host} {args : List Bytes} {files : FileSystem}
    {options : CompileOptions} {file : Bytes} {interface : InterfaceNode}
    (hargs : takeOptions {} args = (true, options)) (hbase : options.basePath = [])
    (hinput : options.inputPath ≠ []) (houtput : options.outputPath ≠ [])
    (htext : files options.inputPath = some (decompileInterface interface))
    (hartifact : Artifact file interface)
    (hdirectories : host.createDirectories options.outputPath = .ok ())
    (hopens : host.opens options.outputPath = true) :
    ∃ recompiled, compile none (decompileInterface interface) = .ok (some recompiled) ∧
      Artifact recompiled ((interface.reparsed 0).merged []) ∧
      commandCompile host args files
        = (.ok 0, Function.update files options.outputPath (some recompiled)) := by
  obtain ⟨recompiled, hcompile, hrecompiled⟩ := compile_decompileInterface hartifact.normalized
    hartifact.printable hartifact.decoded.writable hartifact.decoded.versions
  obtain ⟨parsed, hparse, hwrite⟩ := compile_none_eq_some_iff.1 hcompile
  have hpath : outputPath args = options.outputPath := by rw [outputPath, hargs]
  have hreaches : ReachesWrite host args files parsed [] := by
    refine ⟨?_, ?_, ?_, ?_, ?_, ?_⟩
    · rw [hargs]
    · rw [hargs]
      exact hinput
    · rw [hpath]
      exact houtput
    · rw [hargs]
      exact (compileInputs_first_iff (by rw [hbase]; rfl)).2 ⟨rfl, _, htext, hparse⟩
    · rw [hpath]
      exact hdirectories
    · rw [hpath]
      exact hopens
  rw [← hpath]
  exact ⟨recompiled, hcompile, hrecompiled, commandCompile_of_sifWrite hreaches hwrite⟩

/-- **Decompiling and compiling again, in any run**, succeeds for every accepted file where the
outputs can be opened, and gives the same bytes exactly when the functions of the file are numbered
from `0`. -/
theorem decompile_compile (files : FileSystem) (past : List FileSystem)
    (h : History (files :: past)) (host : Host) (file : Bytes) (interface : InterfaceNode)
    (hread : sifRead file = .ok interface) (args args' : List Bytes) (options : DecompileOptions)
    (options' : CompileOptions) (hargs : decompileParser.take {} args = (true, options))
    (hargs' : takeOptions {} args' = (true, options')) (hbase : options'.basePath = [])
    (hinput : options.inputPath ≠ []) (hfile : files options.inputPath = some file)
    (houtput : options.outputPath ≠ []) (hinput' : options'.inputPath = options.outputPath)
    (houtput' : options'.outputPath ≠ [])
    (hdirectories : ∀ path, host.createDirectories path = .ok ())
    (hopens : ∀ path, host.opens path = true) :
    ∃ files₁ files₂ recompiled, commandDecompile host args files = (.ok 0, files₁) ∧
      commandCompile host args' files₁ = (.ok 0, files₂) ∧
      files₂ options'.outputPath = some recompiled ∧
      (recompiled = file ↔ NumberedFrom 0 (functionsOf interface.abiversions)) := by
  have hartifact := h.artifact hfile hread
  have hdecompile := commandDecompile_of_read hargs hinput houtput hfile hartifact
    (hdirectories _) (hopens _)
  have htext : Function.update files options.outputPath (some (decompileInterface interface))
      options'.inputPath = some (decompileInterface interface) := by
    rw [hinput', Function.update_self]
  obtain ⟨recompiled, hcompile, -, hrun⟩ := commandCompile_of_text hargs' hbase
    (by rwa [hinput']) houtput' htext hartifact (hdirectories _) (hopens _)
  refine ⟨_, _, recompiled, hdecompile, hrun, Function.update_self .., ?_⟩
  rw [← hartifact.compile_decompileInterface_iff, hcompile, Except.ok.injEq, Option.some.injEq]

/-- `decompile -o t a` and `compile -o c t` give the artifact of a source with one function. -/
theorem decompile_compile_sample :
    ∃ (files files₁ files₂ : FileSystem) (recompiled : Bytes),
      commandDecompile sampleHost [ascii "-o", ascii "t", ascii "a"] files = (.ok 0, files₁) ∧
      commandCompile sampleHost [ascii "-o", ascii "c", ascii "t"] files₁ = (.ok 0, files₂) ∧
      files₂ (ascii "c") = some recompiled := by
  obtain ⟨files, artifact, interface, h, hfile, hread⟩ := exists_history
  obtain ⟨files₁, files₂, recompiled, hdecompile, hcompile, hout, -⟩ := decompile_compile files _ h
    sampleHost artifact interface hread [ascii "-o", ascii "t", ascii "a"]
    [ascii "-o", ascii "c", ascii "t"] ⟨ascii "t", ascii "a"⟩ ⟨[], ascii "c", ascii "t"⟩
    (by decide) (by decide) rfl (by decide) hfile (by decide) rfl (by decide) (fun _ => rfl)
    (fun _ => rfl)
  exact ⟨files, files₁, files₂, recompiled, hdecompile, hcompile, hout⟩

end Sidlc
