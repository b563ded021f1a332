import Sidlc.Command
import Sidlc.Generate.SourceText
import Sidlc.Sif.Decompile

/-!
# The program (`main.cc`, `c_handler.cc`)

`main` with its three subcommands, on the files that `command_compile` is modelled on. What goes to
the standard streams is left out.
-/

namespace Sidlc

/-! ### Options -/

/-- The option loop that the commands share. -/
structure OptionParser (ω : Type) where
  /-- The local that an option with a value sets. -/
  valued : Bytes → Option (ω → Bytes → ω)
  /-- The local that an option without a value sets. -/
  flag : Bytes → Option (ω → ω)
  inputPath : ω → Bytes
  setInputPath : ω → Bytes → ω

/-- The loop over the arguments; `false` where the command returns. -/
def OptionParser.take {ω : Type} (parser : OptionParser ω) (options : ω) : List Bytes → Bool × ω
  | [] => (true, options)
  | arg :: args =>
    match parser.valued arg with
    | some set =>
      if chr '=' ∈ arg then
        parser.take (set options ((arg.dropWhile (· ≠ chr '=')).drop 1)) args
      else
        match args with
        | [] => (false, options)
        | value :: args => parser.take (set options value) args
    | none =>
      match parser.flag arg with
      | some set => parser.take (set options) args
      | none =>
        if (ascii "-").isPrefixOf arg then (false, options)
        else if (parser.inputPath options).isEmpty then
          parser.take (parser.setInputPath options arg) args
        else (false, options)

/-- `arg == short || arg == long || arg.rfind(long + "=", 0) == 0` -/
def namesOption (short long arg : Bytes) : Bool :=
  arg = short || arg = long || (long ++ ascii "=").isPrefixOf arg

/-- The options of `command_compile`. -/
def compileParser : OptionParser CompileOptions where
  valued := compileOption
  flag _ := none
  inputPath := CompileOptions.inputPath
  setInputPath options arg := { options with inputPath := arg }

/-- The locals of `command_decompile` that its options set. -/
structure DecompileOptions where
  outputPath : Bytes := []
  inputPath : Bytes := []
  deriving DecidableEq

def decompileParser : OptionParser DecompileOptions where
  valued arg :=
    if namesOption (ascii "-o") (ascii "--output") arg then
      some fun options value => { options with outputPath := value }
    else none
  flag _ := none
  inputPath := DecompileOptions.inputPath
  setInputPath options arg := { options with inputPath := arg }

/-- The locals of `command_generate` that its options set. -/
structure GenerateOptions where
  arch : Bytes := []
  lang : Bytes := []
  mode : Bytes := []
  headerDir : Bytes := []
  includeDir : Bytes := []
  sourcePath : Bytes := []
  inputPath : Bytes := []
  weak : Bool := false
  deriving DecidableEq

def generateParser : OptionParser GenerateOptions where
  valued arg :=
    if namesOption (ascii "-a") (ascii "--arch") arg then
      some fun options value => { options with arch := value }
    else if namesOption (ascii "-l") (ascii "--lang") arg then
      some fun options value => { options with lang := value }
    else if namesOption (ascii "-m") (ascii "--mode") arg then
      some fun options value => { options with mode := value }
    else if namesOption (ascii "-h") (ascii "--header-dir") arg then
      some fun options value => { options with headerDir := value }
    else if namesOption (ascii "-i") (ascii "--include-dir") arg then
      some fun options value => { options with includeDir := value }
    else if namesOption (ascii "-s") (ascii "--source-path") arg then
      some fun options value => { options with sourcePath := value }
    else none
  flag arg :=
    if arg = ascii "--weak" then some fun options => { options with weak := true } else none
  inputPath := GenerateOptions.inputPath
  setInputPath options arg := { options with inputPath := arg }

/-! ### Paths -/

namespace Path

/-- `filename()`, where `/` is the only separator. -/
def filename (p : Bytes) : Bytes :=
  (p.reverse.takeWhile (· ≠ chr '/')).reverse

/-- `generic_string()`: one separator between the elements. -/
def genericString : Bytes → Bytes
  | [] => []
  | c :: p =>
    if c = chr '/' ∧ p.head? = some (chr '/') then genericString p else c :: genericString p

/-- `stem()`: the file name up to its last period, unless that is its first character, or the name
is one of the two special ones. -/
def stem (p : Bytes) : Bytes :=
  let f := filename p
  if f = ascii "." ∨ f = ascii ".." then f
  else
    match f.reverse.dropWhile (· ≠ chr '.') with
    | [] => f
    | _ :: before => if before.isEmpty then f else before.reverse

/-- `operator/` -/
def append (p q : Bytes) : Bytes :=
  if q.head? = some (chr '/') then q
  else if (filename p).isEmpty then p ++ q
  else p ++ ascii "/" ++ q

end Path

/-- `include_path_for` -/
def includePathFor (includeDir headerName : Bytes) : Bytes :=
  if includeDir.isEmpty then headerName
  else Path.genericString (Path.append includeDir headerName)

/-! ### `c_generate` -/

inductive CGenerateMode where
  | Client
  | Server
  | ServerClient
  deriving DecidableEq

structure CGenerateOptions where
  mode : CGenerateMode
  typeHeaderPath : Bytes
  typeHeaderIncludePath : Bytes
  headerPath : Bytes
  sourcePath : Bytes
  sourceHeaderIncludePath : Bytes
  makeWeakSymbols : Bool

/-- What a function that writes files ends with, and the files afterwards. -/
abbrev Writing (α : Type) :=
  Except Exn α × FileSystem

/-- Opens a file for output, which truncates it, and writes what the generator writes. -/
def generateFile (host : Host) (path : Bytes) (text : Except Exn Bytes) (files : FileSystem) :
    Writing Bool :=
  if host.opens path then
    match text with
    | .error e => (.error e, Function.update files path (some []))
    | .ok text => (.ok true, Function.update files path (some text))
  else (.ok false, files)

/-- `if (!step) return false;` -/
def andThen (step : Writing Bool) (next : FileSystem → Writing Bool) : Writing Bool :=
  match step with
  | (.ok true, files) => next files
  | (result, files) => (result, files)

section Generate

variable (host : Host) (build : Build) (abi : ArchAbi) (interface : InterfaceNode)

/-- `generate_type_header` -/
def generateTypeHeader (headerPath : Bytes) : FileSystem → Writing Bool :=
  generateFile host headerPath (writeHeader build .TYPE [] abi interface)

/-- `generate_header` -/
def generateHeaderFile (headerPath typeHeaderIncludePath : Bytes) (mode : HeaderMode) :
    FileSystem → Writing Bool :=
  generateFile host headerPath (writeHeader build mode typeHeaderIncludePath abi interface)

/-- `generate_user_source` -/
def generateUserSourceFile (sourcePath headerIncludePath : Bytes)
    (makeWeakSymbols emitHandleBinding : Bool) : FileSystem → Writing Bool :=
  generateFile host sourcePath
    (writeUserSource build headerIncludePath makeWeakSymbols emitHandleBinding abi interface)

/-- `generate_module_source` -/
def generateModuleSourceFile (sourcePath headerIncludePath : Bytes) : FileSystem → Writing Bool :=
  generateFile host sourcePath (writeModuleSource build headerIncludePath abi interface)

/-- `header_mode` -/
def CGenerateMode.headerMode : CGenerateMode → HeaderMode
  | .Client => .CLIENT
  | .Server => .SERVER
  | .ServerClient => .SERVER_CLIENT

/-- The paths that `require_path` is called on. -/
def CGenerateOptions.requiredPaths (options : CGenerateOptions) : List Bytes :=
  [options.typeHeaderPath, options.typeHeaderIncludePath, options.headerPath, options.sourcePath,
    options.sourceHeaderIncludePath]

/-- `c_generate` -/
def cGenerate (options : CGenerateOptions) (files : FileSystem) : Writing Bool :=
  if options.requiredPaths.any List.isEmpty then (.ok false, files)
  else
    andThen (generateTypeHeader host build abi interface options.typeHeaderPath files) fun files =>
      andThen (generateHeaderFile host build abi interface options.headerPath
          options.typeHeaderIncludePath options.mode.headerMode files) fun files =>
        if options.mode = .Server then
          generateModuleSourceFile host build abi interface options.sourcePath
            options.sourceHeaderIncludePath files
        else
          generateUserSourceFile host build abi interface options.sourcePath
            options.sourceHeaderIncludePath options.makeWeakSymbols
            (options.mode = .Client) files

end Generate

/-! ### The commands -/

/-- `create_directories`, on a path itself. -/
structure DirectoryHost extends Host where
  createDirectory : Bytes → Except Exn Unit

/-- `arch_abis` -/
def archAbis : List (Bytes × ArchAbi) :=
  [(ascii "x86_64", x86_64)]

/-- The keys of `lang_infos`. -/
def langNames : List Bytes :=
  [ascii "c"]

/-- The mode and the header name that `command_generate` makes of `--mode`. -/
def generateMode (mode baseName : Bytes) : Option (CGenerateMode × Bytes) :=
  if mode = ascii "client" then some (.Client, baseName ++ ascii ".h")
  else if mode = ascii "server" then some (.Server, baseName ++ ascii ".server.h")
  else if mode = ascii "server-client" then
    some (.ServerClient, baseName ++ ascii ".server-client.h")
  else none

/-- The options that `command_generate` hands to `c_generate`. -/
def GenerateOptions.toC (options : GenerateOptions) (mode : CGenerateMode) (headerName : Bytes) :
    CGenerateOptions :=
  let typeHeaderName := Path.stem options.inputPath ++ ascii ".types.h"
  { mode
    typeHeaderPath := Path.genericString (Path.append options.headerDir typeHeaderName)
    typeHeaderIncludePath := typeHeaderName
    headerPath := Path.genericString (Path.append options.headerDir headerName)
    sourcePath := options.sourcePath
    sourceHeaderIncludePath := includePathFor options.includeDir headerName
    makeWeakSymbols := options.weak }

/-- `command_generate` from the directories on. -/
def writeGenerated (host : DirectoryHost) (build : Build) (abi : ArchAbi)
    (interface : InterfaceNode) (options : GenerateOptions) (mode : CGenerateMode)
    (headerName : Bytes) (files : FileSystem) : Writing Nat :=
  match host.createDirectory options.headerDir with
  | .error e => (.error e, files)
  | .ok () =>
    match host.createDirectories options.sourcePath with
    | .error e => (.error e, files)
    | .ok () =>
      match cGenerate host.toHost build abi interface (options.toC mode headerName) files with
      | (.error e, files) => (.error e, files)
      | (.ok done, files) => (.ok (if done then 0 else 1), files)

/-- `command_generate`, on the arguments behind the subcommand. -/
def commandGenerate (host : DirectoryHost) (build : Build) (args : List Bytes)
    (files : FileSystem) : Writing Nat :=
  let (taken, options) := generateParser.take {} args
  if !taken then (.ok 1, files)
  else if options.arch.isEmpty ∨ options.lang.isEmpty ∨ options.mode.isEmpty ∨
      options.headerDir.isEmpty ∨ options.sourcePath.isEmpty ∨ options.inputPath.isEmpty then
    (.ok 1, files)
  else
    match archAbis.lookup options.arch with
    | none => (.ok 1, files)
    | some abi =>
      if options.lang ∉ langNames then (.ok 1, files)
      else if options.lang ≠ ascii "c" then (.ok 1, files)
      else
        match generateMode options.mode (Path.stem options.inputPath) with
        | none => (.ok 1, files)
        | some (mode, headerName) =>
          match readSifFile files options.inputPath with
          | .error e => (.error e, files)
          | .ok none => (.ok 1, files)
          | .ok (some interface) =>
            writeGenerated host build abi interface options mode headerName files

/-- `open_output_file`: on the files, what `open_binary_output_file` is. -/
def openOutputFile (host : Host) (files : FileSystem) (path : Bytes) :
    Except Exn (Option FileSystem) := do
  host.createDirectories path
  if host.opens path then return some (Function.update files path (some [])) else return none

/-- `command_decompile`, on the arguments behind the subcommand. -/
def commandDecompile (host : Host) (args : List Bytes) (files : FileSystem) : Writing Nat :=
  let (taken, options) := decompileParser.take {} args
  if !taken then (.ok 1, files)
  else if options.inputPath.isEmpty ∨ options.outputPath.isEmpty then (.ok 1, files)
  else
    match readSifFile files options.inputPath with
    | .error e => (.error e, files)
    | .ok none => (.ok 1, files)
    | .ok (some interface) =>
      match openOutputFile host files options.outputPath with
      | .error e => (.error e, files)
      | .ok none => (.ok 1, files)
      | .ok (some opened) =>
        match sifDecompile interface with
        | .error e => (.error e, opened)
        | .ok text => (.ok 0, Function.update opened options.outputPath (some text))

/-- `main`, on the arguments behind the name of the program. -/
def main (host : DirectoryHost) (build : Build) (argv : List Bytes) (files : FileSystem) :
    Writing Nat :=
  match argv with
  | [] => (.ok 1, files)
  | command :: args =>
    if command = ascii "--help" then (.ok 0, files)
    else if command = ascii "--version" ∨ command = ascii "-v" then (.ok 0, files)
    else if command = ascii "compile" then commandCompile host.toHost args files
    else if command = ascii "decompile" then commandDecompile host.toHost args files
    else if command = ascii "generate" then commandGenerate host build args files
    else (.ok 1, files)

end Sidlc
