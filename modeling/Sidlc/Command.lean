import Sidlc.Compile
import Sidlc.Sif.Calls

/-!
# Running the compile command (`main.cc`)

`command_compile` with its options and its files. The file system is a map from paths to the
contents of files, beside which there can be directories; opening a file for output truncates it.
Memory does not run out, and nothing that is written gets lost.
-/

namespace Sidlc

/-! ### Options -/

/-- The locals of `command_compile` that its options set. -/
structure CompileOptions where
  basePath : Bytes := []
  outputPath : Bytes := []
  inputPath : Bytes := []
  deriving DecidableEq

/-- The local that an option sets: `-b`, `--base`, `--base=`, `-o`, `--output` or `--output=`. -/
def compileOption (arg : Bytes) : Option (CompileOptions → Bytes → CompileOptions) :=
  if arg = ascii "-b" ∨ arg = ascii "--base" ∨ (ascii "--base=").isPrefixOf arg then
    some fun options value => { options with basePath := value }
  else if arg = ascii "-o" ∨ arg = ascii "--output" ∨ (ascii "--output=").isPrefixOf arg then
    some fun options value => { options with outputPath := value }
  else none

/-- The loop of `command_compile` over its arguments; `false` where it returns. The value of an
option is what stands behind its `=`, or else the next argument (`take_option_value`). -/
def takeOptions (options : CompileOptions) : List Bytes → Bool × CompileOptions
  | [] => (true, options)
  | arg :: args =>
    match compileOption arg with
    | some set =>
      if chr '=' ∈ arg then
        takeOptions (set options ((arg.dropWhile (· ≠ chr '=')).drop 1)) args
      else
        match args with
        | [] => (false, options)
        | value :: args => takeOptions (set options value) args
    | none =>
      if (ascii "-").isPrefixOf arg then (false, options)
      else if options.inputPath.isEmpty then takeOptions { options with inputPath := arg } args
      else (false, options)

/-! ### Files -/

/-- The contents of the files that exist. -/
abbrev FileSystem := Bytes → Option Bytes

/-- What the operating system makes of a path. -/
structure Host where
  /-- `create_directories`, on the parent of the path if it has one. -/
  createDirectories : Bytes → Except Exn Unit
  /-- Whether the path can be opened for output. -/
  opens : Bytes → Bool
  /-- Whether the path, where it is no file, is a directory. -/
  isDirectory : Bytes → Bool

/-- A stream opens a directory like a file, but cannot read it: `read_file` lets the
`std::ios_base::failure` of the stream buffer through, a `std::runtime_error`. -/
def readsDirectory : Exn :=
  .runtimeError "basic_filebuf::underflow error reading the file: Is a directory"

/-- `read_sif_file`; its stream reports a directory as a file that ends at once. -/
def readSifFile (files : FileSystem) (path : Bytes) : Except Exn (Option InterfaceNode) :=
  match files path with
  | none => return none
  | some file => catchRuntimeError (sifRead file)

/-- `parse_interface_file`, from the path on. -/
def parseInterfacePath (host : Host) (files : FileSystem) (path : Bytes)
    (firstAbirevision : UInt64) (firstFuncid : UInt32) : Except Exn (Option InterfaceNode) :=
  match files path with
  | none => if host.isDirectory path then .error readsDirectory else return none
  | some source => parseInterfaceFile source firstAbirevision firstFuncid

/-- `open_binary_output_file` -/
def openBinaryOutputFile (host : Host) (files : FileSystem) (path : Bytes) :
    Except Exn (Option FileSystem) := do
  host.createDirectories path
  if host.opens path then return some (Function.update files path (some [])) else return none

/-! ### The command -/

/-- `command_compile` up to the output: the interface and the extensions for `sif_write`. -/
def compileInputs (host : Host) (files : FileSystem) (options : CompileOptions) :
    Except Exn (Option (InterfaceNode × List InterfaceNode)) := do
  if options.basePath.isEmpty then
    match ← parseInterfacePath host files options.inputPath 0 0 with
    | none => return none
    | some source => return some (source, [])
  else
    match ← readSifFile files options.basePath with
    | none => return none
    | some base =>
      match ← parseInterfacePath host files options.inputPath
        (UInt64.ofNat base.abiversions.length) base.currentFuncid with
      | none => return none
      | some source =>
        match validateExtensionInterface base source with
        | .error _ => return none
        | .ok () => return some (base, [source])

/-- `command_compile` from the output on: the exit status and the files afterwards. -/
def writeOutput (host : Host) (files : FileSystem) (outputPath : Bytes) (interface : InterfaceNode)
    (extensions : List InterfaceNode) : Except Exn Nat × FileSystem :=
  match openBinaryOutputFile host files outputPath with
  | .error e => (.error e, files)
  | .ok none => (.ok 1, files)
  | .ok (some opened) =>
    let written := sifWriteTo interface extensions
    let files := Function.update opened outputPath (some written.1)
    match catchRuntimeError written.2 with
    | .error e => (.error e, files)
    | .ok none => (.ok 1, files)
    | .ok (some ()) => (.ok 0, files)

/-- `command_compile`, on the arguments behind the subcommand: the exit status, or an exception that
is not caught, and the files afterwards. -/
def commandCompile (host : Host) (args : List Bytes) (files : FileSystem) :
    Except Exn Nat × FileSystem :=
  let (taken, options) := takeOptions {} args
  if !taken then (.ok 1, files)
  else if options.inputPath.isEmpty ∨ options.outputPath.isEmpty then (.ok 1, files)
  else
    match compileInputs host files options with
    | .error e => (.error e, files)
    | .ok none => (.ok 1, files)
    | .ok (some (interface, extensions)) =>
      writeOutput host files options.outputPath interface extensions

end Sidlc
