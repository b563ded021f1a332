import Sidlc.Parser
import Sidlc.Sif.Read

/-!
# The compile command (`main.cc`)

Files are their contents. A function that prints a diagnostic and returns `false` returns the text
it prints instead (`Except Bytes`); the exit status is all that is left of it in `compile`.
-/

namespace Sidlc

open Decimal

/-! ### Interface metadata -/

/-- A diagnostic of `main.cc`. -/
abbrev Diagnosed := Except Bytes

/-- `get_string_literal_arg`: the text between the quotes. -/
def getStringLiteralArg (node : AnnotationNode) (index : Nat) : Diagnosed Bytes :=
  let message (text : Bytes) : Bytes :=
    ascii "Error: @" ++ node.name ++ ascii " argument " ++ numeral index ++ text
  match node.args[index]? with
  | some (.string value) =>
    if value.length < 2 ∨ value.head? ≠ some (chr '"') ∨ value.getLast? ≠ some (chr '"') then
      .error (message (ascii " is not a valid string literal"))
    else .ok ((value.drop 1).take (value.length - 2))
  | _ => .error (message (ascii " must be a string literal"))

/-- The locals of `normalize_interface_metadata`. -/
structure Metadata where
  node : InterfaceNode
  foundUuid : Bool := false
  foundPrefix : Bool := false
  remainingAnnotations : List AnnotationNode := []

def Metadata.takeUuid (m : Metadata) (node : AnnotationNode) : Diagnosed Metadata :=
  if m.foundUuid then .error (ascii "Error: interface has duplicate @uuid annotations")
  else if node.args.length ≠ 2 then
    .error (ascii "Error: @uuid requires namespace UUID and name arguments")
  else do
    let namespaceStr ← getStringLiteralArg node 0
    let nameStr ← getStringLiteralArg node 1
    if !Uuid.isValidUuid namespaceStr then .error (ascii "Error: invalid @uuid namespace UUID")
    else
      match Uuid.fromString namespaceStr with
      | none => .error (ascii "Error: invalid @uuid namespace UUID")
      | some namespaceUuid => .ok { m with
          node := { m.node with
            uuidNamespace := namespaceUuid
            uuidName := nameStr
            hasUuid := true }
          foundUuid := true }

def Metadata.takePrefix (m : Metadata) (node : AnnotationNode) : Diagnosed Metadata :=
  if m.foundPrefix then .error (ascii "Error: interface has duplicate @prefix annotations")
  else if node.args.length ≠ 1 then
    .error (ascii "Error: @prefix requires one string argument")
  else do
    let prefixStr ← getStringLiteralArg node 0
    .ok { m with node := { m.node with prefixStr, hasPrefix := true }, foundPrefix := true }

/-- The body of the loop of `normalize_interface_metadata`. -/
def Metadata.take (m : Metadata) (node : AnnotationNode) : Diagnosed Metadata :=
  if node.name ≠ ascii "uuid" ∧ node.name ≠ ascii "prefix" then
    .ok { m with remainingAnnotations := m.remainingAnnotations ++ [node] }
  else if node.name = ascii "uuid" then m.takeUuid node
  else m.takePrefix node

def normalizeInterfaceMetadata (node : InterfaceNode) : Diagnosed InterfaceNode := do
  let m ← node.annotations.foldlM Metadata.take { node }
  if !m.foundUuid then .error (ascii "Error: interface requires a @uuid identity")
  else if !m.foundPrefix then .error (ascii "Error: interface requires a @prefix")
  else .ok { m.node with annotations := m.remainingAnnotations }

/-- `parse_interface_file`; `none` is the result `false`. -/
def parseInterfaceFile (source : Bytes) (firstAbirevision : UInt64) (firstFuncid : UInt32) :
    Except Exn (Option InterfaceNode) := do
  match ← Parser.parse source firstAbirevision firstFuncid with
  | none => return none
  | some interface => return (normalizeInterfaceMetadata interface).toOption

/-! ### Extensions -/

def expressionKey : ExpressionNode → Bytes
  | .string value => ascii "s:" ++ value
  | .number value => ascii "n:" ++ numeral value.toNat
  | .identifier name => ascii "i:" ++ name

def annotationKey (node : AnnotationNode) : Bytes :=
  node.name ++ ascii "(" ++ (ascii ",").intercalate (node.args.map expressionKey) ++ ascii ")"

def interfaceAnnotationKey (node : InterfaceNode) : Bytes :=
  node.annotations.flatMap fun node => annotationKey node ++ ascii "\n"

def validateExtensionInterface (base extension : InterfaceNode) : Diagnosed Unit :=
  if base.name ≠ extension.name then
    .error (ascii "Error: SIF base interface " ++ base.name
      ++ ascii " does not match source interface " ++ extension.name)
  else if !base.hasUuid ∨ !extension.hasUuid ∨ base.uuidNamespace ≠ extension.uuidNamespace ∨
      base.uuidName ≠ extension.uuidName then
    .error (ascii "Error: SIF base interface UUID identity does not match source interface")
  else if !base.hasPrefix ∨ !extension.hasPrefix ∨ base.prefixStr ≠ extension.prefixStr then
    .error (ascii "Error: SIF base interface prefix does not match source interface")
  else if interfaceAnnotationKey base ≠ interfaceAnnotationKey extension then
    .error (ascii "Error: SIF base interface annotations do not match source interface")
  else .ok ()

/-! ### The command -/

/-- A `catch (const std::runtime_error &)` that returns with a failure, `none`. -/
def catchRuntimeError {α : Type} : Except Exn α → Except Exn (Option α)
  | .ok a => .ok (some a)
  | .error (.runtimeError _) => .ok none
  | .error e => .error e

/-- `command_compile` without `-b`: the artifact that is written, or `none` with exit status `1`. -/
def compileFirst (source : Bytes) : Except Exn (Option Bytes) := do
  match ← parseInterfaceFile source 0 0 with
  | none => return none
  | some interface => catchRuntimeError (sifWrite interface [])

/-- `command_compile` with `-b`. -/
def compileExtension (base source : Bytes) : Except Exn (Option Bytes) := do
  match ← catchRuntimeError (sifRead base) with
  | none => return none
  | some base =>
    match ← parseInterfaceFile source (UInt64.ofNat base.abiversions.length) base.currentFuncid with
    | none => return none
    | some extension =>
      match validateExtensionInterface base extension with
      | .error _ => return none
      | .ok () => catchRuntimeError (sifWrite base [extension])

/-- `command_compile`: the source is compiled by itself or as an extension of the base. -/
def compile : Option Bytes → Bytes → Except Exn (Option Bytes)
  | none, source => compileFirst source
  | some base, source => compileExtension base source

end Sidlc
