import Sidlc.Library.Decimal
import Sidlc.Library.Printing
import Sidlc.Sif.Write

/-!
# Printing SIDL (`sif_decompile` and the `decompile_*` functions of `sif.cc`)

What a function puts on the stream is its result.
-/

namespace Sidlc

open Decimal Grammar

/-- `write_indent` -/
def writeIndent (indent : Nat) : Bytes :=
  (List.replicate indent (ascii "    ")).flatten

/-- `uuid_to_string` -/
def uuidToString (bytes : UuidBytes) : Bytes :=
  Uuid.toString bytes

/-! ### Annotations and types -/

def decompileExpression : ExpressionNode → Bytes
  | .string value => value
  | .number value => numeral value.toNat
  | .identifier name => name

/-- An annotation up to its closing parenthesis. -/
def decompileAnnotationNode (node : AnnotationNode) : Bytes :=
  ascii "@" ++ (node.name ++ (ascii "(" ++
    (separatedBy (ascii ", ") decompileExpression node.args ++ ascii ")")))

def decompileAnnotations (annotations : List AnnotationNode) (indent : Nat) : Bytes :=
  annotations.flatMap fun node => writeIndent indent ++ (decompileAnnotationNode node ++ ascii "\n")

def decompileType (node : TypeNode) : Bytes :=
  (if node.isConst then ascii "const " else []) ++
    match node with
    | .ptr _ _ innerType => ascii "ptr<" ++ (decompileType innerType ++ ascii ">")
    | .array _ _ innerType => ascii "array<" ++ (decompileType innerType ++ ascii ">")
    | .named _ _ name => name

/-! ### Declarations -/

/-- The body of the loop of `decompile_struct`. -/
def decompileStructField (field : StructFieldNode) : Bytes :=
  writeIndent 3 ++ (decompileType field.type ++ (ascii " " ++ (field.name ++ ascii ";\n")))

def decompileStruct (node : StructNode) : Bytes :=
  decompileAnnotations node.annotations 2 ++ (writeIndent 2 ++ (ascii "struct " ++ (node.name ++
    (ascii " \x7b\n" ++ (node.fields.flatMap decompileStructField ++
      (writeIndent 2 ++ ascii "\x7d;\n"))))))

/-- The body of the loop of `decompile_bitfield`. -/
def decompileBitfieldField (field : BitfieldFieldNode) : Bytes :=
  writeIndent 3 ++ (field.name ++ (ascii " : " ++ (numeral field.bits.toNat ++ ascii ";\n")))

def decompileBitfield (node : BitfieldNode) : Bytes :=
  decompileAnnotations node.annotations 2 ++ (writeIndent 2 ++ (ascii "bitfield<" ++
    (decompileType node.baseType ++ (ascii "> " ++ (node.name ++ (ascii " \x7b\n" ++
      (node.fields.flatMap decompileBitfieldField ++ (writeIndent 2 ++ ascii "\x7d;\n"))))))))

/-- An enumerator, up to the comma. -/
def decompileEnumMember (member : EnumMemberNode) : Bytes :=
  decompileAnnotations member.annotations 3 ++ (writeIndent 3 ++ (member.name ++ (ascii " = " ++
    numeral member.value.toNat)))

/-- The loop of `decompile_enum`. -/
def decompileEnumMembers : List EnumMemberNode → Bytes
  | [] => []
  | member :: members =>
    decompileEnumMember member ++ ((if members.isEmpty then [] else ascii ",") ++
      (ascii "\n" ++ decompileEnumMembers members))

def decompileEnum (node : EnumNode) : Bytes :=
  decompileAnnotations node.annotations 2 ++ (writeIndent 2 ++ (ascii "enum<" ++
    (decompileType node.baseType ++ (ascii "> " ++ (node.name ++ (ascii " \x7b\n" ++
      (decompileEnumMembers node.members ++ (writeIndent 2 ++ ascii "\x7d;\n"))))))))

def decompileDirection : Direction → Bytes
  | .IN => ascii "in "
  | .OUT => ascii "out "
  | .INOUT => ascii "inout "

def decompileParameter (node : ParameterNode) : Bytes :=
  node.annotations.flatMap (fun node => decompileAnnotationNode node ++ ascii " ") ++
    (decompileDirection node.direction ++ (decompileType node.type ++ (ascii " " ++ node.name)))

def decompileFunction (node : FunctionNode) : Bytes :=
  decompileAnnotations node.annotations 2 ++ (writeIndent 2 ++ (ascii "function " ++ (node.name ++
    (ascii "(" ++ (separatedBy (ascii ", ") decompileParameter node.parameters
      ++ ascii ");\n")))))

/-! ### Revisions and interfaces -/

/-- The declarations of a revision: bitfields, enums, structs and functions, with a blank line
between any two of them (`needs_blank`). -/
def decompileDeclarations (node : AbiversionNode) : Bytes :=
  separatedBy (ascii "\n") id (node.bitfields.map decompileBitfield ++
    (node.enums.map decompileEnum ++ (node.structs.map decompileStruct ++
      node.functions.map decompileFunction)))

def decompileAbirevision (node : AbiversionNode) : Bytes :=
  decompileAnnotations node.annotations 1 ++ (writeIndent 1 ++ (ascii "abirevision " ++
    (numeral node.version.toNat ++ (ascii " \x7b\n" ++ (decompileDeclarations node ++
      (writeIndent 1 ++ ascii "\x7d\n"))))))

/-- What `sif_decompile` puts on the stream once the interface has an identity. -/
def decompileInterface (interface : InterfaceNode) : Bytes :=
  ascii "@uuid(\"" ++ (uuidToString interface.uuidNamespace ++ (ascii "\", \"" ++
    (interface.uuidName ++ (ascii "\")\n" ++ (ascii "@prefix(\"" ++ (interface.prefixStr ++
      (ascii "\")\n" ++ (decompileAnnotations interface.annotations 0 ++ (ascii "interface " ++
        (interface.name ++ (ascii " \x7b\n" ++
          (separatedBy (ascii "\n") decompileAbirevision interface.abiversions ++
            ascii "\x7d\n"))))))))))))

def sifDecompile (interface : InterfaceNode) : Except Exn Bytes :=
  if !interface.hasUuid then .error (.runtimeError "SIF interface requires a UUID")
  else if !interface.hasPrefix then .error (.runtimeError "SIF interface requires a prefix")
  else .ok (decompileInterface interface)

end Sidlc
