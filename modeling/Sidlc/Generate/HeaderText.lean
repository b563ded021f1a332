import Sidlc.Generate.Header
import Sidlc.Library.Decimal
import Sidlc.Library.Printing
import Sidlc.Uuid

/-!
# The text of headers (`c_header_generator.cc`)

What `CHeaderGenerator` writes, character by character: the visitor fills four buffers with text,
and each mode prints some of them behind the macros and includes of its own.
-/

namespace Sidlc

open Decimal Grammar

/-- The build of the compiler: `config.h`, and what becomes of `1ULL << n` where C++ does not define
it. -/
structure Build where
  /-- `SIDLC_VERSION` -/
  version : Bytes
  /-- `SIDLC_GIT_HASH` -/
  gitHash : Bytes
  wideShift : UInt64 → UInt64

/-- `1ULL << n` -/
def Build.shiftOne (build : Build) (n : UInt64) : UInt64 :=
  match ullShiftLeft 1 n with
  | some x => x
  | none => build.wideShift n

/-- The comment that every generated file begins with. -/
def banner (build : Build) (name : Bytes) : Bytes :=
  ascii "/* =====================================================================\n" ++
  ascii " * Auto-generated by sidlc v" ++ build.version ++ ascii " (" ++ build.gitHash ++
  ascii ")\n" ++
  ascii " * Target Interface: " ++ name ++ ascii "\n" ++
  ascii " * DO NOT EDIT THIS FILE MANUALLY!\n" ++
  ascii " * ===================================================================== */\n\n"

/-- `/* ABI Version n */` -/
def versionComment (indent : Bytes) (version : UInt64) : Bytes :=
  ascii "\n" ++ indent ++ ascii "/* ABI Version " ++ numeral version.toNat ++ ascii " */\n"

/-- `std::hex` on an `int` that was a byte. -/
def hexOctet (b : UInt8) : Bytes :=
  if b < 16 then [Uuid.guidEncoder b]
  else [Uuid.guidEncoder (b >>> 4), Uuid.guidEncoder (b &&& 0x0f)]

/-- The loop over the bytes of the interface UUID. -/
def uuidInitializer (id : UuidBytes) : Bytes :=
  separatedBy (ascii ", ") (fun b => ascii "0x" ++ hexOctet b) id.toList

def directionMarker : Direction → Bytes
  | .IN => ascii " __in"
  | .OUT => ascii " __out"
  | .INOUT => ascii " __inout"

/-- `write_parameter_declaration` -/
def writeParameterDeclaration (pfx : Bytes) (node : ParameterNode) : Bytes :=
  getParameterCType pfx node ++ ascii " " ++ node.name ++ directionMarker node.direction

/-! ### The buffers -/

/-- The members of `CHeaderGenerator` that the visits write. -/
structure HeaderText where
  bufMacros : Bytes := []
  bufTypes : Bytes := []
  bufFunctions : Bytes := []
  bufModuleVtableFields : Bytes := []
  totalFuncidSpan : UInt32 := 0
  abiRevisionCount : UInt64 := 0

namespace HeaderText

variable (build : Build) (pfx macroInterfaceName : Bytes)

/-- The macros of the fields of a bitfield, from `offset` on. -/
def writeMasks (macroName : Bytes) : UInt64 → List BitfieldFieldNode → Bytes
  | _, [] => []
  | offset, field :: fields =>
    ascii "#define " ++ macroInterfaceName ++ ascii "_" ++ macroName ++ ascii "_" ++ field.name ++
      ascii " (" ++ numeral (build.shiftOne field.bits - 1).toNat ++ ascii "ULL << " ++
      numeral offset.toNat ++ ascii ")\n" ++
      writeMasks macroName (offset + field.bits) fields

/-- `visit(BitfieldNode &)` -/
def visitBitfield (t : HeaderText) (node : BitfieldNode) : HeaderText :=
  { t with
    bufTypes := t.bufTypes ++ (ascii "typedef " ++ toCType pfx node.baseType ++ ascii " " ++ pfx ++
      node.name ++ ascii ";\n")
    bufMacros := t.bufMacros ++
      writeMasks build macroInterfaceName (toUpper node.name) 0 node.fields }

/-- The macro of an enumerator. -/
def writeEnumMember (macroName : Bytes) (member : EnumMemberNode) : Bytes :=
  ascii "#define " ++ macroInterfaceName ++ ascii "_" ++ macroName ++ ascii "_" ++ member.name ++
    ascii " (" ++ numeral member.value.toNat ++ ascii ")\n"

/-- `visit(EnumNode &)` -/
def visitEnum (t : HeaderText) (node : EnumNode) : HeaderText :=
  { t with
    bufTypes := t.bufTypes ++ (ascii "typedef " ++ toCType pfx node.baseType ++ ascii " " ++ pfx ++
      node.name ++ ascii ";\n")
    bufMacros := t.bufMacros ++
      node.members.flatMap (writeEnumMember macroInterfaceName (toUpper node.name)) }

/-- The member of a structure. -/
def writeStructField (field : StructFieldNode) : Bytes :=
  if field.type.isPtr then
    ascii "    " ++ toCType pfx field.type ++ field.name ++ ascii ";\n"
  else if field.type.isArray then
    ascii "    " ++ toCType pfx field.type ++ ascii " " ++ field.name ++ ascii "[];\n"
  else
    ascii "    " ++ toCType pfx field.type ++ ascii " " ++ field.name ++ ascii ";\n"

/-- `attributes` -/
def structAttributes (annotations : List AnnotationNode) : Bytes :=
  annotations.flatMap fun anno =>
    if anno.name = ascii "align_size" && !anno.args.isEmpty then
      ascii " __attribute__((aligned(16)))"
    else []

/-- `visit(StructNode &)` -/
def visitStruct (t : HeaderText) (node : StructNode) : HeaderText :=
  { t with
    bufTypes := t.bufTypes ++ (ascii "typedef struct " ++ pfx ++ node.name ++ ascii " \x7b\n" ++
      node.fields.flatMap (writeStructField pfx) ++
      ascii "\x7d" ++ structAttributes node.annotations ++ ascii " " ++ pfx ++ node.name ++
      ascii ";\n\n") }

/-- `visit(FunctionNode &)` -/
def visitFunction (t : HeaderText) (node : FunctionNode) : HeaderText :=
  let parameters := separatedBy (ascii ", ") (writeParameterDeclaration pfx) node.parameters
  { t with
    bufMacros := t.bufMacros ++ (ascii "#define " ++ toUpper pfx ++ ascii "FUNCID_" ++ node.name ++
      ascii " " ++ numeral node.id.toNat ++ ascii "\n")
    bufModuleVtableFields := t.bufModuleVtableFields ++ (ascii "    StStatus (*" ++ node.name ++
      ascii ")(void *context __inout, StHandle handle __in" ++
      (if node.parameters.isEmpty then [] else ascii ", ") ++ parameters ++ ascii ");\n")
    bufFunctions := t.bufFunctions ++ (ascii "StStatus " ++ pfx ++ node.name ++
      (if node.parameters.isEmpty then ascii "(StHandle handle __in"
        else ascii "(StHandle handle __in, ") ++ parameters ++ ascii ");\n") }

/-- The comments that `visit(AbiversionNode &)` begins with. -/
def writeVersion (t : HeaderText) (node : AbiversionNode) : HeaderText :=
  { t with
    bufMacros := t.bufMacros ++
      if !node.bitfields.isEmpty || !node.enums.isEmpty || !node.functions.isEmpty then
        versionComment [] node.version
      else []
    bufTypes := t.bufTypes ++
      if !node.structs.isEmpty || !node.bitfields.isEmpty || !node.enums.isEmpty then
        versionComment [] node.version
      else []
    bufFunctions := t.bufFunctions ++
      if !node.functions.isEmpty then versionComment [] node.version else []
    bufModuleVtableFields := t.bufModuleVtableFields ++
      if !node.functions.isEmpty then versionComment (ascii "    ") node.version else [] }

/-- `visit(AbiversionNode &)` -/
def visitAbiversion (t : HeaderText) (node : AbiversionNode) : HeaderText :=
  let t := t.writeVersion node
  let t := node.bitfields.foldl (visitBitfield build pfx macroInterfaceName) t
  let t := node.enums.foldl (visitEnum pfx macroInterfaceName) t
  let t := node.structs.foldl (visitStruct pfx) t
  let t := node.functions.foldl (visitFunction pfx) t
  { t with
    abiRevisionCount := max t.abiRevisionCount (node.version + 1)
    totalFuncidSpan :=
      match node.functions.getLast? with
      | some f => f.id + 1
      | none => t.totalFuncidSpan }

/-- The macros for the interface UUID. -/
def uuidMacros (macroInterfaceName : Bytes) (id : UuidBytes) : Bytes :=
  ascii "#define UUID_" ++ macroInterfaceName ++ ascii "_INTERFACE_INIT UUID_INIT(" ++
    uuidInitializer id ++ ascii ")\n" ++
  ascii "#define UUID_" ++ macroInterfaceName ++ ascii "_INTERFACE UUID(" ++
    uuidInitializer id ++ ascii ")\n"

/-- The two macros behind the revisions. -/
def finish (t : HeaderText) : HeaderText :=
  { t with
    bufMacros := t.bufMacros ++
      (ascii "#define " ++ toUpper pfx ++ ascii "FUNCID_SPAN " ++
        numeral t.totalFuncidSpan.toNat ++ ascii "\n") ++
      (ascii "#define " ++ toUpper pfx ++ ascii "ABI_REVISION_COUNT " ++
        numeral t.abiRevisionCount.toNat ++ ascii "\n") }

end HeaderText

/-- The buffers after the visit of all revisions. -/
def HeaderText.ofInterface (build : Build) (node : InterfaceNode) : HeaderText :=
  (node.abiversions.foldl (HeaderText.visitAbiversion build node.prefixStr (toUpper node.name))
    { bufMacros := HeaderText.uuidMacros (toUpper node.name)
        (uuidNameGenerator node.uuidNamespace node.uuidName) }).finish node.prefixStr

/-! ### The modes -/

/-- What the include guard of a mode ends in. -/
def HeaderMode.guardSuffix : HeaderMode → Bytes
  | .TYPE => ascii "_TYPES_H__"
  | .CLIENT => ascii "_CLIENT_H__"
  | .SERVER => ascii "_SERVER_H__"
  | .SERVER_CLIENT => ascii "_SERVER_CLIENT_H__"

/-- The include guard. -/
def guardName (mode : HeaderMode) (name : Bytes) : Bytes :=
  ascii "__SIDL_INTERFACE_" ++ toUpper name ++ mode.guardSuffix

/-- A buffer with a heading, where it holds something. -/
def bufferSection (heading buffer : Bytes) : Bytes :=
  if buffer.isEmpty then [] else heading ++ buffer ++ ascii "\n"

/-- `#ifndef`, `#define` -/
def writeGuard (mode : HeaderMode) (name : Bytes) : Bytes :=
  ascii "#ifndef " ++ guardName mode name ++ ascii "\n" ++
  ascii "#define " ++ guardName mode name ++ ascii "\n\n"

/-- `#endif` -/
def writeGuardEnd (mode : HeaderMode) (name : Bytes) : Bytes :=
  ascii "#endif /* " ++ guardName mode name ++ ascii " */\n"

/-- What the modes write between the guard and its end. -/
def writeHeaderBody (mode : HeaderMode) (dependencyHeaderName : Bytes) (abi : ArchAbi)
    (pfx : Bytes) (t : HeaderText) : Bytes :=
  let dependency := ascii "#include \"" ++ dependencyHeaderName ++ ascii "\"\n\n"
  match mode with
  | .TYPE =>
    ascii "#include <stdint.h>\n\n" ++
    ascii "#include <strata/status.h>\n" ++
    ascii "#include <strata/macros.h>\n" ++
    ascii "#include <strata/handle.h>\n\n" ++
    ascii "#include <strata/uuid.h>\n\n" ++
    bufferSection (ascii "/* Constants & Bitmasks */\n") t.bufMacros ++
    bufferSection (ascii "/* Types & Structures */\n") t.bufTypes
  | .CLIENT =>
    dependency ++
    ascii "StStatus " ++ pfx ++
    ascii "Open(const uint8_t *path __in, uint32_t flags __in, StHandle *handle __out);\n" ++
    ascii "StStatus " ++ pfx ++
    ascii "Query(StHandle handle __in, uint32_t request_abiver __in, " ++
    ascii "uint32_t *funcid_base __out, uint32_t *result_abiver __out);\n" ++
    ascii "\n" ++
    bufferSection (ascii "/* Functions & Views */\n") t.bufFunctions
  | .SERVER_CLIENT =>
    dependency ++
    bufferSection (ascii "/* Functions & Views */\n") t.bufFunctions
  | .SERVER =>
    dependency ++
    ascii "/* Server Interface */\n" ++
    ascii "typedef struct " ++ pfx ++ ascii "ServerVTable \x7b\n" ++
    t.bufModuleVtableFields ++
    ascii "\x7d " ++ pfx ++ ascii "ServerVTable;\n\n" ++
    ascii "StStatus " ++ pfx ++ ascii "ServerDispatchArgs(\n" ++
    ascii "    const void *vtable __in,\n" ++
    ascii "    void *context __inout,\n" ++
    ascii "    StHandle handle __in,\n" ++
    ascii "    uint32_t funcid __in,\n" ++
    ascii "    const long args[" ++ numeral abi.argSlotCount ++ ascii "]\n" ++
    ascii ");\n\n"

/-- `visit(InterfaceNode &)`: what it writes to `out`, or the exception before it writes
anything. -/
def writeHeader (build : Build) (mode : HeaderMode) (dependencyHeaderName : Bytes) (abi : ArchAbi)
    (node : InterfaceNode) : Except Exn Bytes :=
  if mode = .SERVER ∧ abi.maxRegArgs ≤ 2 then .error (.runtimeError "Invalid architecture ABI")
  else if !node.hasUuid then .error (.runtimeError "Interface UUID is required")
  else if !node.hasPrefix then .error (.runtimeError "Interface prefix is required")
  else
    match node.annotations.find? fun anno =>
      anno.name = ascii "prefix" || anno.name = ascii "uuid" with
    | some anno =>
      if anno.name = ascii "prefix" then
        .error (.runtimeError "Prefix must be stored as interface metadata, not annotation")
      else .error (.runtimeError "UUID must be stored as interface identity, not annotation")
    | none =>
      .ok (banner build node.name ++ writeGuard mode node.name ++
        writeHeaderBody mode dependencyHeaderName abi node.prefixStr (.ofInterface build node) ++
        writeGuardEnd mode node.name)

end Sidlc
