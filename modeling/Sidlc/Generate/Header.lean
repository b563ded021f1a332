import Sidlc.Generate.Parameters

/-!
# Headers (`c_header_generator.cc`)

One visitor fills four buffers, and each kind of header prints some of them. The macros with the
interface UUID (SHA-1 over the identity), the comments and the includes are left out.
-/

namespace Sidlc

/-- `std::toupper` on each character. -/
def toUpper (name : Bytes) : Bytes :=
  name.map fun c => if 0x61 ≤ c ∧ c ≤ 0x7a then c - 0x20 else c

/-- `x << n` on `unsigned long long`, which C and C++ define for counts below the width only. -/
def ullShiftLeft (x n : UInt64) : Option UInt64 :=
  if n < 64 then some (x <<< n) else none

inductive HeaderMacro where
  /-- `#define name (maskULL << offset)`; what is printed for an undefined mask is anything. -/
  | bitfieldMask (name : Bytes) (mask : Option UInt64) (offset : UInt64)
  /-- `#define name (value)` -/
  | enumMember (name : Bytes) (value : UInt64)
  /-- `#define name value` -/
  | number (name : Bytes) (value : Nat)
  deriving DecidableEq

/-- The number a macro denotes in C, if it denotes one. -/
def HeaderMacro.denotes : HeaderMacro → Option UInt64
  | bitfieldMask _ mask offset => mask.bind fun m => ullShiftLeft m offset
  | enumMember _ value => some value
  | number _ value => some (UInt64.ofNat value)

inductive TypeDefinition where
  /-- `typedef type name;` -/
  | typedef (type name : Bytes)
  /-- `typedef struct name { type field; ... } name;`, with `[]` behind the arrays and one alignment
  attribute per `@align_size(...)`. -/
  | struct (name : Bytes) (fields : List (Bytes × Bytes × Bool)) (aligned : Nat)
  deriving DecidableEq

/-- `type name __in`, or another marker. -/
structure ParameterDeclaration where
  type : Bytes
  name : Bytes
  direction : Direction
  deriving DecidableEq

/-- `StStatus name(parameters);` as a prototype, `StStatus (*name)(parameters);` as a field. -/
structure FunctionDeclaration where
  name : Bytes
  parameters : List ParameterDeclaration
  deriving DecidableEq

structure HeaderBuffers where
  macros : List HeaderMacro := []
  types : List TypeDefinition := []
  functions : List FunctionDeclaration := []
  moduleVtableFields : List FunctionDeclaration := []
  totalFuncidSpan : UInt32 := 0
  abiRevisionCount : Nat := 0

/-- `write_parameter_declaration` -/
def parameterDeclaration (pfx : Bytes) (node : ParameterNode) : ParameterDeclaration :=
  ⟨getParameterCType pfx node, node.name, node.direction⟩

/-- `StHandle handle __in` -/
def handleParameter : ParameterDeclaration :=
  ⟨ascii "StHandle", ascii "handle", .IN⟩

/-- `void *context __inout` -/
def contextParameter : ParameterDeclaration :=
  ⟨ascii "void *", ascii "context", .INOUT⟩

/-- The loop over the fields of a bitfield, from `offset` on. -/
def fieldMasks (macroPart : Bytes) : UInt64 → List BitfieldFieldNode → List HeaderMacro
  | _, [] => []
  | offset, field :: fields =>
    .bitfieldMask (macroPart ++ field.name) ((ullShiftLeft 1 field.bits).map (· - 1)) offset ::
      fieldMasks macroPart (offset + field.bits) fields

/-- The macros of `visit(BitfieldNode &)`. -/
def bitfieldMacros (macroInterfaceName : Bytes) (node : BitfieldNode) : List HeaderMacro :=
  fieldMasks (macroInterfaceName ++ ascii "_" ++ toUpper node.name ++ ascii "_") 0 node.fields

namespace HeaderBuffers

variable (pfx macroInterfaceName : Bytes)

/-- `visit(BitfieldNode &)` -/
def visitBitfield (b : HeaderBuffers) (node : BitfieldNode) : HeaderBuffers :=
  { b with
    types := b.types ++ [.typedef (toCType pfx node.baseType) (pfx ++ node.name)]
    macros := b.macros ++ bitfieldMacros macroInterfaceName node }

/-- `visit(EnumNode &)` -/
def visitEnum (b : HeaderBuffers) (node : EnumNode) : HeaderBuffers :=
  let macroPart := macroInterfaceName ++ ascii "_" ++ toUpper node.name ++ ascii "_"
  { b with
    types := b.types ++ [.typedef (toCType pfx node.baseType) (pfx ++ node.name)]
    macros := b.macros ++ node.members.map fun m => .enumMember (macroPart ++ m.name) m.value }

/-- `visit(StructNode &)` -/
def visitStruct (b : HeaderBuffers) (node : StructNode) : HeaderBuffers :=
  let fields := node.fields.map fun f =>
    (toCType pfx f.type, f.name, !f.type.isPtr && f.type.isArray)
  let aligned := node.annotations.countP fun anno =>
    anno.name = ascii "align_size" && !anno.args.isEmpty
  { b with types := b.types ++ [.struct (pfx ++ node.name) fields aligned] }

/-- `visit(FunctionNode &)` -/
def visitFunction (b : HeaderBuffers) (node : FunctionNode) : HeaderBuffers :=
  let parameters := node.parameters.map (parameterDeclaration pfx)
  { b with
    macros := b.macros ++
      [.number (toUpper pfx ++ ascii "FUNCID_" ++ node.name) node.id.toNat]
    functions := b.functions ++ [⟨pfx ++ node.name, handleParameter :: parameters⟩]
    moduleVtableFields := b.moduleVtableFields ++
      [⟨node.name, contextParameter :: handleParameter :: parameters⟩] }

/-- `visit(AbiversionNode &)` -/
def visitAbiversion (b : HeaderBuffers) (node : AbiversionNode) : HeaderBuffers :=
  let b := node.bitfields.foldl (visitBitfield pfx macroInterfaceName) b
  let b := node.enums.foldl (visitEnum pfx macroInterfaceName) b
  let b := node.structs.foldl (visitStruct pfx) b
  let b := node.functions.foldl (visitFunction pfx) b
  { b with
    abiRevisionCount := max b.abiRevisionCount (node.version.toNat + 1)
    totalFuncidSpan :=
      match node.functions.getLast? with
      | some f => f.id + 1
      | none => b.totalFuncidSpan }

/-- The two macros behind the revisions. -/
def finish (b : HeaderBuffers) : HeaderBuffers :=
  { b with
    macros := b.macros ++
      [.number (toUpper pfx ++ ascii "FUNCID_SPAN") b.totalFuncidSpan.toNat,
        .number (toUpper pfx ++ ascii "ABI_REVISION_COUNT") b.abiRevisionCount] }

end HeaderBuffers

/-- `CHeaderGenerator::Mode` -/
inductive HeaderMode where
  | TYPE
  | CLIENT
  | SERVER
  | SERVER_CLIENT
  deriving DecidableEq

/-- What the headers of the four modes hold. -/
inductive Header where
  | types (macros : List HeaderMacro) (types : List TypeDefinition)
  | client (functions : List FunctionDeclaration)
  | server (vtableFields : List FunctionDeclaration) (argSlotCount : Nat)
  | serverClient (functions : List FunctionDeclaration)

/-- The buffers after the visit of all revisions. -/
def headerBuffers (node : InterfaceNode) : HeaderBuffers :=
  (node.abiversions.foldl (HeaderBuffers.visitAbiversion node.prefixStr (toUpper node.name))
    {}).finish node.prefixStr

/-- `visit(InterfaceNode &)` -/
def generateHeader (mode : HeaderMode) (abi : ArchAbi) (node : InterfaceNode) :
    Except Exn Header :=
  if mode = .SERVER ∧ abi.maxRegArgs ≤ 2 then .error (.runtimeError "Invalid architecture ABI")
  else if !node.hasUuid then .error (.runtimeError "Interface UUID is required")
  else if !node.hasPrefix then .error (.runtimeError "Interface prefix is required")
  else
    match node.annotations.find? fun anno =>
      anno.name = ascii "prefix" || anno.name = ascii "uuid" with
    | some anno =>
      if anno.name = ascii "prefix" then
        .error (.runtimeError "Prefix must be stored as interface metadata, not annotation")
      else .error (.runtimeError "UUID must be stored as interface identity, not annotation")
    | none =>
      let b := headerBuffers node
      .ok (match mode with
        | .TYPE => .types b.macros b.types
        | .CLIENT => .client b.functions
        | .SERVER => .server b.moduleVtableFields abi.argSlotCount
        | .SERVER_CLIENT => .serverClient b.functions)

end Sidlc
