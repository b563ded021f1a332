import Sidlc.Sif.Write

/-!
# Reading SIF (`sif_read` and the `read_*` functions of `sif.cc`)

A reader takes what is left of the stream. The owning `InterfaceNode`, to which the C++ functions
add the functions' ids and which gives the hash its UUID, is passed on explicitly.
-/

namespace Sidlc

open CellFormat StateExcept

abbrev Reader := ByteReader Exn

/-! ### `BinaryReader` -/

namespace BinaryReader

def u8 : Reader UInt8
  | [] => .error (.runtimeError "unexpected end of SIF file")
  | byte :: rest => .ok (byte, rest)

/-- The loop of `u32` and `u64`: `n` bytes or-ed into a word, least significant first. -/
def word (w : Nat) (n : Nat) : Reader (BitVec w) :=
  (List.range n).foldlM (fun value i => do
    let byte ← u8
    return value ||| (byte.toBitVec.setWidth w <<< (i * 8))) 0#w

def u32 : Reader UInt32 :=
  UInt32.ofBitVec <$> word 32 4

def u64 : Reader UInt64 :=
  UInt64.ofBitVec <$> word 64 8

/-- The loop of `hash` and `uuid`. -/
def array : (n : Nat) → Reader (Vector UInt8 n)
  | 0 => return #v[]
  | n + 1 => do
    let value ← array n
    let byte ← u8
    return value.push byte

def hash : Reader Hash :=
  array 32

def uuid : Reader UuidBytes :=
  array 16

/-- `in.read(value.data(), size)` into a string of `size` bytes. -/
def characters (size : Nat) : Reader Bytes := fun input =>
  if size ≠ 0 ∧ input.length < size then
    .error (.runtimeError "unexpected end of SIF string")
  else .ok (input.take size, input.drop size)

/-- The body of the padding loop of `string`. -/
def paddingByte : Reader Unit := do
  let byte ← u8
  throwIf (byte ≠ 0) (.runtimeError "non-zero SIF string padding")

def string : Reader Bytes := do
  let size ← u32
  let value ← characters size.toNat
  let _ ← collectN paddingByte (BinaryWriter.padding size.toNat)
  return value

/-- A count and that many elements: `uint32_t n = reader.u32(); for (i < n) push_back(element)`. -/
def counted {α : Type} (element : Reader α) : Reader (List α) := do
  let count ← u32
  collectN element count.toNat

end BinaryReader

open BinaryReader

/-! ### The nodes -/

def readExpression : Reader ExpressionNode := do
  let kind ← u8
  if kind = ExprKind.String then
    let value ← string
    return .string value
  else if kind = ExprKind.Number then
    let value ← u64
    return .number value
  else if kind = ExprKind.Identifier then
    let name ← string
    return .identifier name
  else throw (.runtimeError "invalid expression kind in SIF")

/-- The body of the loop of `read_annotations`. -/
def readAnnotationNode : Reader AnnotationNode := do
  let name ← string
  let args ← counted readExpression
  return { name, args }

def readAnnotations : Reader (List AnnotationNode) :=
  counted readAnnotationNode

/-- `read_type`, with at most `fuel` levels of nesting. -/
def readTypeFuel : Nat → Reader TypeNode
  | 0 => throw (.runtimeError "unexpected end of SIF file")
  | fuel + 1 => do
    let flag ← u8
    let isConst := flag != 0
    let kind ← u8
    if kind = TypeKind.Named then
      let name ← string
      return .named isConst 0 name
    else if kind = TypeKind.Ptr then
      let innerType ← readTypeFuel fuel
      return .ptr isConst 0 innerType
    else if kind = TypeKind.Array then
      let innerType ← readTypeFuel fuel
      return .array isConst 0 innerType
    else throw (.runtimeError "invalid type kind in SIF")

/-- `read_type`. Every level takes bytes of the input, so its length bounds the nesting. -/
def readType : Reader TypeNode := fun input =>
  readTypeFuel (input.length + 1) input

/-- The first part of `read_parameter`. -/
def readDirection : Reader Direction := do
  let direction ← u8
  if direction = Direction.IN.toByte then return .IN
  else if direction = Direction.OUT.toByte then return .OUT
  else if direction = Direction.INOUT.toByte then return .INOUT
  else throw (.runtimeError "invalid parameter direction in SIF")

def readParameter : Reader ParameterNode := do
  let direction ← readDirection
  let annotations ← readAnnotations
  let type ← readType
  let name ← string
  return { direction, type, name, annotations }

/-- The node `read_function` builds. -/
def readFunctionNode : Reader FunctionNode := do
  let id ← u32
  let name ← string
  let annotations ← readAnnotations
  let parameters ← counted readParameter
  return { name, annotations, parameters, id }

/-- `owner.current_funcid = std::max(owner.current_funcid, node->id + 1)` -/
def InterfaceNode.noteFunction (owner : InterfaceNode) (node : FunctionNode) : InterfaceNode :=
  { owner with currentFuncid := max owner.currentFuncid (node.id + 1) }

def readFunction (owner : InterfaceNode) : Reader (FunctionNode × InterfaceNode) := do
  let node ← readFunctionNode
  return (node, owner.noteFunction node)

/-- The body of the loop of `read_struct`. -/
def readStructField : Reader StructFieldNode := do
  let type ← readType
  let name ← string
  return { type, name }

def readStruct : Reader StructNode := do
  let name ← string
  let annotations ← readAnnotations
  let fields ← counted readStructField
  return { name, annotations, fields }

/-- The body of the loop of `read_bitfield`. -/
def readBitfieldField : Reader BitfieldFieldNode := do
  let name ← string
  let bits ← u64
  return { name, bits }

def readBitfield : Reader BitfieldNode := do
  let name ← string
  let annotations ← readAnnotations
  let baseType ← readType
  let fields ← counted readBitfieldField
  return { name, baseType, annotations, fields }

/-- The body of the loop of `read_enum`. -/
def readEnumMember : Reader EnumMemberNode := do
  let name ← string
  let value ← u64
  let annotations ← readAnnotations
  return { name, value, annotations }

def readEnum : Reader EnumNode := do
  let name ← string
  let annotations ← readAnnotations
  let baseType ← readType
  let members ← counted readEnumMember
  return { name, baseType, annotations, members }

/-- The rounds of the loop over the functions of a revision. -/
def readFunctionsLoop : Nat → InterfaceNode → Reader (List FunctionNode × InterfaceNode)
  | 0, owner => return ([], owner)
  | n + 1, owner => do
    let (function, owner) ← readFunction owner
    let (functions, owner) ← readFunctionsLoop n owner
    return (function :: functions, owner)

/-- The loop over the functions of a revision. -/
def readFunctions (owner : InterfaceNode) : Reader (List FunctionNode × InterfaceNode) := do
  let functionCount ← u32
  readFunctionsLoop functionCount.toNat owner

def readRevisionTree (owner : InterfaceNode) (expectedPreviousHash expectedRevisionHash : Hash)
    (expectedRevision : UInt64) : Reader (AbiversionNode × InterfaceNode) := do
  let version ← u64
  let previousHash ← hash
  throwIf (version ≠ expectedRevision) (.runtimeError "SIF ABI revisions are not contiguous")
  throwIf (previousHash ≠ expectedPreviousHash)
    (.runtimeError "SIF revision tree previous hash mismatch")
  let annotations ← readAnnotations
  let bitfields ← counted readBitfield
  let enums ← counted readEnum
  let structs ← counted readStruct
  let (functions, owner) ← readFunctions owner
  let node : AbiversionNode :=
    { version, previousHash, annotations, functions, structs, bitfields, enums }
  let abiHash ← fromExcept (computeRevisionHash owner node expectedPreviousHash)
  throwIf (abiHash ≠ expectedRevisionHash) (.runtimeError "SIF revision hash mismatch")
  return ({ node with abiHash }, owner)

/-! ### `sif_read` -/

/-- The loop over the magic bytes. -/
def readMagic : Bytes → Reader Unit
  | [] => return ()
  | expected :: rest => do
    let byte ← u8
    throwIf (byte ≠ expected) (.runtimeError "invalid SIF magic")
    readMagic rest

/-- The loop over the hash table: revision `i` and all those after it. -/
def readRevisions : InterfaceNode → Hash → Nat → List Hash → Reader InterfaceNode
  | interface, _, _, [] => return interface
  | interface, previousHash, i, revisionHash :: revisionHashes => do
    let (revision, interface) ←
      readRevisionTree interface previousHash revisionHash (UInt64.ofNat i)
    readRevisions { interface with abiversions := interface.abiversions ++ [revision] }
      revisionHash (i + 1) revisionHashes

/-- The hash table: the revision count, the root hash, and the hash of every revision. -/
def readHashTable : Reader (List Hash) := do
  let revisionCount ← u32
  throwIf (revisionCount = 0) (.runtimeError "SIF artifact has no ABI revisions")
  let rootRevisionHash ← hash
  let revisionHashes ← collectN hash revisionCount.toNat
  throwIf (rootRevisionHash ≠ revisionHashes.headD zeroHash)
    (.runtimeError "SIF root revision hash mismatch")
  return revisionHashes

/-- `sif_read` up to the check for trailing data. -/
def readInterface : Reader InterfaceNode := do
  readMagic kSifMagic
  let version ← u32
  throwIf (version ≠ kSifFormatVersion) (.runtimeError "unsupported SIF format version")
  let name ← string
  let uuidNamespace ← uuid
  let uuidName ← string
  let prefixStr ← string
  let annotations ← readAnnotations
  let revisionHashes ← readHashTable
  readRevisions
    { name, hasUuid := true, uuidNamespace, uuidName, hasPrefix := true, prefixStr, annotations }
    zeroHash 0 revisionHashes

def sifRead (input : Bytes) : Except Exn InterfaceNode := do
  let (interface, rest) ← readInterface input
  if rest.isEmpty then return interface
  else .error (.runtimeError "trailing data in SIF file")

end Sidlc
