import Sidlc.Library.CellFormat
import Sidlc.Sha256
import Sidlc.Uuid

/-!
# Writing SIF (`sif_write` and the `write_*` functions of `sif.cc`)

A writer is the bytes it appends, or the exception it raises; a sequence of calls on a
`BinaryWriter` is the `++` of the writers.
-/

namespace Sidlc

open CellFormat

abbrev Writer := ByteWriter Exn

def kSifMagic : Bytes := [83, 73, 70, 0]

def kSifFormatVersion : UInt32 := 0

namespace ExprKind

def String : UInt8 := 1
def Number : UInt8 := 2
def Identifier : UInt8 := 3

end ExprKind

namespace TypeKind

def Named : UInt8 := 1
def Ptr : UInt8 := 2
def Array : UInt8 := 3

end TypeKind

/-- `static_cast<uint8_t>(node.direction)` -/
def Direction.toByte : Direction → UInt8
  | .IN => 0
  | .OUT => 1
  | .INOUT => 2

/-! ### `BinaryWriter` -/

namespace BinaryWriter

/-- The loop of `u32` and `u64`: the low `n` bytes of `value`, shifted down and masked. -/
def wordBytes {w : Nat} (n : Nat) (value : BitVec w) : Bytes :=
  (List.range n).map fun i => UInt8.ofBitVec (((value >>> (i * 8)) &&& 0xff#w).setWidth 8)

def u8 (value : UInt8) : Writer :=
  .ok [value]

def u32 (value : UInt32) : Writer :=
  .ok (wordBytes 4 value.toBitVec)

def u64 (value : UInt64) : Writer :=
  .ok (wordBytes 8 value.toBitVec)

def bytes (data : Bytes) : Writer :=
  .ok data

/-- `(4 - (size % 4)) % 4` -/
def padding (size : Nat) : Nat :=
  (4 - size % 4) % 4

def string (value : Bytes) : Writer :=
  if value.length > 4294967295 then .error (.runtimeError "SIF string is too large")
  else
    u32 (UInt32.ofNat value.length) ++ bytes value
      ++ .ok (List.replicate (padding value.length) 0)

def count {α : Type} (container : List α) : Writer :=
  if container.length > 4294967295 then .error (.runtimeError "SIF container is too large")
  else u32 (UInt32.ofNat container.length)

end BinaryWriter

open BinaryWriter

/-! ### The nodes -/

def writeExpression : ExpressionNode → Writer
  | .string value => u8 ExprKind.String ++ string value
  | .number value => u8 ExprKind.Number ++ u64 value
  | .identifier name => u8 ExprKind.Identifier ++ string name

/-- The body of the loop of `write_annotations`. -/
def writeAnnotationNode (node : AnnotationNode) : Writer :=
  string node.name ++ (count node.args ++ writeEach writeExpression node.args)

def writeAnnotations (annotations : List AnnotationNode) : Writer :=
  count annotations ++ writeEach writeAnnotationNode annotations

def writeType (node : TypeNode) : Writer :=
  u8 (if node.isConst then 1 else 0) ++
    match node with
    | .ptr _ _ innerType => u8 TypeKind.Ptr ++ writeType innerType
    | .array _ _ innerType => u8 TypeKind.Array ++ writeType innerType
    | .named _ _ name => u8 TypeKind.Named ++ string name

def writeParameter (node : ParameterNode) : Writer :=
  u8 node.direction.toByte ++ (writeAnnotations node.annotations ++
    (writeType node.type ++ string node.name))

def writeFunction (node : FunctionNode) : Writer :=
  u32 node.id ++ (string node.name ++ (writeAnnotations node.annotations ++
    (count node.parameters ++ writeEach writeParameter node.parameters)))

/-- The body of the loop of `write_struct`. -/
def writeStructField (field : StructFieldNode) : Writer :=
  writeType field.type ++ string field.name

def writeStruct (node : StructNode) : Writer :=
  string node.name ++ (writeAnnotations node.annotations ++
    (count node.fields ++ writeEach writeStructField node.fields))

/-- The body of the loop of `write_bitfield`. -/
def writeBitfieldField (field : BitfieldFieldNode) : Writer :=
  string field.name ++ u64 field.bits

def writeBitfield (node : BitfieldNode) : Writer :=
  string node.name ++ (writeAnnotations node.annotations ++ (writeType node.baseType ++
    (count node.fields ++ writeEach writeBitfieldField node.fields)))

/-- The body of the loop of `write_enum`. -/
def writeEnumMember (member : EnumMemberNode) : Writer :=
  string member.name ++ (u64 member.value ++ writeAnnotations member.annotations)

def writeEnum (node : EnumNode) : Writer :=
  string node.name ++ (writeAnnotations node.annotations ++ (writeType node.baseType ++
    (count node.members ++ writeEach writeEnumMember node.members)))

/-- What `write_revision_tree` writes after the version and the previous hash. -/
def writeRevisionMembers (node : AbiversionNode) : Writer :=
  writeAnnotations node.annotations ++
    ((count node.bitfields ++ writeEach writeBitfield node.bitfields) ++
    ((count node.enums ++ writeEach writeEnum node.enums) ++
    ((count node.structs ++ writeEach writeStruct node.structs) ++
    (count node.functions ++ writeEach writeFunction node.functions))))

def writeRevisionTree (node : AbiversionNode) (previousHash : Hash) : Writer :=
  u64 node.version ++ (bytes previousHash.toList ++ writeRevisionMembers node)

def writeInterfaceIdentity (interface : InterfaceNode) : Writer :=
  if !interface.hasUuid then .error (.runtimeError "SIF interface requires a UUID")
  else if !interface.hasPrefix then .error (.runtimeError "SIF interface requires a prefix")
  else
    string interface.name ++ (bytes interface.uuidNamespace.toList ++
      (string interface.uuidName ++ (string interface.prefixStr ++
        writeAnnotations interface.annotations)))

/-! ### Hashes -/

def computeInterfaceUuid (interface : InterfaceNode) : Except Exn UuidBytes :=
  if !interface.hasUuid then .error (.runtimeError "SIF interface requires a UUID")
  else .ok (uuidNameGenerator interface.uuidNamespace interface.uuidName)

/-- `compute_revision_hash`. The writer on the hasher passes the words and paddings of `string` on
byte by byte; `Sha256.update_append` says that this is one message all the same. -/
def computeRevisionHash (interface : InterfaceNode) (node : AbiversionNode) (previousHash : Hash) :
    Except Exn Hash := do
  let interfaceUuid ← computeInterfaceUuid interface
  let revisionTree ← writeRevisionTree node previousHash
  let domain ← string (ascii "strata.sif.revision.v0")
  let sha := domain.foldl (fun sha byte => Sha256.update sha [byte]) Sha256.init
  let sha := sha.update interfaceUuid.toList
  let sha := sha.update revisionTree
  return sha.finish

/-! ### `sif_write` -/

/-- The first loop of `sif_write`: the hash of every revision, each over the one before. -/
def revisionHashes (interface : InterfaceNode) :
    Hash → List AbiversionNode → Except Exn (List Hash)
  | _, [] => return []
  | previousHash, revision :: revisions => do
    let revisionHash ← computeRevisionHash interface revision previousHash
    let hashes ← revisionHashes interface revisionHash revisions
    return revisionHash :: hashes

/-- The last loop of `sif_write`. -/
def writeRevisionTrees : Hash → List (AbiversionNode × Hash) → Writer
  | _, [] => .ok []
  | previousHash, (revision, revisionHash) :: revisions =>
    writeRevisionTree revision previousHash ++ writeRevisionTrees revisionHash revisions

/-- The revisions of the interface followed by those of its extensions. -/
def allRevisions (interface : InterfaceNode) (extensions : List InterfaceNode) :
    List AbiversionNode :=
  interface.abiversions ++ extensions.flatMap InterfaceNode.abiversions

/-- What `sif_write` puts on the stream once the hashes are known. -/
def writeArtifact (interface : InterfaceNode) (revisions : List AbiversionNode)
    (hashes : List Hash) : Writer :=
  bytes kSifMagic ++ (u32 kSifFormatVersion ++ (writeInterfaceIdentity interface ++
    ((count hashes ++ (bytes (hashes.headD zeroHash).toList ++
      writeEach (fun hash => bytes hash.toList) hashes)) ++
        writeRevisionTrees zeroHash (revisions.zip hashes))))

def sifWrite (interface : InterfaceNode) (extensions : List InterfaceNode) : Except Exn Bytes :=
  let revisions := allRevisions interface extensions
  if revisions.isEmpty then
    .error (.runtimeError "SIF artifact requires at least one ABI revision")
  else do
    let hashes ← revisionHashes interface zeroHash revisions
    writeArtifact interface revisions hashes

end Sidlc
