import Sidlc.Sif.Write

/-!
# The calls on the writer (`sif_write` and the `write_*` functions of `sif.cc`)

The calls on a `BinaryWriter` that the functions make, one after the other. What the calls of a node
write is what the function for the node writes (`Sif.Equiv.Alignment`); the calls tell besides where
each record begins.
-/

namespace Sidlc

open CellFormat BinaryWriter

/-- A call on a `BinaryWriter`, or the exception of a check between two calls. -/
inductive WriterCall where
  | u8 (value : UInt8)
  | u32 (value : UInt32)
  | u64 (value : UInt64)
  | bytes (data : Bytes)
  | string (value : Bytes)
  | count (size : Nat)
  | throws (what : String)

namespace WriterCall

def run : WriterCall → Writer
  | .u8 value => BinaryWriter.u8 value
  | .u32 value => BinaryWriter.u32 value
  | .u64 value => BinaryWriter.u64 value
  | .bytes data => BinaryWriter.bytes data
  | .string value => BinaryWriter.string value
  | .count size =>
    if size > 4294967295 then .error (.runtimeError "SIF container is too large")
    else BinaryWriter.u32 (UInt32.ofNat size)
  | .throws what => .error (.runtimeError what)

/-- What the call writes. -/
def output (call : WriterCall) : Bytes :=
  match call.run with
  | .ok bs => bs
  | .error _ => []

def size (call : WriterCall) : Nat :=
  call.output.length

def IsString : WriterCall → Prop
  | .string _ => True
  | _ => False

end WriterCall

/-- From the offset on, the strings begin at multiples of four. -/
def AlignedFrom : Nat → List WriterCall → Prop
  | _, [] => True
  | offset, call :: calls =>
    (call.IsString → offset % 4 = 0) ∧ AlignedFrom (offset + call.size) calls

/-! ### The nodes -/

def ExpressionNode.calls : ExpressionNode → List WriterCall
  | .string value => [.u8 ExprKind.String, .string value]
  | .number value => [.u8 ExprKind.Number, .u64 value]
  | .identifier name => [.u8 ExprKind.Identifier, .string name]

def AnnotationNode.calls (node : AnnotationNode) : List WriterCall :=
  .string node.name :: .count node.args.length :: node.args.flatMap ExpressionNode.calls

/-- `write_annotations` -/
def annotationsCalls (annotations : List AnnotationNode) : List WriterCall :=
  .count annotations.length :: annotations.flatMap AnnotationNode.calls

def TypeNode.calls (node : TypeNode) : List WriterCall :=
  .u8 (if node.isConst then 1 else 0) ::
    match node with
    | .ptr _ _ innerType => .u8 TypeKind.Ptr :: innerType.calls
    | .array _ _ innerType => .u8 TypeKind.Array :: innerType.calls
    | .named _ _ name => [.u8 TypeKind.Named, .string name]

def ParameterNode.calls (node : ParameterNode) : List WriterCall :=
  .u8 node.direction.toByte ::
    (annotationsCalls node.annotations ++ (node.type.calls ++ [.string node.name]))

def FunctionNode.calls (node : FunctionNode) : List WriterCall :=
  .u32 node.id :: .string node.name :: (annotationsCalls node.annotations ++
    .count node.parameters.length :: node.parameters.flatMap ParameterNode.calls)

def StructFieldNode.calls (field : StructFieldNode) : List WriterCall :=
  field.type.calls ++ [.string field.name]

def StructNode.calls (node : StructNode) : List WriterCall :=
  .string node.name :: (annotationsCalls node.annotations ++
    .count node.fields.length :: node.fields.flatMap StructFieldNode.calls)

def BitfieldFieldNode.calls (field : BitfieldFieldNode) : List WriterCall :=
  [.string field.name, .u64 field.bits]

def BitfieldNode.calls (node : BitfieldNode) : List WriterCall :=
  .string node.name :: (annotationsCalls node.annotations ++ (node.baseType.calls ++
    .count node.fields.length :: node.fields.flatMap BitfieldFieldNode.calls))

def EnumMemberNode.calls (member : EnumMemberNode) : List WriterCall :=
  .string member.name :: .u64 member.value :: annotationsCalls member.annotations

def EnumNode.calls (node : EnumNode) : List WriterCall :=
  .string node.name :: (annotationsCalls node.annotations ++ (node.baseType.calls ++
    .count node.members.length :: node.members.flatMap EnumMemberNode.calls))

/-- The calls of `write_revision_tree` after the version and the previous hash. -/
def AbiversionNode.memberCalls (node : AbiversionNode) : List WriterCall :=
  annotationsCalls node.annotations ++
    ((.count node.bitfields.length :: node.bitfields.flatMap BitfieldNode.calls) ++
    ((.count node.enums.length :: node.enums.flatMap EnumNode.calls) ++
    ((.count node.structs.length :: node.structs.flatMap StructNode.calls) ++
    (.count node.functions.length :: node.functions.flatMap FunctionNode.calls))))

/-- `write_revision_tree` -/
def AbiversionNode.calls (node : AbiversionNode) (previousHash : Hash) : List WriterCall :=
  .u64 node.version :: .bytes previousHash.toList :: node.memberCalls

/-- `write_interface_identity` -/
def InterfaceNode.identityCalls (interface : InterfaceNode) : List WriterCall :=
  if !interface.hasUuid then [.throws "SIF interface requires a UUID"]
  else if !interface.hasPrefix then [.throws "SIF interface requires a prefix"]
  else
    .string interface.name :: .bytes interface.uuidNamespace.toList ::
      .string interface.uuidName :: .string interface.prefixStr ::
        annotationsCalls interface.annotations

/-! ### `sif_write` -/

/-- The last loop of `sif_write`. -/
def revisionTreesCalls : Hash → List (AbiversionNode × Hash) → List WriterCall
  | _, [] => []
  | previousHash, (revision, revisionHash) :: revisions =>
    revision.calls previousHash ++ revisionTreesCalls revisionHash revisions

def artifactCalls (interface : InterfaceNode) (revisions : List AbiversionNode)
    (hashes : List Hash) : List WriterCall :=
  .bytes kSifMagic :: .u32 kSifFormatVersion :: (interface.identityCalls ++
    ((.count hashes.length :: .bytes (hashes.headD zeroHash).toList ::
      hashes.map fun hash => .bytes hash.toList) ++
        revisionTreesCalls zeroHash (revisions.zip hashes)))

/-- The calls on the writer of the output, where `sif_write` gets to it. -/
def sifCalls (interface : InterfaceNode) (extensions : List InterfaceNode) :
    Except Exn (List WriterCall) :=
  let revisions := allRevisions interface extensions
  if revisions.isEmpty then
    .error (.runtimeError "SIF artifact requires at least one ABI revision")
  else do
    let hashes ← revisionHashes interface zeroHash revisions
    return artifactCalls interface revisions hashes

/-! ### The stream -/

/-- What `sif_write` leaves on the stream, and how it ends. -/
def sifWriteTo (interface : InterfaceNode) (extensions : List InterfaceNode) :
    Bytes × Except Exn Unit :=
  match sifCalls interface extensions with
  | .error e => ([], .error e)
  | .ok calls => streamEach WriterCall.run calls

end Sidlc
