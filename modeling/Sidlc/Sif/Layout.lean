import Sidlc.Library.LittleEndian
import Sidlc.Sif.Read

/-!
# The SIF format

What a SIF artifact looks like, independently of the code that writes and reads it. Every node has
a `layout`, a list of cells whose only freedom is the `is_const` byte of a type, and is `Encodable`
when its strings and lists are short enough for their 32-bit counts. Not everything in a node is
laid out: `bare` drops the type sizes and the hash fields, which the format does not record or
records elsewhere.

An artifact is the layout of an interface whose revisions are *stamped*: each carries its hash,
taken over the domain string, the UUID of the interface and its own tree, and the hash of the
revision before it (`stampRevisions`). `InterfaceNode.Decoded` says what an interface that came out
of an artifact satisfies.
-/

namespace Sidlc

open CellFormat LittleEndian

/-! ### Words, strings and lists -/

namespace Layout

def u8 (value : UInt8) : List Cell :=
  literal [value]

def u32 (value : UInt32) : List Cell :=
  literal (bytesLE 4 value.toNat)

def u64 (value : UInt64) : List Cell :=
  literal (bytesLE 8 value.toNat)

/-- A byte count, the bytes and zeros up to the next multiple of four. -/
def string (value : Bytes) : List Cell :=
  literal (bytesLE 4 value.length ++ value
    ++ List.replicate (BinaryWriter.padding value.length) 0)

/-- A count and the elements. -/
def counted {α : Type} (layout : α → List Cell) (xs : List α) : List Cell :=
  literal (bytesLE 4 xs.length) ++ xs.flatMap layout

end Layout

/-- The list is short enough for a 32-bit count. -/
def Countable {α : Type} (xs : List α) : Prop :=
  xs.length < 2 ^ 32

/-- The list has a 32-bit count and all its elements are encodable. -/
def AllEncodable {α : Type} (encodable : α → Prop) (xs : List α) : Prop :=
  Countable xs ∧ ∀ x ∈ xs, encodable x

theorem allEncodable_nil {α : Type} (encodable : α → Prop) : AllEncodable encodable [] :=
  ⟨by simp [Countable], List.forall_mem_nil _⟩

/-! ### Annotations -/

namespace ExpressionNode

def layout : ExpressionNode → List Cell
  | .string value => Layout.u8 ExprKind.String ++ Layout.string value
  | .number value => Layout.u8 ExprKind.Number ++ Layout.u64 value
  | .identifier name => Layout.u8 ExprKind.Identifier ++ Layout.string name

def Encodable : ExpressionNode → Prop
  | .string value => Countable value
  | .number _ => True
  | .identifier name => Countable name

end ExpressionNode

namespace AnnotationNode

def layout (node : AnnotationNode) : List Cell :=
  Layout.string node.name ++ Layout.counted ExpressionNode.layout node.args

def Encodable (node : AnnotationNode) : Prop :=
  Countable node.name ∧ AllEncodable ExpressionNode.Encodable node.args

end AnnotationNode

namespace Layout

def annotations (annotations : List AnnotationNode) : List Cell :=
  counted AnnotationNode.layout annotations

end Layout

/-- All the annotations are encodable. -/
abbrev AnnotationsEncodable (annotations : List AnnotationNode) : Prop :=
  AllEncodable AnnotationNode.Encodable annotations

/-! ### Types -/

namespace TypeNode

def layout : TypeNode → List Cell
  | .named c _ name => .flag c :: (Layout.u8 TypeKind.Named ++ Layout.string name)
  | .ptr c _ innerType => .flag c :: (Layout.u8 TypeKind.Ptr ++ innerType.layout)
  | .array c _ innerType => .flag c :: (Layout.u8 TypeKind.Array ++ innerType.layout)

def Encodable : TypeNode → Prop
  | .named _ _ name => Countable name
  | .ptr _ _ innerType => innerType.Encodable
  | .array _ _ innerType => innerType.Encodable

/-- The type without its sizes. -/
def bare : TypeNode → TypeNode
  | .named c _ name => .named c 0 name
  | .ptr c _ innerType => .ptr c 0 innerType.bare
  | .array c _ innerType => .array c 0 innerType.bare

@[simp] theorem layout_bare (t : TypeNode) : t.bare.layout = t.layout := by
  induction t with
  | named c n name => rfl
  | ptr c n t ih => rw [bare, layout, layout, ih]
  | array c n t ih => rw [bare, layout, layout, ih]

@[simp] theorem encodable_bare (t : TypeNode) : t.bare.Encodable ↔ t.Encodable := by
  induction t with
  | named c n name => rfl
  | ptr c n t ih => exact ih
  | array c n t ih => exact ih

@[simp] theorem bare_bare (t : TypeNode) : t.bare.bare = t.bare := by
  induction t with
  | named c n name => rfl
  | ptr c n t ih => rw [bare, bare, ih]
  | array c n t ih => rw [bare, bare, ih]

end TypeNode

/-! ### Declarations -/

namespace ParameterNode

def layout (node : ParameterNode) : List Cell :=
  Layout.u8 node.direction.toByte ++ (Layout.annotations node.annotations ++
    (node.type.layout ++ Layout.string node.name))

def Encodable (node : ParameterNode) : Prop :=
  AnnotationsEncodable node.annotations ∧ node.type.Encodable ∧ Countable node.name

def bare (node : ParameterNode) : ParameterNode :=
  { node with type := node.type.bare }

@[simp] theorem layout_bare (node : ParameterNode) : node.bare.layout = node.layout := by
  simp [bare, layout]

@[simp] theorem encodable_bare (node : ParameterNode) : node.bare.Encodable ↔ node.Encodable := by
  simp [bare, Encodable]

end ParameterNode

namespace FunctionNode

def layout (node : FunctionNode) : List Cell :=
  Layout.u32 node.id ++ (Layout.string node.name ++ (Layout.annotations node.annotations ++
    Layout.counted ParameterNode.layout node.parameters))

def Encodable (node : FunctionNode) : Prop :=
  Countable node.name ∧ AnnotationsEncodable node.annotations ∧
    AllEncodable ParameterNode.Encodable node.parameters

def bare (node : FunctionNode) : FunctionNode :=
  { node with parameters := node.parameters.map ParameterNode.bare }

end FunctionNode

namespace StructFieldNode

def layout (node : StructFieldNode) : List Cell :=
  node.type.layout ++ Layout.string node.name

def Encodable (node : StructFieldNode) : Prop :=
  node.type.Encodable ∧ Countable node.name

def bare (node : StructFieldNode) : StructFieldNode :=
  { node with type := node.type.bare }

@[simp] theorem layout_bare (node : StructFieldNode) : node.bare.layout = node.layout := by
  simp [bare, layout]

@[simp] theorem encodable_bare (node : StructFieldNode) :
    node.bare.Encodable ↔ node.Encodable := by
  simp [bare, Encodable]

end StructFieldNode

namespace StructNode

def layout (node : StructNode) : List Cell :=
  Layout.string node.name ++ (Layout.annotations node.annotations ++
    Layout.counted StructFieldNode.layout node.fields)

def Encodable (node : StructNode) : Prop :=
  Countable node.name ∧ AnnotationsEncodable node.annotations ∧
    AllEncodable StructFieldNode.Encodable node.fields

def bare (node : StructNode) : StructNode :=
  { node with fields := node.fields.map StructFieldNode.bare }

end StructNode

namespace BitfieldFieldNode

def layout (node : BitfieldFieldNode) : List Cell :=
  Layout.string node.name ++ Layout.u64 node.bits

def Encodable (node : BitfieldFieldNode) : Prop :=
  Countable node.name

end BitfieldFieldNode

namespace BitfieldNode

def layout (node : BitfieldNode) : List Cell :=
  Layout.string node.name ++ (Layout.annotations node.annotations ++ (node.baseType.layout ++
    Layout.counted BitfieldFieldNode.layout node.fields))

def Encodable (node : BitfieldNode) : Prop :=
  Countable node.name ∧ AnnotationsEncodable node.annotations ∧ node.baseType.Encodable ∧
    AllEncodable BitfieldFieldNode.Encodable node.fields

def bare (node : BitfieldNode) : BitfieldNode :=
  { node with baseType := node.baseType.bare }

end BitfieldNode

namespace EnumMemberNode

def layout (node : EnumMemberNode) : List Cell :=
  Layout.string node.name ++ (Layout.u64 node.value ++ Layout.annotations node.annotations)

def Encodable (node : EnumMemberNode) : Prop :=
  Countable node.name ∧ AnnotationsEncodable node.annotations

end EnumMemberNode

namespace EnumNode

def layout (node : EnumNode) : List Cell :=
  Layout.string node.name ++ (Layout.annotations node.annotations ++ (node.baseType.layout ++
    Layout.counted EnumMemberNode.layout node.members))

def Encodable (node : EnumNode) : Prop :=
  Countable node.name ∧ AnnotationsEncodable node.annotations ∧ node.baseType.Encodable ∧
    AllEncodable EnumMemberNode.Encodable node.members

def bare (node : EnumNode) : EnumNode :=
  { node with baseType := node.baseType.bare }

end EnumNode

/-! ### Lists of bare nodes -/

section Lists

variable {α : Type} {layout : α → List Cell} {encodable : α → Prop} {f : α → α}

/-- Nodes laid out alike element by element are laid out alike as a list. -/
theorem Layout.counted_map (h : ∀ x, layout (f x) = layout x) (xs : List α) :
    Layout.counted layout (xs.map f) = Layout.counted layout xs := by
  rw [Layout.counted, Layout.counted, List.length_map, List.flatMap_map]
  congr 2
  exact funext h

theorem allEncodable_map (h : ∀ x, encodable (f x) ↔ encodable x) (xs : List α) :
    AllEncodable encodable (xs.map f) ↔ AllEncodable encodable xs := by
  simp [AllEncodable, Countable, h]

end Lists

@[simp] theorem FunctionNode.layout_bare (node : FunctionNode) :
    node.bare.layout = node.layout := by
  simp [bare, layout, Layout.counted_map ParameterNode.layout_bare]

@[simp] theorem FunctionNode.encodable_bare (node : FunctionNode) :
    node.bare.Encodable ↔ node.Encodable := by
  simp [bare, Encodable, allEncodable_map ParameterNode.encodable_bare]

@[simp] theorem StructNode.layout_bare (node : StructNode) : node.bare.layout = node.layout := by
  simp [bare, layout, Layout.counted_map StructFieldNode.layout_bare]

@[simp] theorem StructNode.encodable_bare (node : StructNode) :
    node.bare.Encodable ↔ node.Encodable := by
  simp [bare, Encodable, allEncodable_map StructFieldNode.encodable_bare]

@[simp] theorem BitfieldNode.layout_bare (node : BitfieldNode) :
    node.bare.layout = node.layout := by
  simp [bare, layout]

@[simp] theorem BitfieldNode.encodable_bare (node : BitfieldNode) :
    node.bare.Encodable ↔ node.Encodable := by
  simp [bare, Encodable]

@[simp] theorem EnumNode.layout_bare (node : EnumNode) : node.bare.layout = node.layout := by
  simp [bare, layout]

@[simp] theorem EnumNode.encodable_bare (node : EnumNode) :
    node.bare.Encodable ↔ node.Encodable := by
  simp [bare, Encodable]

/-! ### Revisions -/

namespace AbiversionNode

/-- Everything after the version and the previous hash. -/
def membersLayout (node : AbiversionNode) : List Cell :=
  Layout.annotations node.annotations ++
    (Layout.counted BitfieldNode.layout node.bitfields ++
    (Layout.counted EnumNode.layout node.enums ++
    (Layout.counted StructNode.layout node.structs ++
    Layout.counted FunctionNode.layout node.functions)))

/-- The revision tree, under a given previous hash. -/
def layout (node : AbiversionNode) (previousHash : Hash) : List Cell :=
  Layout.u64 node.version ++ (literal previousHash.toList ++ node.membersLayout)

def Encodable (node : AbiversionNode) : Prop :=
  AnnotationsEncodable node.annotations ∧
    AllEncodable BitfieldNode.Encodable node.bitfields ∧
    AllEncodable EnumNode.Encodable node.enums ∧
    AllEncodable StructNode.Encodable node.structs ∧
    AllEncodable FunctionNode.Encodable node.functions

/-- The fields of a revision that its tree encodes, the others cleared. -/
def bare (node : AbiversionNode) : AbiversionNode :=
  { version := node.version
    annotations := node.annotations
    functions := node.functions.map FunctionNode.bare
    structs := node.structs.map StructNode.bare
    bitfields := node.bitfields.map BitfieldNode.bare
    enums := node.enums.map EnumNode.bare }

/-- The revision as an artifact carries it: the encoded fields, with its place in the chain. -/
def stamp (node : AbiversionNode) (previousHash abiHash : Hash) : AbiversionNode :=
  { node.bare with previousHash, abiHash }

@[simp] theorem membersLayout_bare (node : AbiversionNode) :
    node.bare.membersLayout = node.membersLayout := by
  simp only [bare, membersLayout, Layout.counted_map FunctionNode.layout_bare,
    Layout.counted_map StructNode.layout_bare, Layout.counted_map BitfieldNode.layout_bare,
    Layout.counted_map EnumNode.layout_bare]

@[simp] theorem layout_bare (node : AbiversionNode) (previousHash : Hash) :
    node.bare.layout previousHash = node.layout previousHash := by
  rw [layout, membersLayout_bare, layout]
  rfl

@[simp] theorem encodable_bare (node : AbiversionNode) :
    node.bare.Encodable ↔ node.Encodable := by
  simp only [bare, Encodable, allEncodable_map FunctionNode.encodable_bare,
    allEncodable_map StructNode.encodable_bare, allEncodable_map BitfieldNode.encodable_bare,
    allEncodable_map EnumNode.encodable_bare]

end AbiversionNode

/-! ### Deciding whether a node is encodable -/

section Decidable

instance {α : Type} (xs : List α) : Decidable (Countable xs) :=
  inferInstanceAs (Decidable (xs.length < 2 ^ 32))

instance {α : Type} (encodable : α → Prop) [DecidablePred encodable] (xs : List α) :
    Decidable (AllEncodable encodable xs) :=
  inferInstanceAs (Decidable (Countable xs ∧ ∀ x ∈ xs, encodable x))

instance : DecidablePred ExpressionNode.Encodable
  | .string value => inferInstanceAs (Decidable (Countable value))
  | .number _ => isTrue trivial
  | .identifier name => inferInstanceAs (Decidable (Countable name))

instance : DecidablePred AnnotationNode.Encodable := fun node =>
  inferInstanceAs (Decidable (Countable node.name ∧
    AllEncodable ExpressionNode.Encodable node.args))

instance (annotations : List AnnotationNode) : Decidable (AnnotationsEncodable annotations) :=
  inferInstanceAs (Decidable (AllEncodable AnnotationNode.Encodable annotations))

instance TypeNode.decidableEncodable : (node : TypeNode) → Decidable node.Encodable
  | .named _ _ name => inferInstanceAs (Decidable (Countable name))
  | .ptr _ _ innerType => decidableEncodable innerType
  | .array _ _ innerType => decidableEncodable innerType

instance : DecidablePred ParameterNode.Encodable := fun node =>
  inferInstanceAs (Decidable (AnnotationsEncodable node.annotations ∧ node.type.Encodable ∧
    Countable node.name))

instance : DecidablePred FunctionNode.Encodable := fun node =>
  inferInstanceAs (Decidable (Countable node.name ∧ AnnotationsEncodable node.annotations ∧
    AllEncodable ParameterNode.Encodable node.parameters))

instance : DecidablePred StructFieldNode.Encodable := fun node =>
  inferInstanceAs (Decidable (node.type.Encodable ∧ Countable node.name))

instance : DecidablePred StructNode.Encodable := fun node =>
  inferInstanceAs (Decidable (Countable node.name ∧ AnnotationsEncodable node.annotations ∧
    AllEncodable StructFieldNode.Encodable node.fields))

instance : DecidablePred BitfieldFieldNode.Encodable := fun node =>
  inferInstanceAs (Decidable (Countable node.name))

instance : DecidablePred BitfieldNode.Encodable := fun node =>
  inferInstanceAs (Decidable (Countable node.name ∧ AnnotationsEncodable node.annotations ∧
    node.baseType.Encodable ∧ AllEncodable BitfieldFieldNode.Encodable node.fields))

instance : DecidablePred EnumMemberNode.Encodable := fun node =>
  inferInstanceAs (Decidable (Countable node.name ∧ AnnotationsEncodable node.annotations))

instance : DecidablePred EnumNode.Encodable := fun node =>
  inferInstanceAs (Decidable (Countable node.name ∧ AnnotationsEncodable node.annotations ∧
    node.baseType.Encodable ∧ AllEncodable EnumMemberNode.Encodable node.members))

instance : DecidablePred AbiversionNode.Encodable := fun node =>
  inferInstanceAs (Decidable (AnnotationsEncodable node.annotations ∧
    AllEncodable BitfieldNode.Encodable node.bitfields ∧
    AllEncodable EnumNode.Encodable node.enums ∧
    AllEncodable StructNode.Encodable node.structs ∧
    AllEncodable FunctionNode.Encodable node.functions))

end Decidable

/-! ### The hash chain -/

namespace InterfaceNode

/-- The UUID derived from the identity of the interface. -/
def uuid (interface : InterfaceNode) : UuidBytes :=
  uuidNameGenerator interface.uuidNamespace interface.uuidName

/-- The message whose digest is the hash of a revision. -/
def revisionPreimage (interface : InterfaceNode) (node : AbiversionNode) (previousHash : Hash) :
    Bytes :=
  encode (Layout.string (ascii "strata.sif.revision.v0")) ++ (interface.uuid.toList ++
    encode (node.layout previousHash))

def revisionHash (interface : InterfaceNode) (node : AbiversionNode) (previousHash : Hash) : Hash :=
  Sha256.digest (interface.revisionPreimage node previousHash)

/-- The revisions with their hashes, each taken over the one before, from `previousHash` on. -/
def stampRevisions (interface : InterfaceNode) :
    Hash → List AbiversionNode → List AbiversionNode
  | _, [] => []
  | previousHash, node :: nodes =>
    let abiHash := interface.revisionHash node previousHash
    node.stamp previousHash abiHash :: interface.stampRevisions abiHash nodes

/-- The hash table of an interface with stamped revisions. -/
def hashTable (interface : InterfaceNode) : List Hash :=
  interface.abiversions.map AbiversionNode.abiHash

/-! ### Artifacts -/

def identityLayout (interface : InterfaceNode) : List Cell :=
  Layout.string interface.name ++ (literal interface.uuidNamespace.toList ++
    (Layout.string interface.uuidName ++ (Layout.string interface.prefixStr ++
      Layout.annotations interface.annotations)))

def IdentityEncodable (interface : InterfaceNode) : Prop :=
  Countable interface.name ∧ Countable interface.uuidName ∧ Countable interface.prefixStr ∧
    AnnotationsEncodable interface.annotations

instance : DecidablePred IdentityEncodable := fun interface =>
  inferInstanceAs (Decidable (Countable interface.name ∧ Countable interface.uuidName ∧
    Countable interface.prefixStr ∧ AnnotationsEncodable interface.annotations))

/-- The hash table: a count, the root hash, and the hash of every revision. -/
def hashTableLayout (hashes : List Hash) : List Cell :=
  literal (bytesLE 4 hashes.length) ++ (literal (hashes.headD zeroHash).toList ++
    hashes.flatMap fun hash => literal hash.toList)

/-- The trees of stamped revisions. -/
def treesLayout (revisions : List AbiversionNode) : List Cell :=
  revisions.flatMap fun node => node.layout node.previousHash

/-- The artifact of an interface with stamped revisions. -/
def layout (interface : InterfaceNode) : List Cell :=
  literal kSifMagic ++ (Layout.u32 kSifFormatVersion ++ (interface.identityLayout ++
    (hashTableLayout interface.hashTable ++ treesLayout interface.abiversions)))

end InterfaceNode

/-- The revisions are numbered `i`, `i + 1`, .... -/
def VersionsFrom : Nat → List AbiversionNode → Prop
  | _, [] => True
  | i, node :: nodes => node.version = UInt64.ofNat i ∧ VersionsFrom (i + 1) nodes

/-- The functions of the revisions, in order. -/
def functionsOf (revisions : List AbiversionNode) : List FunctionNode :=
  revisions.flatMap AbiversionNode.functions

/-- What the running maximum of `read_function` makes of `start`. -/
def nextFuncid (start : UInt32) (functions : List FunctionNode) : UInt32 :=
  functions.foldl (fun next function => max next (function.id + 1)) start

/-- What holds of an interface that `sif_read` returns. -/
structure InterfaceNode.Decoded (interface : InterfaceNode) : Prop where
  hasUuid : interface.hasUuid = true
  hasPrefix : interface.hasPrefix = true
  identity : interface.IdentityEncodable
  nonempty : interface.abiversions ≠ []
  countable : Countable interface.abiversions
  encodable : ∀ node ∈ interface.abiversions, node.Encodable
  versions : VersionsFrom 0 interface.abiversions
  stamped : interface.stampRevisions zeroHash interface.abiversions = interface.abiversions
  currentFuncid : interface.currentFuncid = nextFuncid 0 (functionsOf interface.abiversions)

/-! ### Stamping -/

namespace InterfaceNode

variable (interface : InterfaceNode)

@[simp] theorem revisionHash_bare (node : AbiversionNode) (previousHash : Hash) :
    interface.revisionHash node.bare previousHash = interface.revisionHash node previousHash := by
  rw [revisionHash, revisionPreimage, AbiversionNode.layout_bare]
  rfl

@[simp] theorem revisionHash_stamp (node : AbiversionNode) (p h previousHash : Hash) :
    interface.revisionHash (node.stamp p h) previousHash
      = interface.revisionHash node previousHash :=
  interface.revisionHash_bare node previousHash

/-- The hash of the last of some revisions, or the hash before them when there are none. -/
def lastHash (interface : InterfaceNode) : Hash → List AbiversionNode → Hash
  | previousHash, [] => previousHash
  | previousHash, node :: nodes =>
    interface.lastHash (interface.revisionHash node previousHash) nodes

variable {interface} in
/-- Stamping looks at the UUID only. -/
theorem stampRevisions_congr {other : InterfaceNode} (h : other.uuid = interface.uuid)
    (previousHash : Hash) (nodes : List AbiversionNode) :
    other.stampRevisions previousHash nodes = interface.stampRevisions previousHash nodes := by
  have hhash (node : AbiversionNode) (previousHash : Hash) :
      other.revisionHash node previousHash = interface.revisionHash node previousHash := by
    rw [revisionHash, revisionPreimage, h]
    rfl
  induction nodes generalizing previousHash with
  | nil => rfl
  | cons node nodes ih => rw [stampRevisions, stampRevisions, hhash, ih]

theorem stampRevisions_append (previousHash : Hash) (xs ys : List AbiversionNode) :
    interface.stampRevisions previousHash (xs ++ ys) =
      interface.stampRevisions previousHash xs
        ++ interface.stampRevisions (interface.lastHash previousHash xs) ys := by
  induction xs generalizing previousHash with
  | nil => rfl
  | cons x xs ih => rw [List.cons_append, stampRevisions, stampRevisions, ih, lastHash]; rfl

/-- Revisions that stamping leaves alone, one at a time. -/
theorem stampRevisions_cons_eq_iff {previousHash : Hash} {node : AbiversionNode}
    {nodes : List AbiversionNode} :
    interface.stampRevisions previousHash (node :: nodes) = node :: nodes ↔
      node.stamp previousHash node.abiHash = node ∧
        interface.revisionHash node previousHash = node.abiHash ∧
        interface.stampRevisions node.abiHash nodes = nodes := by
  rw [stampRevisions, List.cons.injEq]
  constructor
  · rintro ⟨hnode, hnodes⟩
    have hhash : interface.revisionHash node previousHash = node.abiHash :=
      congrArg AbiversionNode.abiHash hnode
    rw [hhash] at hnode hnodes
    exact ⟨hnode, hhash, hnodes⟩
  · rintro ⟨hnode, hhash, hnodes⟩
    rw [hhash]
    exact ⟨hnode, hnodes⟩

@[simp] theorem length_stampRevisions (previousHash : Hash) (xs : List AbiversionNode) :
    (interface.stampRevisions previousHash xs).length = xs.length := by
  induction xs generalizing previousHash with
  | nil => rfl
  | cons x xs ih => rw [stampRevisions, List.length_cons, ih, List.length_cons]

end InterfaceNode

end Sidlc
