import Mathlib.Data.List.Basic

/-!
# The syntax tree (`ast.hh`)

Strings are byte strings, as `std::string_view` is. `owned_strings` only keeps the storage of the
views alive and has no counterpart here; nor have the back references from a declaration to its
revision and from a revision to its interface, which the functions below receive as arguments.
-/

namespace Sidlc

abbrev Bytes := List UInt8

/-- The bytes of a string literal of the source. -/
def ascii (s : String) : Bytes :=
  s.toList.map fun c => c.toNat.toUInt8

/-- What a function of the compiler throws. `diverges` is no C++ exception: it stands where there is
no result, because a loop of the model has used up the rounds it was given, or because C++ does not
define what the code does. -/
inductive Exn where
  | runtimeError (what : String)
  | invalidArgument (what : String)
  | outOfRange (what : String)
  | diverges
  deriving DecidableEq

/-- `std::array<uint8_t, k_hash_size>` -/
abbrev Hash := Vector UInt8 32

/-- `std::array<uint8_t, k_uuid_size>` -/
abbrev UuidBytes := Vector UInt8 16

/-- `std::array<uint8_t, k_hash_size> previous_hash = {}` -/
def zeroHash : Hash :=
  Vector.replicate 32 0

/-- The three concrete expression nodes. A string literal keeps its quotes. -/
inductive ExpressionNode where
  | string (value : Bytes)
  | number (value : UInt64)
  | identifier (name : Bytes)
  deriving DecidableEq

structure AnnotationNode where
  name : Bytes
  args : List ExpressionNode
  deriving DecidableEq

/-- A type is a name, or a pointer to or array of one inner type: the combinations of `is_ptr`,
`is_array` and `inner_type` that `parse_type` and `read_type` build. -/
inductive TypeNode where
  | named (isConst : Bool) (typeSize : Nat) (name : Bytes)
  | ptr (isConst : Bool) (typeSize : Nat) (innerType : TypeNode)
  | array (isConst : Bool) (typeSize : Nat) (innerType : TypeNode)
  deriving DecidableEq

namespace TypeNode

def isConst : TypeNode → Bool
  | named c _ _ | ptr c _ _ | array c _ _ => c

/-- `type_size`, `0` where nothing has filled it in. -/
def typeSize : TypeNode → Nat
  | named _ n _ | ptr _ n _ | array _ n _ => n

def isPtr : TypeNode → Bool
  | ptr .. => true
  | _ => false

def isArray : TypeNode → Bool
  | array .. => true
  | _ => false

/-- `name`, an empty view on pointers and arrays. -/
def name : TypeNode → Bytes
  | named _ _ n => n
  | _ => []

end TypeNode

/-- `ParameterNode::Direction` -/
inductive Direction where
  | IN
  | OUT
  | INOUT
  deriving DecidableEq

structure ParameterNode where
  direction : Direction
  type : TypeNode
  name : Bytes
  annotations : List AnnotationNode
  deriving DecidableEq

structure FunctionNode where
  name : Bytes
  annotations : List AnnotationNode
  parameters : List ParameterNode
  id : UInt32
  deriving DecidableEq

structure EnumMemberNode where
  name : Bytes
  value : UInt64
  annotations : List AnnotationNode
  deriving DecidableEq

structure EnumNode where
  name : Bytes
  baseType : TypeNode
  annotations : List AnnotationNode
  members : List EnumMemberNode
  deriving DecidableEq

structure StructFieldNode where
  type : TypeNode
  name : Bytes
  deriving DecidableEq

structure StructNode where
  name : Bytes
  annotations : List AnnotationNode
  fields : List StructFieldNode
  deriving DecidableEq

structure BitfieldFieldNode where
  name : Bytes
  bits : UInt64
  deriving DecidableEq

structure BitfieldNode where
  name : Bytes
  baseType : TypeNode
  annotations : List AnnotationNode
  fields : List BitfieldFieldNode
  deriving DecidableEq

structure AbiversionNode where
  version : UInt64
  previousHash : Hash := zeroHash
  abiHash : Hash := zeroHash
  annotations : List AnnotationNode := []
  functions : List FunctionNode := []
  structs : List StructNode := []
  bitfields : List BitfieldNode := []
  enums : List EnumNode := []
  deriving DecidableEq

structure InterfaceNode where
  name : Bytes := []
  hasUuid : Bool := false
  uuidNamespace : UuidBytes := Vector.replicate 16 0
  uuidName : Bytes := []
  hasPrefix : Bool := false
  prefixStr : Bytes := []
  annotations : List AnnotationNode := []
  abiversions : List AbiversionNode := []
  currentFuncid : UInt32 := 0
  deriving DecidableEq

end Sidlc
