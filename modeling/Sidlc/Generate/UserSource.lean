import Sidlc.Generate.Parameters

/-!
# Client stubs (`c_user_source_generator.cc`)

The generator writes C text. Here a stub is the code it writes, statement by statement; a local
variable is named by the parameter it belongs to, whose text is `_` and the name of the parameter
(`Param.stubName`). The line comments, includes and attributes around the stubs are left out.
-/

namespace Sidlc

/-- `_name` -/
def Param.stubName (p : Param) : Bytes :=
  ascii "_" ++ p.node.name

/-- A member of one of the two blocks: its type, as text, and the parameter it is named after. -/
structure BlockField where
  type : Bytes
  param : Param
  deriving DecidableEq

/-- The first block argument of `StHandle_CallN`. -/
inductive InArgument where
  /-- `NULL` -/
  | null
  /-- `(const void *)_p` -/
  | pointer (p : Param)
  /-- `(const void *)&_p` -/
  | addressOf (p : Param)
  /-- `(const void *)&in` -/
  | block
  deriving DecidableEq

/-- The second block argument of `StHandle_CallN`. -/
inductive OutArgument where
  /-- `NULL` -/
  | null
  /-- `(void *)_p` -/
  | pointer (p : Param)
  /-- `(void *)&out` -/
  | buffer
  deriving DecidableEq

/-- The call, behind the handle and `funcid_base + FUNCID_name`. -/
inductive StubCall where
  /-- `StHandle_CallK(..., (unsigned long)_p, ...)` -/
  | callK (args : List Param)
  /-- `StHandle_CallN(..., in, out, (unsigned long)_p or 0, ...)` -/
  | callN (inArg : InArgument) (outArg : OutArgument) (peel : List (Option Param))
  deriving DecidableEq

/-- The local variable `out`. -/
inductive OutBuffer where
  | absent
  /-- `T out;` -/
  | single (type : Bytes)
  /-- `struct { T p; ... } out;` -/
  | struct (fields : List BlockField)
  deriving DecidableEq

/-- `if (_p != NULL) { *_p = out; }`, or `out.p` in place of `out`. -/
inductive CopyOut where
  | whole (p : Param)
  | field (p : Param)
  deriving DecidableEq

structure ClientStub where
  /-- The name of the function. -/
  function : Bytes
  /-- Without the `StHandle handle` in front, which all stubs have. -/
  parameters : List BlockField
  /-- `FUNCID_name` -/
  funcid : Bytes
  /-- `struct { T p; ... } in = { .p = _p, ... };` -/
  inBlock : Option (List BlockField)
  outBuffer : OutBuffer
  call : StubCall
  copyOut : List CopyOut
  deriving DecidableEq

/-- The type that `_p` is declared with. -/
def ClientStub.typeOf (stub : ClientStub) (p : Param) : Bytes :=
  match stub.parameters.find? fun f => f.param = p with
  | some f => f.type
  | none => []

/-- `is_scalar` of the client -/
def isScalar (abi : ArchAbi) (node : ParameterNode) : Bool :=
  node.direction = .IN && !node.type.isPtr && !node.type.isArray
    && node.type.typeSize ≤ abi.pointerSize

def clientPartition (abi : ArchAbi) (node : FunctionNode) : Partition :=
  partition abi (isScalar abi) node

/-- The type a stub parameter and a member of the `in` block are declared with. -/
def stubType (pfx : Bytes) (node : ParameterNode) : Bytes :=
  let addPointer := node.direction ≠ .IN
  if node.type.isPtr then toCType pfx node.type ++ if addPointer then ascii "*" else []
  else toCType pfx node.type ++ if addPointer then ascii " *" else []

def inBlockOf (pfx : Bytes) (s : Partition) : Option (List BlockField) :=
  if s.inParams.length > 1 then
    some (s.inParams.map fun p => ⟨stubType pfx p.node, p⟩)
  else none

def outBufferOf (pfx : Bytes) (s : Partition) : OutBuffer :=
  match s.outParams with
  | [] => .absent
  | [p] => if p.node.type.isPtr then .absent else .single (toCType pfx p.node.type)
  | ps => .struct (ps.map fun p => ⟨toCType pfx p.node.type, p⟩)

def inArgumentOf (s : Partition) : InArgument :=
  match s.inParams with
  | [] => .null
  | [p] => if p.node.type.isPtr then .pointer p else .addressOf p
  | _ => .block

def outArgumentOf (s : Partition) : OutArgument :=
  match s.outParams with
  | [] => .null
  | [p] => if p.node.type.isPtr then .pointer p else .buffer
  | _ => .buffer

/-- `for (size_t i = 0; i < k_peel; ++i)` -/
def peelOf (abi : ArchAbi) (s : Partition) : List (Option Param) :=
  (List.range abi.peelSlotCount).map fun i => s.peeledParams[i]?

def copyOutOf (s : Partition) : List CopyOut :=
  match s.outParams with
  | [p] => if p.node.type.isPtr then [] else [.whole p]
  | ps => ps.map .field

/-- `visit(FunctionNode &)` -/
def clientStub (abi : ArchAbi) (pfx : Bytes) (node : FunctionNode) : ClientStub :=
  let s := clientPartition abi node
  let function := pfx ++ node.name
  let parameters := node.params.map fun p => ⟨stubType pfx p.node, p⟩
  let funcid := ascii "FUNCID_" ++ node.name
  if s.canUseCallReg then
    { function, parameters, funcid, inBlock := none, outBuffer := .absent,
      call := .callK node.params, copyOut := [] }
  else
    { function, parameters, funcid, inBlock := inBlockOf pfx s, outBuffer := outBufferOf pfx s,
      call := .callN (inArgumentOf s) (outArgumentOf s) (peelOf abi s), copyOut := copyOutOf s }

section ClientStub

variable {abi : ArchAbi} {pfx : Bytes} {node : FunctionNode}

theorem parameters_clientStub : (clientStub abi pfx node).parameters
    = node.params.map fun p => ⟨stubType pfx p.node, p⟩ := by
  unfold clientStub
  simp only
  split_ifs <;> rfl

theorem function_clientStub : (clientStub abi pfx node).function = pfx ++ node.name := by
  unfold clientStub
  simp only
  split_ifs <;> rfl

/-- The stub of a function that is called with registers alone. -/
theorem clientStub_of_callReg (h : (clientPartition abi node).canUseCallReg = true) :
    clientStub abi pfx node =
      { function := pfx ++ node.name
        parameters := node.params.map fun p => ⟨stubType pfx p.node, p⟩
        funcid := ascii "FUNCID_" ++ node.name
        inBlock := none, outBuffer := .absent, call := .callK node.params, copyOut := [] } := by
  unfold clientStub
  simp only [h, if_true]

/-- The stub of a function that is called with blocks. -/
theorem clientStub_of_block (h : (clientPartition abi node).canUseCallReg = false) :
    clientStub abi pfx node =
      { function := pfx ++ node.name
        parameters := node.params.map fun p => ⟨stubType pfx p.node, p⟩
        funcid := ascii "FUNCID_" ++ node.name
        inBlock := inBlockOf pfx (clientPartition abi node)
        outBuffer := outBufferOf pfx (clientPartition abi node)
        call := .callN (inArgumentOf (clientPartition abi node))
          (outArgumentOf (clientPartition abi node)) (peelOf abi (clientPartition abi node))
        copyOut := copyOutOf (clientPartition abi node) } := by
  unfold clientStub
  simp only [h, Bool.false_eq_true, if_false]

end ClientStub

/-- `#define name value` -/
structure FuncidMacro where
  name : Bytes
  value : UInt32
  deriving DecidableEq

structure UserSource where
  macros : List FuncidMacro
  functions : List ClientStub

/-- `visit(InterfaceNode &)`: the macros and stubs of the functions, revision by revision. -/
def generateUserSource (abi : ArchAbi) (node : InterfaceNode) : Except Exn UserSource :=
  if !node.hasPrefix then .error (.runtimeError "Interface prefix is required")
  else if node.annotations.any fun anno => anno.name = ascii "prefix" then
    .error (.runtimeError "Prefix must be stored as interface metadata, not annotation")
  else
    let functions := node.abiversions.flatMap AbiversionNode.functions
    .ok
      { macros := functions.map fun f => ⟨ascii "FUNCID_" ++ f.name, f.id⟩
        functions := functions.map (clientStub abi node.prefixStr) }

end Sidlc
