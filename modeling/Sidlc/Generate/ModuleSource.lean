import Sidlc.Generate.UserSource

/-!
# The dispatcher of a server (`c_module_source_generator.cc`)

As for the client, a case of the dispatcher is the code that is written, statement by statement.
`abi_spans` is filled but never read, and of a `TypeValueInfo` only the size is.
-/

namespace Sidlc

/-- `type_value_infos`: the size of a type by its name, the entry assigned last first. -/
abbrev TypeValueInfos := List (Bytes × Nat)

/-- `register_builtin_type_infos` -/
def registerBuiltinTypeInfos : TypeValueInfos :=
  typeInfos.map fun (name, info) => (name, info.size)

/-- `get_type_value_info(node).type_size`, with eight bytes for a host pointer. -/
def getTypeValueInfo (infos : TypeValueInfos) (node : TypeNode) : Nat :=
  if node.isPtr then 8
  else
    match infos.lookup node.name with
    | some size => size
    | none => node.typeSize

/-- `visit(StructNode &)` -/
def visitStruct (infos : TypeValueInfos) (node : StructNode) : TypeValueInfos :=
  (node.name, 0) :: infos

/-- `visit(BitfieldNode &)` -/
def visitBitfield (infos : TypeValueInfos) (node : BitfieldNode) : TypeValueInfos :=
  (node.name, getTypeValueInfo infos node.baseType) :: infos

/-- `visit(EnumNode &)` -/
def visitEnum (infos : TypeValueInfos) (node : EnumNode) : TypeValueInfos :=
  (node.name, getTypeValueInfo infos node.baseType) :: infos

/-- The table behind one revision. -/
def visitTypes (infos : TypeValueInfos) (node : AbiversionNode) : TypeValueInfos :=
  node.structs.foldl visitStruct (node.bitfields.foldl visitBitfield
    (node.enums.foldl visitEnum infos))

/-- The table behind all revisions, which the dispatch cases are written with. -/
def typeValueInfos (node : InterfaceNode) : TypeValueInfos :=
  node.abiversions.foldl visitTypes registerBuiltinTypeInfos

/-- `parameter_uses_pointer_argument` -/
def parameterUsesPointerArgument (node : ParameterNode) : Bool :=
  node.direction ≠ .IN || node.type.isPtr || node.type.isArray

/-- `is_scalar_in_register_param` -/
def isScalarInRegisterParam (abi : ArchAbi) (infos : TypeValueInfos) (node : ParameterNode) :
    Bool :=
  if node.direction ≠ .IN then false
  else if node.type.isPtr || node.type.isArray then false
  else 0 < getTypeValueInfo infos node.type && getTypeValueInfo infos node.type ≤ abi.pointerSize

def serverPartition (abi : ArchAbi) (infos : TypeValueInfos) (node : FunctionNode) : Partition :=
  partition abi (isScalarInRegisterParam abi infos) node

/-- The initializer of a local variable, behind the cast to the type of the variable. -/
inductive ArgExpression where
  /-- `args[i]` -/
  | slot (i : Nat)
  /-- `(uintptr_t)args[i]` -/
  | pointerSlot (i : Nat)
  /-- `*(const T *)(uintptr_t)args[0]` -/
  | load (type : Bytes)
  /-- `in->p` -/
  | inField (p : Param)
  /-- `&out->p` -/
  | outField (p : Param)
  deriving DecidableEq

/-- `T p = (T)init;` -/
structure DispatchLocal where
  type : Bytes
  param : Param
  init : ArgExpression
  deriving DecidableEq

/-- One `case` of the dispatcher. It ends in `return typed_vtable->callee(context, handle, ...)`
with the locals as further arguments. -/
structure DispatchCase where
  label : UInt32
  canUseCallReg : Bool
  /-- `const struct { T p; ... } *in = (const void *)(uintptr_t)args[0];` -/
  inBlock : Option (List BlockField)
  /-- `struct { T p; ... } *out = (void *)(uintptr_t)args[1];` -/
  outBlock : Option (List BlockField)
  /-- Returns `STATUS_INVALID_VALUE` when `args[0]` is `NULL`. -/
  checksIn : Bool
  /-- Returns `STATUS_INVALID_VALUE` when `args[1]` is `NULL`. -/
  checksOut : Bool
  locals : List DispatchLocal
  callee : Bytes
  deriving DecidableEq

/-- `arg_expr` -/
def argExpression (pfx : Bytes) (s : Partition) (p : Param) : ArgExpression :=
  if s.canUseCallReg then
    if parameterUsesPointerArgument p.node then .pointerSlot p.index else .slot p.index
  else if p.node.direction = .OUT then
    if s.outParams.length = 1 then .pointerSlot 1 else .outField p
  else if p ∈ s.peeledParams then .slot (2 + s.peeledParams.idxOf p)
  else
    match s.inParams with
    | [q] => if q.node.type.isPtr then .pointerSlot 0 else .load (getParameterCType pfx p.node)
    | _ => .inField p

/-- `write_dispatch_case` -/
def dispatchCase (abi : ArchAbi) (pfx : Bytes) (infos : TypeValueInfos) (node : FunctionNode) :
    DispatchCase :=
  let s := serverPartition abi infos node
  let block := !s.canUseCallReg
  { label := node.id
    canUseCallReg := s.canUseCallReg
    inBlock :=
      if block && s.inParams.length > 1 then
        some (s.inParams.map fun p => ⟨getParameterCType pfx p.node, p⟩)
      else none
    outBlock :=
      if block && s.outParams.length > 1 then
        some (s.outParams.map fun p => ⟨toCType pfx p.node.type, p⟩)
      else none
    checksIn := block && (s.inParams.length > 1
      || match s.inParams with
        | [p] => !p.node.type.isPtr
        | _ => false)
    checksOut := block && s.outParams.length > 1
    locals := node.params.map fun p =>
      ⟨getParameterCType pfx p.node, p, argExpression pfx s p⟩
    callee := node.name }

section DispatchCase

variable {abi : ArchAbi} {pfx : Bytes} {infos : TypeValueInfos} {node : FunctionNode}

theorem locals_dispatchCase : (dispatchCase abi pfx infos node).locals = node.params.map fun p =>
    ⟨getParameterCType pfx p.node, p, argExpression pfx (serverPartition abi infos node) p⟩ :=
  rfl

/-- A parameter that is called with blocks. -/
theorem argExpression_of_block (pfx : Bytes) {s : Partition} (h : s.canUseCallReg = false)
    (p : Param) :
    argExpression pfx s p =
      if p.node.direction = .OUT then
        if s.outParams.length = 1 then .pointerSlot 1 else .outField p
      else if p ∈ s.peeledParams then .slot (2 + s.peeledParams.idxOf p)
      else
        match s.inParams with
        | [q] => if q.node.type.isPtr then .pointerSlot 0 else .load (getParameterCType pfx p.node)
        | _ => .inField p := by
  unfold argExpression
  rw [h, if_neg Bool.false_ne_true]

end DispatchCase

/-- `functions_by_id.resize(size, nullptr)` -/
def resizeFunctions (size : Nat) (functionsById : List (Option FunctionNode)) :
    List (Option FunctionNode) :=
  functionsById.take size ++ List.replicate (size - functionsById.length) none

/-- `visit(FunctionNode &)`. The new size `node.id + 1` is computed in thirty-two bits: for the
largest id it is `0`, and C++ does not define the write behind the end. -/
def visitFunction (functionsById : List (Option FunctionNode)) (node : FunctionNode) :
    Except Exn (List (Option FunctionNode)) :=
  let functionsById :=
    if functionsById.length ≤ node.id.toNat then
      resizeFunctions (node.id + 1).toNat functionsById
    else functionsById
  if node.id.toNat < functionsById.length then .ok (functionsById.set node.id.toNat (some node))
  else .error .diverges

/-- `total_funcid_span` behind a revision. -/
def visitSpan (span : UInt32) (node : AbiversionNode) : UInt32 :=
  match node.functions.getLast? with
  | some f => f.id + 1
  | none => span

/-- `ServerDispatchArgs`: `funcid` below `bound` and a non-zero slot `funcid` of the vtable are
tested, then the cases are tried. -/
structure Dispatcher where
  bound : UInt32
  argSlotCount : Nat
  cases : List DispatchCase

/-- `visit(InterfaceNode &)` -/
def generateModuleSource (abi : ArchAbi) (node : InterfaceNode) : Except Exn Dispatcher :=
  if abi.maxRegArgs ≤ 2 then .error (.runtimeError "Invalid architecture ABI")
  else if !node.hasPrefix then .error (.runtimeError "Interface prefix is required")
  else if node.annotations.any fun anno => anno.name = ascii "prefix" then
    .error (.runtimeError "Prefix must be stored as interface metadata, not annotation")
  else
    do
      let functionsById ←
        (node.abiversions.flatMap AbiversionNode.functions).foldlM visitFunction []
      return {
        bound := node.abiversions.foldl visitSpan 0
        argSlotCount := abi.argSlotCount
        cases := (functionsById.filterMap id).map
          (dispatchCase abi node.prefixStr (typeValueInfos node)) }

end Sidlc
