import Sidlc.Generate.HeaderText
import Sidlc.Generate.ModuleSource

/-!
# The text of sources (`c_user_source_generator.cc`, `c_module_source_generator.cc`)

What the two source generators write, character by character.
-/

namespace Sidlc

open Decimal Grammar

/-! ### Client stubs -/

/-- A parameter of the definition. -/
def writeStubParameter (pfx : Bytes) (node : ParameterNode) : Bytes :=
  let addPointer := node.direction ≠ .IN
  toCType pfx node.type ++
    (if node.type.isPtr then if addPointer then ascii "*_" else ascii "_"
      else if addPointer then ascii " *_" else ascii " _") ++
    node.name ++ directionMarker node.direction

/-- A member of `in`; output is not there. -/
def writeInMember (pfx : Bytes) (p : Param) : Bytes :=
  match p.node.direction with
  | .IN =>
    ascii "        " ++ toCType pfx p.node.type ++
      (if p.node.type.isPtr then [] else ascii " ") ++ p.node.name ++ ascii ";\n"
  | .INOUT =>
    ascii "        " ++ toCType pfx p.node.type ++
      (if p.node.type.isPtr then ascii "*" else ascii " *") ++ p.node.name ++ ascii ";\n"
  | .OUT => []

/-- `struct { ... } in = { ... };` -/
def writeInBlock (pfx : Bytes) (s : Partition) : Bytes :=
  if s.canUseCallReg = false ∧ s.inParams.isEmpty = false then
    if s.inParams.length > 1 then
      ascii "    struct \x7b\n" ++ s.inParams.flatMap (writeInMember pfx) ++
      ascii "    \x7d in = \x7b\n" ++
      (s.inParams.flatMap fun p =>
        ascii "        ." ++ p.node.name ++ ascii " = _" ++ p.node.name ++ ascii ",\n") ++
      ascii "    \x7d;\n"
    else []
  else []

/-- `struct { ... } out;`, or a variable of the type. -/
def writeOutBuffer (pfx : Bytes) (s : Partition) : Bytes :=
  if s.canUseCallReg = false ∧ s.outParams.isEmpty = false then
    match s.outParams with
    | [p] =>
      if p.node.type.isPtr then []
      else ascii "    " ++ toCType pfx p.node.type ++ ascii " out;\n"
    | ps =>
      ascii "    struct \x7b\n" ++
      (ps.flatMap fun p =>
        ascii "        " ++ toCType pfx p.node.type ++
          (if p.node.type.isPtr then [] else ascii " ") ++ p.node.name ++ ascii ";\n") ++
      ascii "    \x7d out;\n"
  else []

/-- The first block argument of `StHandle_CallN`, up to the comma. -/
def writeInArgument (s : Partition) : Bytes :=
  match s.inParams with
  | [] => ascii "NULL, "
  | [p] =>
    if p.node.type.isPtr then ascii "(const void *)_" ++ p.node.name ++ ascii ", "
    else ascii "(const void *)&_" ++ p.node.name ++ ascii ", "
  | _ => ascii "(const void *)&in, "

/-- The second block argument. -/
def writeOutArgument (s : Partition) : Bytes :=
  match s.outParams with
  | [] => ascii "NULL, "
  | [p] =>
    if p.node.type.isPtr then ascii "(void *)_" ++ p.node.name ++ ascii ", "
    else ascii "(void *)&out, "
  | _ => ascii "(void *)&out, "

/-- The word for the peeled parameter at `i`. -/
def writePeeled (s : Partition) (i : Nat) : Bytes :=
  match s.peeledParams[i]? with
  | some p => ascii "(unsigned long)_" ++ p.node.name
  | none => ascii "0"

/-- The call of the kernel. -/
def writeCall (abi : ArchAbi) (node : FunctionNode) (s : Partition) : Bytes :=
  if s.canUseCallReg then
    ascii "    status = StHandle_Call" ++ numeral node.parameters.length ++
    ascii "(handle, funcid_base + FUNCID_" ++ node.name ++
    (node.parameters.flatMap fun p => ascii ", (unsigned long)_" ++ p.name) ++ ascii ");\n"
  else
    ascii "    status = StHandle_CallN(handle, funcid_base + FUNCID_" ++ node.name ++ ascii ", " ++
    writeInArgument s ++ writeOutArgument s ++
    ((List.range abi.peelSlotCount).flatMap fun i =>
      writePeeled s i ++ if i < abi.peelSlotCount - 1 then ascii ", " else []) ++
    ascii ");\n"

/-- What is stored through the output parameters after the call. -/
def writeCopyOut (s : Partition) : Bytes :=
  if s.canUseCallReg = false ∧ s.outParams.isEmpty = false then
    match s.outParams with
    | [p] =>
      if p.node.type.isPtr then []
      else
        ascii "    if (_" ++ p.node.name ++ ascii " != NULL) " ++
        ascii "\x7b *_" ++ p.node.name ++ ascii " = out; \x7d\n"
    | ps => ps.flatMap fun p =>
      ascii "    if (_" ++ p.node.name ++ ascii " != NULL) " ++
      ascii "\x7b *_" ++ p.node.name ++ ascii " = out." ++ p.node.name ++ ascii "; \x7d\n"
  else []

/-- `visit(FunctionNode &)` of `CUserSourceGenerator`, to `buf_functions`. -/
def writeStub (abi : ArchAbi) (pfx : Bytes) (makeWeakSymbols : Bool) (node : FunctionNode) :
    Bytes :=
  let s := clientPartition abi node
  (if makeWeakSymbols then ascii "__attribute__((weak))\n" else []) ++
  ascii "StStatus " ++ pfx ++ node.name ++
  (if node.parameters.isEmpty then ascii "(StHandle handle __in"
    else ascii "(StHandle handle __in, ") ++
  separatedBy (ascii ", ") (writeStubParameter pfx) node.parameters ++ ascii ")\n" ++
  ascii "\x7b\n" ++
  ascii "    StStatus status;\n" ++
  ascii "    uint32_t funcid_base;\n" ++
  writeInBlock pfx s ++
  writeOutBuffer pfx s ++
  ascii "    status = StHandle_Query(handle, &interface_uuid, 0, &funcid_base, NULL);\n" ++
  ascii "    if (!CHECK_SUCCESS(status)) \x7b return status; \x7d\n" ++
  writeCall abi node s ++
  ascii "    if (!CHECK_SUCCESS(status)) \x7b return status; \x7d\n" ++
  writeCopyOut s ++
  ascii "    return STATUS_SUCCESS;\n" ++
  ascii "\x7d\n\n"

/-- `visit(FunctionNode &)`, to `buf_macros`. -/
def writeFuncidMacro (node : FunctionNode) : Bytes :=
  ascii "#define FUNCID_" ++ node.name ++ ascii " " ++ numeral node.id.toNat ++ ascii "\n"

/-- One of the two buffers, behind the visits of all revisions. -/
def writeRevisions (write : FunctionNode → Bytes) (revisions : List AbiversionNode) : Bytes :=
  revisions.flatMap fun node =>
    (if node.functions.isEmpty then [] else versionComment [] node.version) ++
      node.functions.flatMap write

/-- `Open` and `Query` of an interface. -/
def writeHandleBinding (pfx : Bytes) : Bytes :=
  ascii "StStatus " ++ pfx ++
  ascii "Open(const uint8_t *path __in, uint32_t flags __in, StHandle *handle __out)\n" ++
  ascii "\x7b\n" ++
  ascii "    return StHandle_Open(path, flags, handle);\n" ++
  ascii "\x7d\n\n" ++
  ascii "StStatus " ++ pfx ++
  ascii "Query(StHandle handle __in, uint32_t request_abiver __in, " ++
  ascii "uint32_t *funcid_base __out, uint32_t *result_abiver __out)\n" ++
  ascii "\x7b\n" ++
  ascii "    return StHandle_Query(handle, &interface_uuid, request_abiver, funcid_base, " ++
  ascii "result_abiver);\n" ++
  ascii "\x7d\n\n"

/-- What a client source holds before the macros. -/
def userSourceHead (build : Build) (headerName : Bytes) (name : Bytes) : Bytes :=
  banner build name ++
  ascii "#include \"" ++ headerName ++ ascii "\"\n\n" ++
  ascii "#include <stdint.h>\n\n" ++
  ascii "#include <strata/status.h>\n" ++
  ascii "#include <strata/macros.h>\n" ++
  ascii "#include <strata/uuid.h>\n" ++
  ascii "\n"

/-- What it holds between the macros and the stubs. -/
def userSourceMiddle (emitHandleBinding : Bool) (name pfx : Bytes) : Bytes :=
  ascii "static const struct StUuid interface_uuid = " ++
  ascii "UUID_" ++ toUpper name ++ ascii "_INTERFACE_INIT;\n\n" ++
  if emitHandleBinding then writeHandleBinding pfx else []

/-- `visit(InterfaceNode &)` of `CUserSourceGenerator`. -/
def writeUserSource (build : Build) (headerName : Bytes) (makeWeakSymbols emitHandleBinding : Bool)
    (abi : ArchAbi) (node : InterfaceNode) : Except Exn Bytes :=
  if !node.hasPrefix then .error (.runtimeError "Interface prefix is required")
  else if node.annotations.any fun anno => anno.name = ascii "prefix" then
    .error (.runtimeError "Prefix must be stored as interface metadata, not annotation")
  else
    .ok (userSourceHead build headerName node.name ++
      bufferSection (ascii "/* Constants & Bitmasks */\n")
        (writeRevisions writeFuncidMacro node.abiversions) ++
      userSourceMiddle emitHandleBinding node.name node.prefixStr ++
      bufferSection (ascii "/* Functions & Views */\n")
        (writeRevisions (writeStub abi node.prefixStr makeWeakSymbols) node.abiversions))

/-! ### Dispatchers -/

/-- A member of the blocks that a case reads. -/
def writeBlockMember (type name : Bytes) : Bytes :=
  ascii "            " ++ type ++ ascii " " ++ name ++ ascii ";\n"

/-- The blocks of a case, and the tests of their addresses. -/
def writeBlocks (pfx : Bytes) (s : Partition) : Bytes :=
  (if s.inParams.length > 1 then
    ascii "        const struct \x7b\n" ++
    (s.inParams.flatMap fun p => writeBlockMember (getParameterCType pfx p.node) p.node.name) ++
    ascii "        \x7d *in = " ++ ascii "(const void *)(uintptr_t)args[0];\n"
  else []) ++
  (if s.outParams.length > 1 then
    ascii "        struct \x7b\n" ++
    (s.outParams.flatMap fun p => writeBlockMember (toCType pfx p.node.type) p.node.name) ++
    ascii "        \x7d *out = " ++ ascii "(void *)(uintptr_t)args[1];\n"
  else []) ++
  (if s.inParams.length > 1 || match s.inParams with
      | [p] => !p.node.type.isPtr
      | _ => false then
    ascii "        if ((const void *)(uintptr_t)args[0] == NULL) \x7b\n" ++
    ascii "            return STATUS_INVALID_VALUE;\n" ++
    ascii "        \x7d\n"
  else []) ++
  (if s.outParams.length > 1 then
    ascii "        if ((void *)(uintptr_t)args[1] == NULL) \x7b\n" ++
    ascii "            return STATUS_INVALID_VALUE;\n" ++
    ascii "        \x7d\n"
  else []) ++
  (if s.inParams.isEmpty = false ∨ s.outParams.isEmpty = false then ascii "\n" else [])

/-- `arg_expr` of the parameter at `i`. -/
def writeArgExpression (pfx : Bytes) (s : Partition) (p : Param) : Bytes :=
  let exactType := getParameterCType pfx p.node
  if s.canUseCallReg then
    (if parameterUsesPointerArgument p.node then ascii "(uintptr_t)args[" else ascii "args[") ++
      numeral p.index ++ ascii "]"
  else if p.node.direction = .OUT then
    if s.outParams.length = 1 then ascii "(uintptr_t)args[1]"
    else ascii "&out->" ++ p.node.name
  else if p ∈ s.peeledParams then
    ascii "args[" ++ numeral (2 + s.peeledParams.idxOf p) ++ ascii "]"
  else
    match s.inParams with
    | [q] =>
      if q.node.type.isPtr then ascii "(uintptr_t)args[0]"
      else ascii "*(const " ++ exactType ++ ascii " *)(uintptr_t)args[0]"
    | _ => ascii "in->" ++ p.node.name

/-- The local variable for a parameter. -/
def writeDispatchLocal (pfx : Bytes) (s : Partition) (p : Param) : Bytes :=
  let exactType := getParameterCType pfx p.node
  ascii "        " ++ exactType ++ ascii " " ++ p.node.name ++ ascii " = (" ++ exactType ++
    ascii ")" ++ writeArgExpression pfx s p ++ ascii ";\n"

/-- `write_dispatch_case` -/
def writeDispatchCase (abi : ArchAbi) (pfx : Bytes) (infos : TypeValueInfos) (node : FunctionNode) :
    Bytes :=
  let s := serverPartition abi infos node
  ascii "    case " ++ numeral node.id.toNat ++ ascii ": \x7b\n" ++
  (if node.parameters.isEmpty then ascii "        (void)args;\n" else []) ++
  ascii "\n" ++
  (if s.canUseCallReg then [] else writeBlocks pfx s) ++
  node.params.flatMap (writeDispatchLocal pfx s) ++
  ascii "\n        return typed_vtable->" ++ node.name ++ ascii "(context, handle" ++
  (node.parameters.flatMap fun p => ascii ", " ++ p.name) ++ ascii ");\n" ++
  ascii "    \x7d\n"

/-- `visit(InterfaceNode &)` of `CModuleSourceGenerator`, around the cases. -/
def writeDispatcher (build : Build) (headerName name pfx : Bytes) (argSlotCount : Nat)
    (totalFuncidSpan : UInt32) (cases : Bytes) : Bytes :=
  banner build name ++
  ascii "#include \"" ++ headerName ++ ascii "\"\n\n" ++
  ascii "StStatus " ++ pfx ++ ascii "ServerDispatchArgs(\n" ++
  ascii "    const void *vtable __in,\n" ++
  ascii "    void *context __inout,\n" ++
  ascii "    StHandle handle __in,\n" ++
  ascii "    uint32_t funcid __in,\n" ++
  ascii "    const long args[" ++ numeral argSlotCount ++ ascii "]\n" ++
  ascii ")\n" ++
  ascii "\x7b\n" ++
  ascii "    const " ++ pfx ++ ascii "ServerVTable *typed_vtable;\n" ++
  ascii "    const uintptr_t *vtable_slots;\n" ++
  ascii "\n" ++
  ascii "    if (vtable == NULL || args == NULL) \x7b\n" ++
  ascii "        return STATUS_INVALID_VALUE;\n" ++
  ascii "    \x7d\n" ++
  ascii "    if (funcid >= " ++ numeral totalFuncidSpan.toNat ++ ascii ") \x7b\n" ++
  ascii "        return STATUS_NOT_IMPLEMENTED;\n" ++
  ascii "    \x7d\n" ++
  ascii "    vtable_slots = (const uintptr_t *)vtable;\n" ++
  ascii "    if (vtable_slots[funcid] == 0) \x7b\n" ++
  ascii "        return STATUS_NOT_IMPLEMENTED;\n" ++
  ascii "    \x7d\n" ++
  ascii "    typed_vtable = (const " ++ pfx ++ ascii "ServerVTable *)vtable;\n\n" ++
  ascii "    switch (funcid) \x7b\n" ++
  cases ++
  ascii "    default:\n" ++
  ascii "        return STATUS_NOT_IMPLEMENTED;\n" ++
  ascii "    \x7d\n" ++
  ascii "\x7d\n\n"

/-- `visit(InterfaceNode &)` of `CModuleSourceGenerator`. -/
def writeModuleSource (build : Build) (headerName : Bytes) (abi : ArchAbi) (node : InterfaceNode) :
    Except Exn Bytes :=
  if abi.maxRegArgs ≤ 2 then .error (.runtimeError "Invalid architecture ABI")
  else if !node.hasPrefix then .error (.runtimeError "Interface prefix is required")
  else if node.annotations.any fun anno => anno.name = ascii "prefix" then
    .error (.runtimeError "Prefix must be stored as interface metadata, not annotation")
  else
    do
      let functionsById ←
        (node.abiversions.flatMap AbiversionNode.functions).foldlM visitFunction []
      return writeDispatcher build headerName node.name node.prefixStr abi.argSlotCount
        (node.abiversions.foldl visitSpan 0)
        ((functionsById.filterMap id).flatMap
          (writeDispatchCase abi node.prefixStr (typeValueInfos node)))

end Sidlc
