import Sidlc.Generate.Equiv.HeaderText
import Sidlc.Generate.Equiv.WireLayout
import Sidlc.Generate.SourceText

/-!
# The text of sources spells stubs and dispatch cases

The stub of a function and its dispatch case are written out in C. The texts of the generators are
these, statement by statement (`spelledBy_writeStub`, `render_dispatchCase`), and the sources of an
interface spell the structured ones (`writeUserSource_spells`, `writeModuleSource_eq`).
-/

namespace Sidlc

open Decimal Grammar Spelling

/-! ### Lists with separators -/

theorem separatedBy_concat {α χ : Type} (separator : List χ) (print : α → List χ) (xs : List α)
    (x : α) : separatedBy separator print (xs ++ [x])
      = (xs.flatMap fun y => print y ++ separator) ++ print x := by
  induction xs with
  | nil => rfl
  | cons y ys ih =>
    have hne : ys ++ [x] = [] → False := fun h => by simp at h
    rw [List.cons_append, separatedBy_cons hne, ih, List.flatMap_cons]
    simp only [List.append_assoc]

/-- A loop over numbers that puts the separator behind every one below the last. -/
theorem flatMap_range_separator {χ : Type} (separator : List χ) (print : Nat → List χ) (n : Nat) :
    ((List.range n).flatMap fun i => print i ++ if i < n - 1 then separator else [])
      = separatedBy separator print (List.range n) := by
  cases n with
  | zero => rfl
  | succ n =>
    rw [List.range_succ, separatedBy_concat, List.flatMap_append, List.flatMap_singleton,
      Nat.add_sub_cancel, if_neg (Nat.lt_irrefl n), List.append_nil]
    refine congrArg (· ++ print n) (List.flatMap_congr fun i hi => ?_)
    rw [if_pos (List.mem_range.1 hi)]

/-! ### Stubs in C -/

/-- `T _p __in` -/
def SpellsStubParameter (f : BlockField) (text : Bytes) : Prop :=
  ∃ d, SpellsDeclarator f.type f.param.stubName d ∧
    text = d ++ directionMarker f.param.node.direction

/-- `T p;` in one of the blocks. -/
def SpellsBlockMember (f : BlockField) (text : Bytes) : Prop :=
  ∃ d, SpellsDeclarator f.type f.param.node.name d ∧ text = ascii "        " ++ d ++ ascii ";\n"

/-- `struct { ... } in = { ... };` -/
def SpellsInBlock (text : Bytes) : Option (List BlockField) → Prop
  | none => text = []
  | some fields => ∃ members, Spells SpellsBlockMember (fun _ => False) fields members ∧
    text = ascii "    struct \x7b\n" ++ members ++ ascii "    \x7d in = \x7b\n" ++
      (fields.flatMap fun f =>
        ascii "        ." ++ f.param.node.name ++ ascii " = _" ++ f.param.node.name ++
          ascii ",\n") ++
      ascii "    \x7d;\n"

def OutBuffer.SpelledBy (text : Bytes) : OutBuffer → Prop
  | absent => text = []
  | single type => text = ascii "    " ++ type ++ ascii " out;\n"
  | struct fields => ∃ members, Spells SpellsBlockMember (fun _ => False) fields members ∧
    text = ascii "    struct \x7b\n" ++ members ++ ascii "    \x7d out;\n"

def InArgument.render : InArgument → Bytes
  | null => ascii "NULL"
  | pointer p => ascii "(const void *)_" ++ p.node.name
  | addressOf p => ascii "(const void *)&_" ++ p.node.name
  | block => ascii "(const void *)&in"

def OutArgument.render : OutArgument → Bytes
  | null => ascii "NULL"
  | pointer p => ascii "(void *)_" ++ p.node.name
  | buffer => ascii "(void *)&out"

/-- A word behind the blocks. -/
def renderPeel : Option Param → Bytes
  | some p => ascii "(unsigned long)_" ++ p.node.name
  | none => ascii "0"

def StubCall.render (funcid : Bytes) : StubCall → Bytes
  | callK args =>
    ascii "    status = StHandle_Call" ++ numeral args.length ++
      ascii "(handle, funcid_base + " ++ funcid ++
      (args.flatMap fun p => ascii ", (unsigned long)_" ++ p.node.name) ++ ascii ");\n"
  | callN inArg outArg peel =>
    ascii "    status = StHandle_CallN(handle, funcid_base + " ++ funcid ++ ascii ", " ++
      inArg.render ++ ascii ", " ++ outArg.render ++ ascii ", " ++
      separatedBy (ascii ", ") renderPeel peel ++ ascii ");\n"

def CopyOut.render : CopyOut → Bytes
  | whole p =>
    ascii "    if (_" ++ p.node.name ++ ascii " != NULL) " ++
      ascii "\x7b *_" ++ p.node.name ++ ascii " = out; \x7d\n"
  | field p =>
    ascii "    if (_" ++ p.node.name ++ ascii " != NULL) " ++
      ascii "\x7b *_" ++ p.node.name ++ ascii " = out." ++ p.node.name ++ ascii "; \x7d\n"

/-- The stub in C, for the function `name`. -/
def ClientStub.SpelledBy (makeWeakSymbols : Bool) (name text : Bytes) (stub : ClientStub) : Prop :=
  ∃ parameters inBlock outBuffer,
    SpellsSeparated SpellsStubParameter (ascii ", ") stub.parameters parameters ∧
    SpellsInBlock inBlock stub.inBlock ∧
    stub.outBuffer.SpelledBy outBuffer ∧
    text = (if makeWeakSymbols then ascii "__attribute__((weak))\n" else []) ++
      ascii "StStatus " ++ name ++ ascii "(StHandle handle __in" ++
      (if stub.parameters.isEmpty then [] else ascii ", ") ++ parameters ++ ascii ")\n" ++
      ascii "\x7b\n" ++
      ascii "    StStatus status;\n" ++
      ascii "    uint32_t funcid_base;\n" ++
      inBlock ++ outBuffer ++
      ascii "    status = StHandle_Query(handle, &interface_uuid, 0, &funcid_base, NULL);\n" ++
      ascii "    if (!CHECK_SUCCESS(status)) \x7b return status; \x7d\n" ++
      stub.call.render stub.funcid ++
      ascii "    if (!CHECK_SUCCESS(status)) \x7b return status; \x7d\n" ++
      stub.copyOut.flatMap CopyOut.render ++
      ascii "    return STATUS_SUCCESS;\n" ++
      ascii "\x7d\n\n"

section Stub

variable {abi : ArchAbi} {pfx : Bytes} {node : FunctionNode}

/-- The pointer that is added for output stands behind the blank or another star. -/
theorem spellsDeclarator_stubType (node : ParameterNode) (name : Bytes) :
    SpellsDeclarator (stubType pfx node) name (toCType pfx node.type ++
      (if node.type.isPtr then if node.direction ≠ .IN then ascii "*" else []
        else if node.direction ≠ .IN then ascii " *" else ascii " ") ++ name) := by
  have hlast (xs : Bytes) {star : Bytes} (hne : star ≠ []) (h : star.getLast? = some (chr '*')) :
      (xs ++ star).getLast? = some (chr '*') := by
    rw [List.getLast?_append_of_ne_nil xs hne, h]
  unfold stubType
  by_cases hptr : node.type.isPtr = true
  · by_cases hdir : node.direction ≠ .IN
    · refine .inr ⟨?_, ?_⟩
      · simpa [hptr, hdir] using hlast _ (by decide) (by decide)
      · simp [hptr, hdir]
    · refine .inr ⟨?_, ?_⟩
      · simpa [hptr, hdir] using getLast?_toCType_of_isPtr hptr
      · simp [hptr, hdir]
  · by_cases hdir : node.direction ≠ .IN
    · refine .inr ⟨?_, ?_⟩
      · simpa [hptr, hdir] using hlast _ (by decide) (by decide)
      · simp [hptr, hdir]
    · refine .inl ?_
      simp [hptr, hdir]

theorem spellsDeclarator_toCType (node : TypeNode) (name : Bytes) :
    SpellsDeclarator (toCType pfx node) name
      (toCType pfx node ++ (if node.isPtr then [] else ascii " ") ++ name) := by
  by_cases hptr : node.isPtr = true
  · refine .inr ⟨getLast?_toCType_of_isPtr hptr, ?_⟩
    rw [if_pos hptr, List.append_nil]
  · refine .inl ?_
    rw [if_neg hptr]

theorem spellsStubParameter_writeStubParameter (p : Param) :
    SpellsStubParameter ⟨stubType pfx p.node, p⟩ (writeStubParameter pfx p.node) := by
  refine ⟨_, spellsDeclarator_stubType p.node _, ?_⟩
  unfold writeStubParameter Param.stubName
  by_cases hptr : p.node.type.isPtr = true <;> by_cases hdir : p.node.direction = .IN <;>
    simp [hptr, hdir, ascii]

/-- The list of the parameters. -/
theorem spellsSeparated_stubParameters (node : FunctionNode) :
    SpellsSeparated SpellsStubParameter (ascii ", ")
      (node.params.map fun p => ⟨stubType pfx p.node, p⟩)
      (separatedBy (ascii ", ") (writeStubParameter pfx) node.parameters) := by
  rw [← node.map_node_params, separatedBy_map]
  exact .map fun p _ => spellsStubParameter_writeStubParameter p

theorem spellsBlockMember_writeInMember {p : Param} (hp : p.node.direction ≠ .OUT) :
    SpellsBlockMember ⟨stubType pfx p.node, p⟩ (writeInMember pfx p) := by
  refine ⟨_, spellsDeclarator_stubType p.node _, ?_⟩
  unfold writeInMember
  cases hdir : p.node.direction with
  | IN => by_cases hptr : p.node.type.isPtr = true <;> simp [hptr]
  | OUT => exact absurd hdir hp
  | INOUT => by_cases hptr : p.node.type.isPtr = true <;> simp [hptr]

theorem spellsInBlock_writeInBlock (hreg : (clientPartition abi node).canUseCallReg = false) :
    SpellsInBlock (writeInBlock pfx (clientPartition abi node))
      (inBlockOf pfx (clientPartition abi node)) := by
  have hspec := clientPartition_spec abi node
  set s := clientPartition abi node
  unfold writeInBlock inBlockOf
  by_cases hlen : s.inParams.length > 1
  · have hne : s.inParams.isEmpty = false := by
      rw [List.isEmpty_eq_false_iff, ← List.length_pos_iff]
      omega
    rw [if_pos ⟨hreg, hne⟩, if_pos hlen, if_pos hlen]
    refine ⟨_, .map fun p hp =>
      spellsBlockMember_writeInMember (hspec.direction_of_mem_in hp).1, ?_⟩
    rw [List.flatMap_map]
  · rw [if_neg hlen, if_neg hlen, ite_self]
    exact Eq.refl _

theorem spelledBy_writeOutBuffer (hreg : (clientPartition abi node).canUseCallReg = false) :
    (outBufferOf pfx (clientPartition abi node)).SpelledBy
      (writeOutBuffer pfx (clientPartition abi node)) := by
  set s := clientPartition abi node
  unfold writeOutBuffer outBufferOf
  have hmember (p : Param) : SpellsBlockMember ⟨toCType pfx p.node.type, p⟩
      (ascii "        " ++ toCType pfx p.node.type ++
        (if p.node.type.isPtr then [] else ascii " ") ++ p.node.name ++ ascii ";\n") :=
    ⟨_, spellsDeclarator_toCType p.node.type _, by simp only [List.append_assoc]⟩
  match hout : s.outParams with
  | [] =>
    rw [if_neg fun h => Bool.false_ne_true (h.2.symm.trans List.isEmpty_nil)]
    exact Eq.refl _
  | [p] =>
    rw [if_pos ⟨hreg, List.isEmpty_cons⟩]
    by_cases hptr : p.node.type.isPtr = true
    · simp only [hptr, if_true, OutBuffer.SpelledBy]
    · simp only [hptr, Bool.false_eq_true, if_false, OutBuffer.SpelledBy]
  | p :: q :: ps =>
    rw [if_pos ⟨hreg, List.isEmpty_cons⟩]
    exact ⟨_, .map fun p _ => hmember p, Eq.refl _⟩

/-- The call through registers. -/
theorem writeCall_of_callReg (h : (clientPartition abi node).canUseCallReg = true) :
    writeCall abi node (clientPartition abi node)
      = (StubCall.callK node.params).render (ascii "FUNCID_" ++ node.name) := by
  have hargs : (node.params.flatMap fun p => ascii ", (unsigned long)_" ++ p.node.name)
      = node.parameters.flatMap fun p => ascii ", (unsigned long)_" ++ p.name := by
    rw [← node.map_node_params, List.flatMap_map]
  have hfuncid : ascii "(handle, funcid_base + FUNCID_"
      = ascii "(handle, funcid_base + " ++ ascii "FUNCID_" := by decide
  rw [writeCall, if_pos h, StubCall.render, hargs, node.length_params, hfuncid]
  simp only [List.append_assoc]

/-- The call through blocks. -/
theorem writeCall_of_block (h : (clientPartition abi node).canUseCallReg = false) :
    writeCall abi node (clientPartition abi node)
      = (StubCall.callN (inArgumentOf (clientPartition abi node))
          (outArgumentOf (clientPartition abi node))
          (peelOf abi (clientPartition abi node))).render (ascii "FUNCID_" ++ node.name) := by
  set s := clientPartition abi node
  have hnull : ascii "NULL, " = ascii "NULL" ++ ascii ", " := by decide
  have hblock : ascii "(const void *)&in, " = ascii "(const void *)&in" ++ ascii ", " := by
    decide
  have hbuffer : ascii "(void *)&out, " = ascii "(void *)&out" ++ ascii ", " := by decide
  have hfuncid : ascii "    status = StHandle_CallN(handle, funcid_base + FUNCID_"
      = ascii "    status = StHandle_CallN(handle, funcid_base + " ++ ascii "FUNCID_" := by
    decide
  have hin : writeInArgument s = (inArgumentOf s).render ++ ascii ", " := by
    unfold writeInArgument inArgumentOf
    match s.inParams with
    | [] => exact hnull
    | [p] => by_cases hptr : p.node.type.isPtr = true <;> simp only [hptr] <;> exact Eq.refl _
    | p :: q :: ps => exact hblock
  have hout : writeOutArgument s = (outArgumentOf s).render ++ ascii ", " := by
    unfold writeOutArgument outArgumentOf
    match s.outParams with
    | [] => exact hnull
    | [p] =>
      by_cases hptr : p.node.type.isPtr = true
      · simp only [hptr, if_true, OutArgument.render]
      · simp only [hptr, Bool.false_eq_true, if_false, OutArgument.render]
        exact hbuffer
    | p :: q :: ps => exact hbuffer
  have hpeel : ((List.range abi.peelSlotCount).flatMap fun i =>
      writePeeled s i ++ if i < abi.peelSlotCount - 1 then ascii ", " else [])
      = separatedBy (ascii ", ") renderPeel (peelOf abi s) := by
    rw [flatMap_range_separator, peelOf, separatedBy_map]
    refine congrArg (fun print => separatedBy _ print _) (funext fun i => ?_)
    rw [writePeeled]
    cases s.peeledParams[i]? <;> exact Eq.refl _
  have hfalse : ¬ s.canUseCallReg = true := Bool.eq_false_iff.1 h
  rw [writeCall, if_neg hfalse, hin, hout, hpeel, StubCall.render, hfuncid]
  simp only [List.append_assoc]

theorem writeCopyOut_of_block (h : (clientPartition abi node).canUseCallReg = false) :
    writeCopyOut (clientPartition abi node)
      = (copyOutOf (clientPartition abi node)).flatMap CopyOut.render := by
  set s := clientPartition abi node
  unfold writeCopyOut copyOutOf
  match s.outParams with
  | [] =>
    rw [if_neg fun h => Bool.false_ne_true (h.2.symm.trans List.isEmpty_nil)]
    exact Eq.refl _
  | [p] =>
    rw [if_pos ⟨h, List.isEmpty_cons⟩]
    by_cases hptr : p.node.type.isPtr = true
    · simp only [hptr, if_true, List.flatMap_nil]
    · simp only [hptr, Bool.false_eq_true, if_false, List.flatMap_singleton, CopyOut.render]
  | p :: q :: ps =>
    rw [if_pos ⟨h, List.isEmpty_cons⟩]
    show _ = ((p :: q :: ps).map CopyOut.field).flatMap CopyOut.render
    rw [List.flatMap_map]
    exact Eq.refl _

/-- **The text of a stub** is the stub in C. -/
theorem spelledBy_writeStub (abi : ArchAbi) (pfx : Bytes) (makeWeakSymbols : Bool)
    (node : FunctionNode) :
    (clientStub abi pfx node).SpelledBy makeWeakSymbols (pfx ++ node.name)
      (writeStub abi pfx makeWeakSymbols node) := by
  have hempty : (node.params.map fun p => BlockField.mk (stubType pfx p.node) p).isEmpty
      = node.parameters.isEmpty := by
    rw [List.isEmpty_map, ← node.map_node_params, List.isEmpty_map]
  have hcomma : ascii "(StHandle handle __in, " = ascii "(StHandle handle __in" ++ ascii ", " := by
    decide
  have hopen : (if node.parameters.isEmpty then ascii "(StHandle handle __in"
      else ascii "(StHandle handle __in, ")
      = ascii "(StHandle handle __in" ++ if node.parameters.isEmpty then [] else ascii ", " := by
    split_ifs
    · exact (List.append_nil _).symm
    · exact hcomma
  by_cases hreg : (clientPartition abi node).canUseCallReg = true
  · rw [clientStub_of_callReg hreg]
    refine ⟨_, [], [], spellsSeparated_stubParameters node, Eq.refl _, Eq.refl _, ?_⟩
    have hblocks : writeInBlock pfx (clientPartition abi node) = [] ∧
        writeOutBuffer pfx (clientPartition abi node) = [] ∧
        writeCopyOut (clientPartition abi node) = [] := by
      simp [writeInBlock, writeOutBuffer, writeCopyOut, hreg]
    unfold writeStub
    simp only [hempty, hopen, hblocks, writeCall_of_callReg hreg, List.flatMap_nil,
      List.append_nil, List.append_assoc]
  · have hfalse := Bool.eq_false_iff.2 hreg
    rw [clientStub_of_block hfalse]
    refine ⟨_, _, _, spellsSeparated_stubParameters node, spellsInBlock_writeInBlock hfalse,
      spelledBy_writeOutBuffer hfalse, ?_⟩
    unfold writeStub
    simp only [hempty, hopen, writeCall_of_block hfalse, writeCopyOut_of_block hfalse,
      List.append_assoc]

end Stub

/-! ### Client sources -/

/-- `#define FUNCID_name value` -/
def FuncidMacro.render (m : FuncidMacro) : Bytes :=
  ascii "#define " ++ m.name ++ ascii " " ++ numeral m.value.toNat ++ ascii "\n"

/-- A buffer spells what the functions of the revisions are written for. -/
theorem spells_writeRevisions {α : Type} {spell : α → Bytes → Prop} {item : FunctionNode → α}
    {write : FunctionNode → Bytes} (h : ∀ f, spell (item f) (write f))
    (revisions : List AbiversionNode) :
    Spells spell IsVersionComment ((revisions.flatMap AbiversionNode.functions).map item)
      (writeRevisions write revisions) := by
  rw [List.map_flatMap]
  refine .flatMap fun node _ => ?_
  have hversion : Spells spell IsVersionComment []
      (if node.functions.isEmpty then [] else versionComment [] node.version) := by
    split_ifs
    · exact .nil
    · exact .ofFiller ⟨[], node.version, rfl⟩
  exact hversion.append (.map fun f _ => h f)

/-- **The text of a client source** spells its macros and its stubs, and fails where the structured
one does. -/
theorem writeUserSource_spells (build : Build) (headerName : Bytes)
    (makeWeakSymbols emitHandleBinding : Bool) (abi : ArchAbi) (node : InterfaceNode) :
    match generateUserSource abi node with
    | .error e =>
      writeUserSource build headerName makeWeakSymbols emitHandleBinding abi node = .error e
    | .ok user => ∃ macros stubs,
      Spells (fun m t => t = m.render) IsVersionComment user.macros macros ∧
      Spells (fun stub t => stub.SpelledBy makeWeakSymbols
        (node.prefixStr ++ stub.funcid.drop 7) t) IsVersionComment user.functions stubs ∧
      writeUserSource build headerName makeWeakSymbols emitHandleBinding abi node
        = .ok (userSourceHead build headerName node.name ++
            bufferSection (ascii "/* Constants & Bitmasks */\n") macros ++
            userSourceMiddle emitHandleBinding node.name node.prefixStr ++
            bufferSection (ascii "/* Functions & Views */\n") stubs) := by
  unfold generateUserSource writeUserSource
  by_cases hpre : (!node.hasPrefix) = true
  · rw [if_pos hpre, if_pos hpre]
  rw [if_neg hpre, if_neg hpre]
  by_cases hanno : (node.annotations.any fun anno => anno.name = ascii "prefix") = true
  · rw [if_pos hanno, if_pos hanno]
  rw [if_neg hanno, if_neg hanno]
  have hsplit : ascii "#define FUNCID_" = ascii "#define " ++ ascii "FUNCID_" := by decide
  have hname (f : FunctionNode) :
      (clientStub abi node.prefixStr f).funcid.drop 7 = f.name := by
    have hfuncid : (clientStub abi node.prefixStr f).funcid = ascii "FUNCID_" ++ f.name := by
      unfold clientStub
      simp only
      split_ifs <;> rfl
    rw [hfuncid]
    exact List.drop_left' rfl
  refine ⟨_, _, spells_writeRevisions (fun f => ?_) _, spells_writeRevisions (fun f => ?_) _, rfl⟩
  · simp only [writeFuncidMacro, FuncidMacro.render, hsplit, List.append_assoc]
  · rw [hname]
    exact spelledBy_writeStub ..

/-! ### Dispatch cases in C -/

/-- The initializer of a local variable. -/
def ArgExpression.render : ArgExpression → Bytes
  | slot i => ascii "args[" ++ numeral i ++ ascii "]"
  | pointerSlot i => ascii "(uintptr_t)args[" ++ numeral i ++ ascii "]"
  | load type => ascii "*(const " ++ type ++ ascii " *)(uintptr_t)args[0]"
  | inField p => ascii "in->" ++ p.node.name
  | outField p => ascii "&out->" ++ p.node.name

/-- `T p = (T)init;` -/
def DispatchLocal.render (l : DispatchLocal) : Bytes :=
  ascii "        " ++ l.type ++ ascii " " ++ l.param.node.name ++ ascii " = (" ++ l.type ++
    ascii ")" ++ l.init.render ++ ascii ";\n"

/-- The declaration of a block that a case reads. -/
def renderBlock (head tail : Bytes) : Option (List BlockField) → Bytes
  | none => []
  | some fields =>
    head ++ (fields.flatMap fun f => writeBlockMember f.type f.param.node.name) ++ tail

/-- The case in C. -/
def DispatchCase.render (c : DispatchCase) : Bytes :=
  ascii "    case " ++ numeral c.label.toNat ++ ascii ": \x7b\n" ++
  (if c.locals.isEmpty then ascii "        (void)args;\n" else []) ++
  ascii "\n" ++
  renderBlock (ascii "        const struct \x7b\n")
    (ascii "        \x7d *in = " ++ ascii "(const void *)(uintptr_t)args[0];\n") c.inBlock ++
  renderBlock (ascii "        struct \x7b\n")
    (ascii "        \x7d *out = " ++ ascii "(void *)(uintptr_t)args[1];\n") c.outBlock ++
  (if c.checksIn then
    ascii "        if ((const void *)(uintptr_t)args[0] == NULL) \x7b\n" ++
    ascii "            return STATUS_INVALID_VALUE;\n" ++
    ascii "        \x7d\n"
  else []) ++
  (if c.checksOut then
    ascii "        if ((void *)(uintptr_t)args[1] == NULL) \x7b\n" ++
    ascii "            return STATUS_INVALID_VALUE;\n" ++
    ascii "        \x7d\n"
  else []) ++
  (if c.canUseCallReg then [] else ascii "\n") ++
  c.locals.flatMap DispatchLocal.render ++
  ascii "\n        return typed_vtable->" ++ c.callee ++ ascii "(context, handle" ++
  (c.locals.flatMap fun l => ascii ", " ++ l.param.node.name) ++ ascii ");\n" ++
  ascii "    \x7d\n"

section DispatchCase

variable {abi : ArchAbi} {pfx : Bytes} {infos : TypeValueInfos} {node : FunctionNode}

theorem renderBlock_ite (head tail : Bytes) {c : Prop} [Decidable c] (type : Param → Bytes)
    (ps : List Param) :
    renderBlock head tail (if c then some (ps.map fun p => ⟨type p, p⟩) else none)
      = if c then head ++ (ps.flatMap fun p => writeBlockMember (type p) p.node.name) ++ tail
        else [] := by
  split_ifs
  · rw [renderBlock, List.flatMap_map]
  · rfl

/-- A call with blocks has a block. -/
theorem nonempty_of_block (h : (serverPartition abi infos node).canUseCallReg = false) :
    (serverPartition abi infos node).inParams.isEmpty = false ∨
      (serverPartition abi infos node).outParams.isEmpty = false := by
  have hspec := serverPartition_spec abi infos node
  set s := serverPartition abi infos node
  by_contra hnone
  simp only [not_or, Bool.not_eq_false, List.isEmpty_iff] at hnone
  -- all parameters are peeled then: they are scalars, and there are slots for them
  have hpeeled : ∀ p ∈ node.params, p ∈ s.peeledParams := by
    intro p hp
    rcases (hspec.mem_iff p).1 hp with hin | hout | hmem
    · rw [hnone.1] at hin
      exact absurd hin List.not_mem_nil
    · rw [hnone.2] at hout
      exact absurd hout List.not_mem_nil
    · exact hmem
  have hscalar : (node.params.all fun p => isScalarInRegisterParam abi infos p.node) = true := by
    refine List.all_eq_true.2 fun p hp => ?_
    have hin := hspec.isInScalar_of_mem_peeled (hpeeled p hp)
    exact (Bool.and_eq_true_iff.1 hin).2
  have hlength : node.parameters.length ≤ abi.argSlotCount := by
    have hsub := node.nodup_params.length_le_of_subset hpeeled
    have hslots := hspec.length_peeledParams_le
    rw [node.length_params] at hsub
    unfold ArchAbi.peelSlotCount at hslots
    split_ifs at hslots <;> omega
  rw [hspec.canUseCallReg, hscalar, decide_eq_true hlength] at h
  exact Bool.noConfusion h

theorem render_argExpression (pfx : Bytes) (s : Partition) (p : Param) :
    (argExpression pfx s p).render = writeArgExpression pfx s p := by
  have hone : ascii "(uintptr_t)args[" ++ numeral 1 ++ ascii "]" = ascii "(uintptr_t)args[1]" := by
    decide
  have hzero : ascii "(uintptr_t)args[" ++ numeral 0 ++ ascii "]" = ascii "(uintptr_t)args[0]" := by
    decide
  unfold argExpression writeArgExpression
  by_cases hreg : s.canUseCallReg = true
  · rw [if_pos hreg, if_pos hreg]
    split_ifs <;> exact Eq.refl _
  rw [if_neg hreg, if_neg hreg]
  by_cases hdir : p.node.direction = .OUT
  · rw [if_pos hdir, if_pos hdir]
    split_ifs
    · exact hone
    · exact Eq.refl _
  rw [if_neg hdir, if_neg hdir]
  by_cases hpeeled : p ∈ s.peeledParams
  · rw [if_pos hpeeled, if_pos hpeeled]
    exact Eq.refl _
  rw [if_neg hpeeled, if_neg hpeeled]
  match s.inParams with
  | [] => exact Eq.refl _
  | [q] =>
    by_cases hptr : q.node.type.isPtr = true
    · simp only [hptr, if_true]
      exact hzero
    · simp only [hptr, Bool.false_eq_true, if_false]
      exact Eq.refl _
  | q :: r :: ps => exact Eq.refl _

/-- **The text of a case** is the case in C. -/
theorem render_dispatchCase (abi : ArchAbi) (pfx : Bytes) (infos : TypeValueInfos)
    (node : FunctionNode) :
    (dispatchCase abi pfx infos node).render = writeDispatchCase abi pfx infos node := by
  have hlocals : (dispatchCase abi pfx infos node).locals.isEmpty = node.parameters.isEmpty := by
    rw [locals_dispatchCase, List.isEmpty_map, ← node.map_node_params, List.isEmpty_map]
  have hdeclarations : (dispatchCase abi pfx infos node).locals.flatMap DispatchLocal.render
      = node.params.flatMap (writeDispatchLocal pfx (serverPartition abi infos node)) := by
    rw [locals_dispatchCase, List.flatMap_map]
    refine List.flatMap_congr fun p _ => ?_
    rw [DispatchLocal.render, render_argExpression, writeDispatchLocal]
  have harguments : ((dispatchCase abi pfx infos node).locals.flatMap fun l =>
      ascii ", " ++ l.param.node.name) = node.parameters.flatMap fun p => ascii ", " ++ p.name := by
    rw [locals_dispatchCase, List.flatMap_map, ← node.map_node_params, List.flatMap_map]
  unfold DispatchCase.render writeDispatchCase
  rw [hlocals, hdeclarations, harguments]
  by_cases hreg : (serverPartition abi infos node).canUseCallReg = true
  · simp only [dispatchCase, hreg, renderBlock, Bool.not_true, Bool.false_and, Bool.false_eq_true,
      if_true, if_false, List.append_nil]
  · have hfalse := Bool.eq_false_iff.2 hreg
    have hblank := nonempty_of_block hfalse
    -- which pointer is tested depends on how many parameters the block has
    rcases hin : (serverPartition abi infos node).inParams with _ | ⟨p, _ | ⟨q, ps⟩⟩ <;>
      rw [hin] at hblank <;>
      simp only [dispatchCase, hfalse, hin, Bool.not_false, Bool.true_and, Bool.false_eq_true,
        if_false, writeBlocks, if_pos hblank, renderBlock_ite, decide_eq_true_eq,
        List.append_assoc]

/-- **The text of a dispatcher** is the dispatcher in C, and fails where the structured one
does. -/
theorem writeModuleSource_eq (build : Build) (headerName : Bytes) (abi : ArchAbi)
    (node : InterfaceNode) :
    writeModuleSource build headerName abi node
      = (generateModuleSource abi node).map fun dispatcher =>
          writeDispatcher build headerName node.name node.prefixStr dispatcher.argSlotCount
            dispatcher.bound (dispatcher.cases.flatMap DispatchCase.render) := by
  unfold writeModuleSource generateModuleSource
  by_cases habi : abi.maxRegArgs ≤ 2
  · rw [if_pos habi, if_pos habi]
    exact Eq.refl _
  rw [if_neg habi, if_neg habi]
  by_cases hpre : (!node.hasPrefix) = true
  · rw [if_pos hpre, if_pos hpre]
    exact Eq.refl _
  rw [if_neg hpre, if_neg hpre]
  by_cases hanno : (node.annotations.any fun anno => anno.name = ascii "prefix") = true
  · rw [if_pos hanno, if_pos hanno]
    exact Eq.refl _
  rw [if_neg hanno, if_neg hanno]
  -- both fill the same table
  cases (node.abiversions.flatMap AbiversionNode.functions).foldlM visitFunction [] with
  | error e => exact Eq.refl _
  | ok functionsById =>
    refine congrArg (fun cases => Except.ok (writeDispatcher _ _ _ _ _ _ cases)) ?_
    rw [List.flatMap_map]
    exact List.flatMap_congr fun f _ => (render_dispatchCase ..).symm

end DispatchCase

/-! ### Files of an artifact -/

/-- The revisions of an artifact have small numbers. -/
theorem version_lt_of_versionsFrom {i : Nat} {nodes : List AbiversionNode}
    (h : VersionsFrom i nodes) (hlt : i + nodes.length ≤ 2 ^ 32) :
    ∀ node ∈ nodes, node.version.toNat + 1 < 2 ^ 64 := by
  induction nodes generalizing i with
  | nil => exact List.forall_mem_nil _
  | cons node nodes ih =>
    rw [List.length_cons] at hlt
    refine List.forall_mem_cons.2 ⟨?_, ih h.2 (by omega)⟩
    rw [h.1, UInt64.toNat_ofNat', Nat.mod_eq_of_lt (by omega)]
    omega

/-- **The generated texts spell the structured ones.** For every file that `sif_read` accepts, each
generator fails with the exception of the structured one, has no result where that one has none, or
writes a text made of what that one
collects: the declarations of the header, the macros and stubs of the client, the cases of the
dispatcher, in order, with nothing but comments for the revisions between them. -/
theorem texts_spell (bs : Bytes) (node : InterfaceNode) (h : sifRead bs = .ok node) (build : Build)
    (abi : ArchAbi) :
    (∀ mode dependencyHeaderName,
      match generateHeader mode abi node with
      | .error e => writeHeader build mode dependencyHeaderName abi node = .error e
      | .ok header => ∃ t : HeaderText, header.SpelledBy node t ∧
        writeHeader build mode dependencyHeaderName abi node
          = .ok (banner build node.name ++ writeGuard mode node.name ++
              writeHeaderBody mode dependencyHeaderName abi node.prefixStr t ++
              writeGuardEnd mode node.name)) ∧
    (∀ headerName makeWeakSymbols emitHandleBinding,
      match generateUserSource abi node with
      | .error e =>
        writeUserSource build headerName makeWeakSymbols emitHandleBinding abi node = .error e
      | .ok user => ∃ macros stubs,
        Spells (fun m t => t = m.render) IsVersionComment user.macros macros ∧
        Spells (fun stub t => stub.SpelledBy makeWeakSymbols
          (node.prefixStr ++ stub.funcid.drop 7) t) IsVersionComment user.functions stubs ∧
        writeUserSource build headerName makeWeakSymbols emitHandleBinding abi node
          = .ok (userSourceHead build headerName node.name ++
              bufferSection (ascii "/* Constants & Bitmasks */\n") macros ++
              userSourceMiddle emitHandleBinding node.name node.prefixStr ++
              bufferSection (ascii "/* Functions & Views */\n") stubs)) ∧
    ∀ headerName, writeModuleSource build headerName abi node
      = (generateModuleSource abi node).map fun dispatcher =>
          writeDispatcher build headerName node.name node.prefixStr dispatcher.argSlotCount
            dispatcher.bound (dispatcher.cases.flatMap DispatchCase.render) := by
  obtain ⟨hdecoded, -⟩ := (sifRead_eq_ok_iff ..).1 h
  have hcount : node.abiversions.length < 2 ^ 32 := hdecoded.countable
  have hversions := version_lt_of_versionsFrom hdecoded.versions (by omega)
  exact ⟨fun mode dependency => writeHeader_spells build mode dependency abi hversions,
    fun headerName weak emit => writeUserSource_spells build headerName weak emit abi node,
    fun headerName => writeModuleSource_eq build headerName abi node⟩

/-- An artifact with one function. -/
theorem texts_spell_sample :
    ∃ bs node, sifRead bs = .ok node ∧ (functionsOf node.abiversions).length = 1 ∧
      ∀ build headerName, writeModuleSource build headerName x86_64 node
        = (generateModuleSource x86_64 node).map fun dispatcher =>
            writeDispatcher build headerName node.name node.prefixStr dispatcher.argSlotCount
              dispatcher.bound (dispatcher.cases.flatMap DispatchCase.render) := by
  have hread := @sifRead_sampleRead (sampleRevision 0 0) rfl (by decide)
  refine ⟨_, _, hread, ?_, fun build => (texts_spell _ _ hread build x86_64).2.2⟩
  rw [functionsOf_sampleRead]
  rfl

end Sidlc
