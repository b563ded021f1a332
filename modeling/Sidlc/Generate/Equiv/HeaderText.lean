import Sidlc.Generate.Equiv.FunctionNumbers
import Sidlc.Generate.HeaderText
import Sidlc.Library.Spelling

/-!
# The text of a header spells its buffers

The structured header and the text are filled by two visitors. Visit by visit the text spells what
the other one collects, with version comments between (`HeaderText.Spelled`), so that what is
written for an interface is the frame of its mode around the declarations of the structured header
(`writeHeader_spells`).
-/

namespace Sidlc

open Decimal Grammar Spelling

/-! ### Pieces -/

/-- A comment between the revisions. -/
def IsVersionComment (text : Bytes) : Prop :=
  ∃ indent version, text = versionComment indent version

/-- `type name`; the blank is only left out behind a star. -/
def SpellsDeclarator (type name text : Bytes) : Prop :=
  text = type ++ ascii " " ++ name ∨ type.getLast? = some (chr '*') ∧ text = type ++ name

/-- Any number can stand for a mask that C++ does not define. -/
def HeaderMacro.SpelledBy (line : Bytes) : HeaderMacro → Prop
  | bitfieldMask name mask offset => ∃ value : UInt64, (∀ m, mask = some m → value = m) ∧
    line = ascii "#define " ++ name ++ ascii " (" ++ numeral value.toNat ++ ascii "ULL << " ++
      numeral offset.toNat ++ ascii ")\n"
  | enumMember name value =>
    line = ascii "#define " ++ name ++ ascii " (" ++ numeral value.toNat ++ ascii ")\n"
  | number name value =>
    line = ascii "#define " ++ name ++ ascii " " ++ numeral value ++ ascii "\n"

/-- A member of a structure, with `[]` behind an array. -/
def SpellsMember (field : Bytes × Bytes × Bool) (text : Bytes) : Prop :=
  ∃ d, SpellsDeclarator field.1 field.2.1 d ∧
    text = ascii "    " ++ d ++ (if field.2.2 then ascii "[];\n" else ascii ";\n")

def TypeDefinition.SpelledBy (text : Bytes) : TypeDefinition → Prop
  | typedef type name => text = ascii "typedef " ++ type ++ ascii " " ++ name ++ ascii ";\n"
  | struct name fields aligned => ∃ members,
    Spells SpellsMember (fun _ => False) fields members ∧
    text = ascii "typedef struct " ++ name ++ ascii " \x7b\n" ++ members ++ ascii "\x7d" ++
      (List.replicate aligned (ascii " __attribute__((aligned(16)))")).flatten ++ ascii " " ++
      name ++ ascii ";\n\n"

def ParameterDeclaration.SpelledBy (text : Bytes) (p : ParameterDeclaration) : Prop :=
  ∃ d, SpellsDeclarator p.type p.name d ∧ text = d ++ directionMarker p.direction

/-- `StStatus name(parameters);` -/
def SpellsPrototype (f : FunctionDeclaration) (text : Bytes) : Prop :=
  ∃ parameters, SpellsSeparated (fun p t => p.SpelledBy t) (ascii ", ") f.parameters parameters ∧
    text = ascii "StStatus " ++ f.name ++ ascii "(" ++ parameters ++ ascii ");\n"

/-- `StStatus (*name)(parameters);` -/
def SpellsField (f : FunctionDeclaration) (text : Bytes) : Prop :=
  ∃ parameters, SpellsSeparated (fun p t => p.SpelledBy t) (ascii ", ") f.parameters parameters ∧
    text = ascii "    StStatus (*" ++ f.name ++ ascii ")(" ++ parameters ++ ascii ");\n"

/-! ### What the visits write -/

section Pieces

variable {build : Build} {pfx : Bytes}

theorem getLast?_toCType_of_isPtr {node : TypeNode} (h : node.isPtr = true) :
    (toCType pfx node).getLast? = some (chr '*') := by
  have hstar (xs : Bytes) : (xs ++ ascii " *").getLast? = some (chr '*') :=
    List.getLast?_append_of_ne_nil xs (by decide)
  have hvoid (xs : Bytes) : (xs ++ ascii "void *").getLast? = some (chr '*') :=
    List.getLast?_append_of_ne_nil xs (by decide)
  cases node with
  | ptr c size inner =>
    rw [toCType]
    split_ifs
    · exact hvoid _
    · rw [← List.append_assoc]
      exact hstar _
  | array c size inner => cases h
  | named c size name => cases h

theorem spelledBy_writeParameterDeclaration (node : ParameterNode) :
    (parameterDeclaration pfx node).SpelledBy (writeParameterDeclaration pfx node) :=
  ⟨_, .inl rfl, rfl⟩

theorem spelledBy_writeMasks (macroInterfaceName macroName : Bytes) (offset : UInt64)
    (fields : List BitfieldFieldNode) :
    Spells (fun m t => m.SpelledBy t) IsVersionComment
      (fieldMasks (macroInterfaceName ++ ascii "_" ++ macroName ++ ascii "_") offset fields)
      (HeaderText.writeMasks build macroInterfaceName macroName offset fields) := by
  induction fields generalizing offset with
  | nil => exact .nil
  | cons field fields ih =>
    refine .cons ⟨build.shiftOne field.bits - 1, fun m hm => ?_, ?_⟩ (ih _)
    · obtain ⟨x, hx, rfl⟩ := Option.map_eq_some_iff.1 hm
      rw [Build.shiftOne, hx]
    · simp only [List.append_assoc]

theorem spelledBy_writeEnumMember (macroInterfaceName macroName : Bytes) (member : EnumMemberNode) :
    (HeaderMacro.enumMember (macroInterfaceName ++ ascii "_" ++ macroName ++ ascii "_" ++
      member.name) member.value).SpelledBy
      (HeaderText.writeEnumMember macroInterfaceName macroName member) := by
  simp only [HeaderMacro.SpelledBy, HeaderText.writeEnumMember, List.append_assoc]

theorem spellsMember_writeStructField (field : StructFieldNode) :
    SpellsMember (toCType pfx field.type, field.name, !field.type.isPtr && field.type.isArray)
      (HeaderText.writeStructField pfx field) := by
  unfold HeaderText.writeStructField
  by_cases hptr : field.type.isPtr = true
  · refine ⟨_, .inr ⟨getLast?_toCType_of_isPtr hptr, rfl⟩, ?_⟩
    simp [hptr]
  · refine ⟨_, .inl rfl, ?_⟩
    by_cases harray : field.type.isArray = true
    · simp [hptr, harray]
    · simp [hptr, harray]

theorem structAttributes_eq (annotations : List AnnotationNode) :
    HeaderText.structAttributes annotations
      = (List.replicate (annotations.countP fun anno =>
          anno.name = ascii "align_size" && !anno.args.isEmpty)
          (ascii " __attribute__((aligned(16)))")).flatten := by
  induction annotations with
  | nil => rfl
  | cons anno annotations ih =>
    rw [HeaderText.structAttributes, List.flatMap_cons, List.countP_cons]
    show _ ++ HeaderText.structAttributes annotations = _
    rw [ih]
    split_ifs with h
    · rw [List.replicate_succ, List.flatten_cons]
    · rfl

/-- `StHandle handle __in`, and the parameters behind it. -/
theorem spellsSeparated_handle (parameters : List ParameterNode) :
    SpellsSeparated (fun (p : ParameterDeclaration) t => p.SpelledBy t) (ascii ", ")
      (handleParameter :: parameters.map (parameterDeclaration pfx))
      (ascii "StHandle handle __in" ++ if parameters.isEmpty then [] else
        ascii ", " ++ separatedBy (ascii ", ") (writeParameterDeclaration pfx) parameters) := by
  have hmap : SpellsSeparated (fun (p : ParameterDeclaration) t => p.SpelledBy t) (ascii ", ")
      (parameters.map (parameterDeclaration pfx))
      (separatedBy (ascii ", ") (writeParameterDeclaration pfx) parameters) :=
    .map fun p _ => spelledBy_writeParameterDeclaration p
  have hhandle : handleParameter.SpelledBy (ascii "StHandle handle __in") :=
    ⟨_, .inl rfl, by decide⟩
  have hcons := hmap.cons hhandle
  rwa [List.isEmpty_map] at hcons

end Pieces

/-! ### The simulation -/

/-- The text spells the buffers; `lead` is what the macros stand behind. -/
structure HeaderText.Spelled (lead : Bytes) (t : HeaderText) (b : HeaderBuffers) : Prop where
  bufMacros : ∃ rest, t.bufMacros = lead ++ rest ∧
    Spells (fun m t => m.SpelledBy t) IsVersionComment b.macros rest
  bufTypes : Spells (fun d t => d.SpelledBy t) IsVersionComment b.types t.bufTypes
  bufFunctions : Spells SpellsPrototype IsVersionComment b.functions t.bufFunctions
  bufModuleVtableFields :
    Spells SpellsField IsVersionComment b.moduleVtableFields t.bufModuleVtableFields
  totalFuncidSpan : t.totalFuncidSpan = b.totalFuncidSpan
  abiRevisionCount : t.abiRevisionCount.toNat = b.abiRevisionCount

namespace HeaderText.Spelled

variable {build : Build} {pfx macroInterfaceName lead : Bytes} {t : HeaderText} {b : HeaderBuffers}

/-- What follows the macros. -/
theorem macros_append {macros : List HeaderMacro} {text : Bytes} (h : t.Spelled lead b)
    (htext : Spells (fun m t => m.SpelledBy t) IsVersionComment macros text) :
    ∃ rest, t.bufMacros ++ text = lead ++ rest ∧
      Spells (fun m t => m.SpelledBy t) IsVersionComment (b.macros ++ macros) rest := by
  obtain ⟨rest, hrest, hspells⟩ := h.bufMacros
  exact ⟨rest ++ text, by rw [hrest, List.append_assoc], hspells.append htext⟩

theorem writeVersion (h : t.Spelled lead b) (node : AbiversionNode) :
    (t.writeVersion node).Spelled lead b := by
  have hcomment (indent : Bytes) : IsVersionComment (versionComment indent node.version) :=
    ⟨indent, node.version, rfl⟩
  have hnil {α : Type} {spell : α → Bytes → Prop} {xs : List α} {text more : Bytes}
      (hs : Spells spell IsVersionComment xs text)
      (hmore : Spells spell IsVersionComment [] more) :
      Spells spell IsVersionComment xs (text ++ more) := by
    have happend := hs.append hmore
    rwa [List.append_nil] at happend
  obtain ⟨rest, hrest, hspells⟩ := h.macros_append (.optional (c := (!node.bitfields.isEmpty ||
    !node.enums.isEmpty || !node.functions.isEmpty) = true) (hcomment []))
  rw [List.append_nil] at hspells
  exact
    { bufMacros := ⟨rest, hrest, hspells⟩
      bufTypes := hnil h.bufTypes (.optional (hcomment []))
      bufFunctions := hnil h.bufFunctions (.optional (hcomment []))
      bufModuleVtableFields := hnil h.bufModuleVtableFields (.optional (hcomment _))
      totalFuncidSpan := h.totalFuncidSpan
      abiRevisionCount := h.abiRevisionCount }

/-- A typedef, as for bitfields and enums. -/
theorem spells_typedef (type name : Bytes) :
    Spells (fun (d : TypeDefinition) t => d.SpelledBy t) IsVersionComment
      [.typedef type (pfx ++ name)]
      (ascii "typedef " ++ type ++ ascii " " ++ pfx ++ name ++ ascii ";\n") := by
  refine .single ?_
  simp only [TypeDefinition.SpelledBy, List.append_assoc]

theorem visitBitfield (h : t.Spelled lead b) (node : BitfieldNode) :
    (t.visitBitfield build pfx macroInterfaceName node).Spelled lead
      (b.visitBitfield pfx macroInterfaceName node) :=
  { h with
    bufMacros := h.macros_append (spelledBy_writeMasks ..)
    bufTypes := h.bufTypes.append (spells_typedef ..) }

theorem visitEnum (h : t.Spelled lead b) (node : EnumNode) :
    (t.visitEnum pfx macroInterfaceName node).Spelled lead
      (b.visitEnum pfx macroInterfaceName node) :=
  { h with
    bufMacros := h.macros_append (.map fun member _ => spelledBy_writeEnumMember _ _ member)
    bufTypes := h.bufTypes.append (spells_typedef ..) }

theorem visitStruct (h : t.Spelled lead b) (node : StructNode) :
    (t.visitStruct pfx node).Spelled lead (b.visitStruct pfx node) := by
  refine { h with bufTypes := h.bufTypes.append (.single ?_) }
  refine ⟨_, .map fun field _ => spellsMember_writeStructField field, ?_⟩
  rw [structAttributes_eq]
  simp only [List.append_assoc]

theorem visitFunction (h : t.Spelled lead b) (node : FunctionNode) :
    (t.visitFunction pfx node).Spelled lead (b.visitFunction pfx node) := by
  have hhandle := @spellsSeparated_handle pfx node.parameters
  have hcontext : contextParameter.SpelledBy (ascii "void *context __inout") :=
    ⟨_, .inr ⟨by decide, rfl⟩, by decide⟩
  refine
    { h with
      bufMacros := h.macros_append (.single ?_)
      bufFunctions := h.bufFunctions.append (.single ⟨_, hhandle, ?_⟩)
      bufModuleVtableFields :=
        h.bufModuleVtableFields.append (.single ⟨_, hhandle.cons hcontext, ?_⟩) }
  · simp only [HeaderMacro.SpelledBy, List.append_assoc]
  · cases node.parameters with
    | nil =>
      simp only [List.isEmpty_nil, if_true, separatedBy, List.append_nil, List.append_assoc]
      rfl
    | cons p ps =>
      simp only [List.isEmpty_cons, Bool.false_eq_true, if_false, List.append_assoc]
      rfl
  · cases node.parameters with
    | nil =>
      simp only [List.isEmpty_nil, List.isEmpty_cons, Bool.false_eq_true, if_true, if_false,
        separatedBy, List.append_nil, List.append_assoc]
      rfl
    | cons p ps =>
      simp only [List.isEmpty_cons, Bool.false_eq_true, if_false, List.append_assoc]
      rfl

/-- One visitor goes through declarations as the other one does. -/
theorem foldl {α : Type} {visit : HeaderText → α → HeaderText}
    {visit' : HeaderBuffers → α → HeaderBuffers}
    (hvisit : ∀ {t : HeaderText} {b : HeaderBuffers}, t.Spelled lead b → ∀ x,
      (visit t x).Spelled lead (visit' b x)) (h : t.Spelled lead b) (xs : List α) :
    (xs.foldl visit t).Spelled lead (xs.foldl visit' b) := by
  induction xs generalizing t b with
  | nil => exact h
  | cons x xs ih => exact ih (hvisit h x)

theorem visitAbiversion (h : t.Spelled lead b) {node : AbiversionNode}
    (hversion : node.version.toNat + 1 < 2 ^ 64) :
    (t.visitAbiversion build pfx macroInterfaceName node).Spelled lead
      (b.visitAbiversion pfx macroInterfaceName node) := by
  have hbitfields := foldl (@visitBitfield build pfx macroInterfaceName lead) (h.writeVersion node)
    node.bitfields
  have henums := foldl (@visitEnum pfx macroInterfaceName lead) hbitfields node.enums
  have hstructs := foldl (@visitStruct pfx lead) henums node.structs
  have hfunctions := foldl (@visitFunction pfx lead) hstructs node.functions
  refine { hfunctions with totalFuncidSpan := ?_, abiRevisionCount := ?_ }
  · unfold HeaderText.visitAbiversion HeaderBuffers.visitAbiversion
    cases node.functions.getLast? with
    | some f => rfl
    | none => exact hfunctions.totalFuncidSpan
  · have hone : (node.version + 1).toNat = node.version.toNat + 1 := by
      rw [UInt64.toNat_add]
      exact Nat.mod_eq_of_lt hversion
    have hmax (x y : UInt64) : (max x y).toNat = max x.toNat y.toNat := by
      show (if x ≤ y then y else x).toNat = _
      rw [Nat.max_def]
      simp only [← UInt64.le_iff_toNat_le]
      split_ifs <;> rfl
    refine (hmax _ _).trans ?_
    rw [hone, hfunctions.abiRevisionCount]
    rfl

theorem foldl_visitAbiversion (h : t.Spelled lead b) {nodes : List AbiversionNode}
    (hversions : ∀ node ∈ nodes, node.version.toNat + 1 < 2 ^ 64) :
    (nodes.foldl (HeaderText.visitAbiversion build pfx macroInterfaceName) t).Spelled lead
      (nodes.foldl (HeaderBuffers.visitAbiversion pfx macroInterfaceName) b) := by
  induction nodes generalizing t b with
  | nil => exact h
  | cons node nodes ih =>
    rw [List.forall_mem_cons] at hversions
    exact ih (h.visitAbiversion hversions.1) hversions.2

theorem finish (h : t.Spelled lead b) : (t.finish pfx).Spelled lead (b.finish pfx) := by
  have hspan : Spells (fun (m : HeaderMacro) t => m.SpelledBy t) IsVersionComment
      [.number (toUpper pfx ++ ascii "FUNCID_SPAN") b.totalFuncidSpan.toNat]
      (ascii "#define " ++ toUpper pfx ++ ascii "FUNCID_SPAN " ++
        numeral t.totalFuncidSpan.toNat ++ ascii "\n") := by
    refine .single ?_
    rw [h.totalFuncidSpan]
    simp only [HeaderMacro.SpelledBy, List.append_assoc]
    rfl
  have hcount : Spells (fun (m : HeaderMacro) t => m.SpelledBy t) IsVersionComment
      [.number (toUpper pfx ++ ascii "ABI_REVISION_COUNT") b.abiRevisionCount]
      (ascii "#define " ++ toUpper pfx ++ ascii "ABI_REVISION_COUNT " ++
        numeral t.abiRevisionCount.toNat ++ ascii "\n") := by
    refine .single ?_
    rw [h.abiRevisionCount]
    simp only [HeaderMacro.SpelledBy, List.append_assoc]
    rfl
  obtain ⟨rest, hrest, hspells⟩ := h.macros_append (hspan.append hcount)
  refine { h with bufMacros := ⟨rest, ?_, hspells⟩ }
  rw [← hrest]
  exact List.append_assoc ..

end HeaderText.Spelled

/-- The text of an interface spells its buffers. -/
theorem HeaderText.spelled_ofInterface (build : Build) {node : InterfaceNode}
    (hversions : ∀ r ∈ node.abiversions, r.version.toNat + 1 < 2 ^ 64) :
    (HeaderText.ofInterface build node).Spelled
      (HeaderText.uuidMacros (toUpper node.name)
        (uuidNameGenerator node.uuidNamespace node.uuidName)) (headerBuffers node) := by
  refine .finish (.foldl_visitAbiversion ?_ hversions)
  exact ⟨⟨[], (List.append_nil _).symm, .nil⟩, .nil, .nil, .nil, rfl, rfl⟩

/-! ### Headers -/

/-- The buffers of the text spell what the header holds, behind the macros of the interface. -/
def Header.SpelledBy (node : InterfaceNode) (t : HeaderText) : Header → Prop
  | types macros definitions =>
    (∃ rest, t.bufMacros = HeaderText.uuidMacros (toUpper node.name)
        (uuidNameGenerator node.uuidNamespace node.uuidName) ++ rest ∧
      Spells (fun m t => m.SpelledBy t) IsVersionComment macros rest) ∧
    Spells (fun d t => d.SpelledBy t) IsVersionComment definitions t.bufTypes
  | client functions => Spells SpellsPrototype IsVersionComment functions t.bufFunctions
  | server vtableFields _ =>
    Spells SpellsField IsVersionComment vtableFields t.bufModuleVtableFields
  | serverClient functions => Spells SpellsPrototype IsVersionComment functions t.bufFunctions

/-- **The text of a header** spells the declarations of the structured header, and fails where that
one does. -/
theorem writeHeader_spells (build : Build) (mode : HeaderMode) (dependencyHeaderName : Bytes)
    (abi : ArchAbi) {node : InterfaceNode}
    (hversions : ∀ r ∈ node.abiversions, r.version.toNat + 1 < 2 ^ 64) :
    match generateHeader mode abi node with
    | .error e => writeHeader build mode dependencyHeaderName abi node = .error e
    | .ok header => ∃ t : HeaderText, header.SpelledBy node t ∧
      writeHeader build mode dependencyHeaderName abi node
        = .ok (banner build node.name ++ writeGuard mode node.name ++
            writeHeaderBody mode dependencyHeaderName abi node.prefixStr t ++
            writeGuardEnd mode node.name) := by
  have hspelled := HeaderText.spelled_ofInterface build hversions
  unfold generateHeader writeHeader
  by_cases hmode : mode = .SERVER ∧ abi.maxRegArgs ≤ 2
  · rw [if_pos hmode, if_pos hmode]
  rw [if_neg hmode, if_neg hmode]
  by_cases huuid : (!node.hasUuid) = true
  · rw [if_pos huuid, if_pos huuid]
  rw [if_neg huuid, if_neg huuid]
  by_cases hpre : (!node.hasPrefix) = true
  · rw [if_pos hpre, if_pos hpre]
  rw [if_neg hpre, if_neg hpre]
  cases node.annotations.find? fun anno =>
      anno.name = ascii "prefix" || anno.name = ascii "uuid" with
  | some anno =>
    by_cases hname : anno.name = ascii "prefix"
    · simp only [if_pos hname]
    · simp only [if_neg hname]
  | none =>
    refine ⟨_, ?_, rfl⟩
    cases mode with
    | TYPE => exact ⟨hspelled.bufMacros, hspelled.bufTypes⟩
    | CLIENT => exact hspelled.bufFunctions
    | SERVER => exact hspelled.bufModuleVtableFields
    | SERVER_CLIENT => exact hspelled.bufFunctions

end Sidlc
