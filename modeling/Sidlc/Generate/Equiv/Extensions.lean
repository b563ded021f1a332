import Sidlc.Equiv.Chains
import Sidlc.Generate.Equiv.Server

/-!
# What extensions keep

The generators visit the revisions of an interface in order and only append to what they have. When
an artifact is extended, everything that was generated from it therefore stays in its place, in
front of what is new; only the totals behind the macros of a header change. A dispatcher is
different: it is written with the types of all revisions, and a function that was there before keeps
its case unless a new revision declares again a type that it takes by value.
-/

namespace Sidlc

open CellFormat

/-! ### Headers -/

/-- All that the first buffers hold stands in front in the second. -/
structure HeaderBuffers.Before (b b' : HeaderBuffers) : Prop where
  macros : b.macros <+: b'.macros
  types : b.types <+: b'.types
  functions : b.functions <+: b'.functions
  moduleVtableFields : b.moduleVtableFields <+: b'.moduleVtableFields
  abiRevisionCount : b.abiRevisionCount ≤ b'.abiRevisionCount

namespace HeaderBuffers

variable {pfx macroInterfaceName : Bytes} {b b' b'' : HeaderBuffers}

theorem Before.refl (b : HeaderBuffers) : b.Before b :=
  ⟨List.prefix_refl _, List.prefix_refl _, List.prefix_refl _, List.prefix_refl _, Nat.le_refl _⟩

theorem Before.trans (h : b.Before b') (h' : b'.Before b'') : b.Before b'' where
  macros := h.macros.trans h'.macros
  types := h.types.trans h'.types
  functions := h.functions.trans h'.functions
  moduleVtableFields := h.moduleVtableFields.trans h'.moduleVtableFields
  abiRevisionCount := Nat.le_trans h.abiRevisionCount h'.abiRevisionCount

/-- Visits that only append do so one after another. -/
theorem before_foldl {α : Type} {visit : HeaderBuffers → α → HeaderBuffers}
    (hvisit : ∀ (b : HeaderBuffers) (node : α), b.Before (visit b node)) (nodes : List α)
    (b : HeaderBuffers) : b.Before (nodes.foldl visit b) := by
  induction nodes generalizing b with
  | nil => exact .refl b
  | cons node nodes ih => exact .trans (hvisit b node) (ih _)

theorem before_visitBitfield (b : HeaderBuffers) (node : BitfieldNode) :
    b.Before (visitBitfield pfx macroInterfaceName b node) :=
  { Before.refl b with macros := List.prefix_append .., types := List.prefix_append .. }

theorem before_visitEnum (b : HeaderBuffers) (node : EnumNode) :
    b.Before (visitEnum pfx macroInterfaceName b node) :=
  { Before.refl b with macros := List.prefix_append .., types := List.prefix_append .. }

theorem before_visitStruct (b : HeaderBuffers) (node : StructNode) :
    b.Before (visitStruct pfx b node) :=
  { Before.refl b with types := List.prefix_append .. }

theorem before_visitFunction (b : HeaderBuffers) (node : FunctionNode) :
    b.Before (visitFunction pfx b node) :=
  { Before.refl b with
    macros := List.prefix_append ..
    functions := List.prefix_append ..
    moduleVtableFields := List.prefix_append .. }

/-- A revision is put behind those before it. -/
theorem before_visitAbiversion (b : HeaderBuffers) (node : AbiversionNode) :
    b.Before (visitAbiversion pfx macroInterfaceName b node) := by
  let b₁ := node.bitfields.foldl (visitBitfield pfx macroInterfaceName) b
  let b₂ := node.enums.foldl (visitEnum pfx macroInterfaceName) b₁
  let b₃ := node.structs.foldl (visitStruct pfx) b₂
  have h₁ : b.Before b₁ := before_foldl before_visitBitfield node.bitfields b
  have h₂ : b₁.Before b₂ := before_foldl before_visitEnum node.enums b₁
  have h₃ : b₂.Before b₃ := before_foldl before_visitStruct node.structs b₂
  have h₄ : b₃.Before (node.functions.foldl (visitFunction pfx) b₃) :=
    before_foldl before_visitFunction node.functions b₃
  have hmembers := ((h₁.trans h₂).trans h₃).trans h₄
  exact { hmembers with
    abiRevisionCount := Nat.le_trans hmembers.abiRevisionCount (Nat.le_max_left ..) }

end HeaderBuffers

/-- The header has grown: what it held is in its place, but for the two totals behind the macros,
of which the count of the revisions has not become smaller. -/
def Header.Before : Header → Header → Prop
  | types macros definitions, types macros' definitions' =>
    definitions <+: definitions' ∧ ∃ own more spanName span span' countName count count',
      macros = own ++ [.number spanName span, .number countName count] ∧
      macros' = own ++ more ++ [.number spanName span', .number countName count'] ∧
      count ≤ count'
  | client functions, client functions' => functions <+: functions'
  | server vtableFields argSlotCount, server vtableFields' argSlotCount' =>
    vtableFields <+: vtableFields' ∧ argSlotCount = argSlotCount'
  | serverClient functions, serverClient functions' => functions <+: functions'
  | _, _ => False

section Growth

variable {old new : InterfaceNode}

theorem foldl_visitAbiversion_of_grows (h : old.Grows new) :
    HeaderBuffers.Before
      (old.abiversions.foldl (HeaderBuffers.visitAbiversion old.prefixStr (toUpper old.name)) {})
      (new.abiversions.foldl (HeaderBuffers.visitAbiversion new.prefixStr (toUpper new.name))
        {}) := by
  obtain ⟨revisions, hrevisions⟩ := h.abiversions
  rw [h.name, h.prefixStr, ← hrevisions, List.foldl_append]
  exact HeaderBuffers.before_foldl HeaderBuffers.before_visitAbiversion revisions _

/-- **The headers of an extended interface** hold what they held before. -/
theorem header_of_grows (h : old.Grows new) {mode : HeaderMode} {abi : ArchAbi}
    {header : Header} (hheader : generateHeader mode abi old = .ok header) :
    ∃ header', generateHeader mode abi new = .ok header' ∧ header.Before header' := by
  have hbefore := foldl_visitAbiversion_of_grows h
  unfold generateHeader at hheader ⊢
  rw [h.hasUuid, h.hasPrefix, h.annotations]
  split_ifs at hheader ⊢
  split at hheader
  · split_ifs at hheader
  · refine ⟨_, rfl, ?_⟩
    obtain rfl := Except.ok.inj hheader
    cases mode with
    | TYPE =>
      obtain ⟨more, hmore⟩ := hbefore.macros
      have hnew : (headerBuffers new).macros
          = (old.abiversions.foldl (HeaderBuffers.visitAbiversion old.prefixStr
              (toUpper old.name)) {}).macros ++ more
            ++ [.number (toUpper old.prefixStr ++ ascii "FUNCID_SPAN")
                (new.abiversions.foldl (HeaderBuffers.visitAbiversion new.prefixStr
                  (toUpper new.name)) {}).totalFuncidSpan.toNat,
              .number (toUpper old.prefixStr ++ ascii "ABI_REVISION_COUNT")
                (new.abiversions.foldl (HeaderBuffers.visitAbiversion new.prefixStr
                  (toUpper new.name)) {}).abiRevisionCount] := by
        rw [hmore, ← h.prefixStr]
        rfl
      exact ⟨hbefore.types, _, more, _, _, _, _, _, _, rfl, hnew, hbefore.abiRevisionCount⟩
    | CLIENT => exact hbefore.functions
    | SERVER => exact ⟨hbefore.moduleVtableFields, rfl⟩
    | SERVER_CLIENT => exact hbefore.functions

/-! ### Clients -/

/-- **The client source of an extended interface** has its macros and stubs in their places. -/
theorem userSource_of_grows (h : old.Grows new) {abi : ArchAbi}
    {user : UserSource} (huser : generateUserSource abi old = .ok user) :
    ∃ user', generateUserSource abi new = .ok user' ∧ user.macros <+: user'.macros ∧
      user.functions <+: user'.functions := by
  unfold generateUserSource at huser ⊢
  rw [h.hasPrefix, h.annotations, h.prefixStr]
  split_ifs at huser ⊢
  obtain rfl := Except.ok.inj huser
  exact ⟨_, rfl, h.functionsOf.map _, h.functionsOf.map _⟩

end Growth

/-! ### Dispatchers -/

/-- The parameter is a value, neither an output nor behind a pointer. -/
def ParameterNode.ByValue (node : ParameterNode) : Prop :=
  node.direction = .IN ∧ node.type.isPtr = false ∧ node.type.isArray = false

/-- The names of the types that a revision declares. -/
def AbiversionNode.typeNames (node : AbiversionNode) : List Bytes :=
  node.enums.map EnumNode.name ++ (node.bitfields.map BitfieldNode.name
    ++ node.structs.map StructNode.name)

/-- Visits that enter one name each leave the other names. -/
theorem lookup_foldl {α : Type} {visit : TypeValueInfos → α → TypeValueInfos} {nameOf : α → Bytes}
    (hvisit : ∀ (infos : TypeValueInfos) (node : α), ∃ size,
      visit infos node = (nameOf node, size) :: infos)
    {nodes : List α} {name : Bytes} (hname : name ∉ nodes.map nameOf) (infos : TypeValueInfos) :
    (nodes.foldl visit infos).lookup name = infos.lookup name := by
  induction nodes generalizing infos with
  | nil => rfl
  | cons node nodes ih =>
    rw [List.map_cons, List.mem_cons, not_or] at hname
    obtain ⟨size, hsize⟩ := hvisit infos node
    have hne : (name == nameOf node) = false := beq_false_of_ne hname.1
    rw [List.foldl_cons, ih hname.2, hsize, List.lookup_cons, hne]

theorem lookup_visitTypes {node : AbiversionNode} {name : Bytes} (h : name ∉ node.typeNames)
    (infos : TypeValueInfos) : (visitTypes infos node).lookup name = infos.lookup name := by
  have henum (infos : TypeValueInfos) (node : EnumNode) : ∃ size,
      visitEnum infos node = (node.name, size) :: infos := ⟨_, rfl⟩
  have hbitfield (infos : TypeValueInfos) (node : BitfieldNode) : ∃ size,
      visitBitfield infos node = (node.name, size) :: infos := ⟨_, rfl⟩
  have hstruct (infos : TypeValueInfos) (node : StructNode) : ∃ size,
      visitStruct infos node = (node.name, size) :: infos := ⟨_, rfl⟩
  simp only [AbiversionNode.typeNames, List.mem_append, not_or] at h
  rw [visitTypes, lookup_foldl hstruct h.2.2, lookup_foldl hbitfield h.2.1,
    lookup_foldl henum h.1]

theorem lookup_foldl_visitTypes {nodes : List AbiversionNode} {name : Bytes}
    (h : ∀ node ∈ nodes, name ∉ node.typeNames) (infos : TypeValueInfos) :
    (nodes.foldl visitTypes infos).lookup name = infos.lookup name := by
  induction nodes generalizing infos with
  | nil => rfl
  | cons node nodes ih =>
    rw [List.forall_mem_cons] at h
    rw [List.foldl_cons, ih h.2, lookup_visitTypes h.1]

/-- Only the types of the values decide which parameters are scalars. -/
theorem isScalarInRegisterParam_congr (abi : ArchAbi) {infos infos' : TypeValueInfos}
    {node : ParameterNode}
    (h : node.ByValue → infos.lookup node.type.name = infos'.lookup node.type.name) :
    isScalarInRegisterParam abi infos node = isScalarInRegisterParam abi infos' node := by
  unfold isScalarInRegisterParam
  by_cases hdirection : node.direction ≠ .IN
  · rw [if_pos hdirection, if_pos hdirection]
  by_cases hptr : (node.type.isPtr || node.type.isArray) = true
  · rw [if_neg hdirection, if_pos hptr, if_neg hdirection, if_pos hptr]
  rw [if_neg hdirection, if_neg hptr, if_neg hdirection, if_neg hptr]
  simp only [Bool.or_eq_true, not_or, Bool.not_eq_true] at hptr
  have hlookup := h ⟨not_not.1 hdirection, hptr⟩
  rw [getTypeValueInfo, getTypeValueInfo, hlookup]

/-- The case of a function depends on the types it takes by value. -/
theorem dispatchCase_congr (abi : ArchAbi) (pfx : Bytes) {infos infos' : TypeValueInfos}
    {node : FunctionNode} (h : ∀ p ∈ node.parameters, p.ByValue →
      infos.lookup p.type.name = infos'.lookup p.type.name) :
    dispatchCase abi pfx infos node = dispatchCase abi pfx infos' node := by
  have hscalar : ∀ p ∈ node.params, isScalarInRegisterParam abi infos p.node
      = isScalarInRegisterParam abi infos' p.node := fun p hp =>
    isScalarInRegisterParam_congr abi (h p.node (node.node_mem_parameters hp))
  have hpartition : serverPartition abi infos node = serverPartition abi infos' node := by
    unfold serverPartition partition
    refine List.foldl_ext _ _ _ fun s p hp => ?_
    rw [Partition.add, Partition.add, hscalar p hp]
  unfold dispatchCase
  rw [hpartition]

section Cases

variable {abi : ArchAbi} {old new : InterfaceNode}

/-- No revision that is new declares a type that the function takes by value. -/
def FunctionNode.TypesKept (old new : InterfaceNode) (f : FunctionNode) : Prop :=
  ∀ node ∈ new.abiversions.drop old.abiversions.length, ∀ p ∈ f.parameters,
    p.ByValue → p.type.name ∉ node.typeNames

/-- **A dispatcher keeps the case of a function** whose types are kept. -/
theorem dispatchCase_of_grows (h : old.Grows new) {f : FunctionNode}
    (hkept : f.TypesKept old new) :
    dispatchCase abi new.prefixStr (typeValueInfos new) f
      = dispatchCase abi old.prefixStr (typeValueInfos old) f := by
  obtain ⟨revisions, hrevisions⟩ := h.abiversions
  rw [FunctionNode.TypesKept, ← hrevisions, List.drop_left] at hkept
  rw [h.prefixStr]
  refine dispatchCase_congr abi old.prefixStr fun p hp hvalue => ?_
  rw [typeValueInfos, ← hrevisions, List.foldl_append]
  exact lookup_foldl_visitTypes (fun node hnode => hkept node hnode p hp hvalue) _

/-- A value of an enumeration travels in a register. When a new revision declares a structure of
the same name, the server expects it in the block. -/
example :
    let f : FunctionNode := ⟨ascii "f", [], [⟨.IN, .named false 0 (ascii "E"), ascii "x", []⟩], 0⟩
    let first : AbiversionNode :=
      { version := 0, functions := [f]
        enums := [⟨ascii "E", .named false 0 (ascii "u8"), [], []⟩] }
    let second : AbiversionNode := { version := 1, structs := [⟨ascii "E", [], []⟩] }
    (dispatchCase x86_64 [] (typeValueInfos { abiversions := [first] }) f).locals.map
        DispatchLocal.init = [.slot 0] ∧
      (dispatchCase x86_64 [] (typeValueInfos { abiversions := [first, second] }) f).locals.map
        DispatchLocal.init = [.load (ascii "E")] := by
  decide

/-- The dispatcher of an interface that numbers its functions from `0` on has their cases in
order. -/
theorem generateModuleSource_of_numbered (hnumbered : NumberedFrom 0 (functionsOf old.abiversions))
    (hlt : (functionsOf old.abiversions).length < 2 ^ 32) (habi : ¬abi.maxRegArgs ≤ 2)
    (hpre : ¬(!old.hasPrefix) = true)
    (hanno : ¬(old.annotations.any fun anno => anno.name = ascii "prefix") = true) :
    generateModuleSource abi old = .ok
      { bound := old.abiversions.foldl visitSpan 0
        argSlotCount := abi.argSlotCount
        cases := (functionsOf old.abiversions).map
          (dispatchCase abi old.prefixStr (typeValueInfos old)) } := by
  have htable := foldlM_visitFunction (functionsOf old.abiversions)
  rw [if_pos (toNat_id_lt_of_numberedFrom hnumbered hlt), foldl_placeFunction hnumbered hlt]
    at htable
  rw [generateModuleSource, if_neg habi, if_neg hpre, if_neg hanno]
  show (functionsOf old.abiversions).foldlM visitFunction [] >>= _ = _
  rw [htable]
  show Except.ok _ = _
  simp

theorem cases_of_grows (h : old.Grows new)
    (hnumbered : NumberedFrom 0 (functionsOf new.abiversions))
    (hlt : (functionsOf new.abiversions).length < 2 ^ 32) {d : Dispatcher}
    (hd : generateModuleSource abi old = .ok d) :
    ∃ d', generateModuleSource abi new = .ok d' ∧ ∀ (k : Nat) (f : FunctionNode),
      (functionsOf old.abiversions)[k]? = some f → f.TypesKept old new →
        ∃ c, d.cases[k]? = some c ∧ d'.cases[k]? = some c := by
  obtain ⟨more, hmore⟩ := h.functionsOf
  have hnumberedOld := (numberedFrom_append.1 (hmore ▸ hnumbered)).1
  have hltOld : (functionsOf old.abiversions).length < 2 ^ 32 := by
    rw [← hmore, List.length_append] at hlt
    omega
  -- the new dispatcher fails where the old one does
  by_cases habi : abi.maxRegArgs ≤ 2
  · rw [generateModuleSource, if_pos habi] at hd
    cases hd
  by_cases hpre : (!old.hasPrefix) = true
  · rw [generateModuleSource, if_neg habi, if_pos hpre] at hd
    cases hd
  by_cases hanno : (old.annotations.any fun anno => anno.name = ascii "prefix") = true
  · rw [generateModuleSource, if_neg habi, if_neg hpre, if_pos hanno] at hd
    cases hd
  rw [generateModuleSource_of_numbered hnumberedOld hltOld habi hpre hanno] at hd
  obtain rfl := Except.ok.inj hd
  refine ⟨_, generateModuleSource_of_numbered hnumbered hlt habi (h.hasPrefix ▸ hpre)
    (h.annotations ▸ hanno), fun k f hf hkept =>
    ⟨dispatchCase abi old.prefixStr (typeValueInfos old) f, ?_, ?_⟩⟩
  · rw [List.getElem?_map, hf, Option.map_some]
  · have hf' : (functionsOf new.abiversions)[k]? = some f := by
      rw [← hmore, List.getElem?_append_left (List.getElem?_eq_some_iff.1 hf).1, hf]
    rw [List.getElem?_map, hf', Option.map_some, dispatchCase_of_grows h hkept]

end Cases

/-! ### Chains -/

/-- **Extending keeps what was generated.** However often an artifact is extended, its headers and
its client source are still there, in front of what is new, and a dispatcher has the same case for
every function whose types no new revision declares again. -/
theorem extends_keeps {base artifact : Bytes} {old new : InterfaceNode}
    (hold : sifRead base = .ok old) (h : Extends base artifact)
    (hnew : sifRead artifact = .ok new) (abi : ArchAbi) :
    (∀ mode header, generateHeader mode abi old = .ok header →
      ∃ header', generateHeader mode abi new = .ok header' ∧ header.Before header') ∧
    (∀ user, generateUserSource abi old = .ok user →
      ∃ user', generateUserSource abi new = .ok user' ∧ user.macros <+: user'.macros ∧
        user.functions <+: user'.functions) ∧
    (NumberedFrom 0 (functionsOf new.abiversions) →
      (functionsOf new.abiversions).length < 2 ^ 32 →
      ∀ d, generateModuleSource abi old = .ok d →
        ∃ d', generateModuleSource abi new = .ok d' ∧ ∀ (k : Nat) (f : FunctionNode),
          (functionsOf old.abiversions)[k]? = some f → f.TypesKept old new →
            ∃ c, d.cases[k]? = some c ∧ d'.cases[k]? = some c) := by
  obtain ⟨new', hnew', hgrows⟩ := h.appends hold
  obtain rfl : new' = new := Except.ok.inj (hnew'.symm.trans hnew)
  exact ⟨fun _ _ => header_of_grows hgrows, fun _ => userSource_of_grows hgrows,
    fun hnumbered hlt _ => cases_of_grows hgrows hnumbered hlt⟩

/-- The sample with a second revision, whose function has a number of its own. -/
theorem extends_keeps_sample :
    ∃ artifact new, Extends (encode sampleDecoded.layout) artifact ∧
      sifRead artifact = .ok new ∧
      ∃ user user', generateUserSource x86_64 sampleDecoded = .ok user ∧
        generateUserSource x86_64 new = .ok user' ∧ user.macros.length = 1 ∧
        user.macros <+: user'.macros ∧ user.functions <+: user'.functions := by
  have hread : sifRead (encode sampleDecoded.layout) = .ok sampleDecoded :=
    (sifRead_eq_ok_iff ..).2 ⟨decoded_sampleDecoded, matches_encode _⟩
  have hprintable :
      ∀ node ∈ (sampleInterface [sampleRevision 1 0]).abiversions, node.Printable := by
    intro node hnode
    rw [List.mem_singleton.1 hnode]
    exact printable_sampleRevision ..
  have hcompile := compile_some_of_parse hread
    (parseInterfaceFile_decompileInterface (normalized_sampleInterface _) hprintable (n := 1)
      ⟨rfl, trivial⟩ sampleDecoded.currentFuncid)
    (encodable_renumber.2 (encodable_map_bare.2 (by decide))) (by decide)
  have hextends : Extends (encode sampleDecoded.layout) _ := .single ⟨_, hcompile⟩
  obtain ⟨new, hnew, -⟩ := grows_of_compile hread hcompile
  obtain ⟨user, huser, hlength⟩ : ∃ user, generateUserSource x86_64 sampleDecoded = .ok user ∧
      user.macros.length = 1 := ⟨_, rfl, rfl⟩
  obtain ⟨user', huser', hmacros, hfunctions⟩ :=
    (extends_keeps hread hextends hnew x86_64).2.1 user huser
  exact ⟨_, new, hextends, hnew, user, user', huser, huser', hlength, hmacros, hfunctions⟩

end Sidlc
