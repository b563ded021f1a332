import Sidlc.Equiv.Histories
import Sidlc.Equiv.PrintedTrees
import Sidlc.Generate.Equiv.FunctionNumbers
import Sidlc.Generate.Equiv.CType
import Sidlc.Library.Grouping

/-!
# The order of the type definitions in a header

The types of a revision are printed kind after kind: bitfields, enums, structures. A source that
declares every type before it uses it therefore gets a header that does, exactly when no bitfield of
a block is over an enum or a structure of that block, and no enum over a structure
(`typesInOrder_iff`).
-/

namespace Sidlc

open Grouping

/-! ### Types and their uses -/

namespace Declaration

/-- The name of the type that the declaration declares. -/
def typeName : Declaration → Option Bytes
  | bitfield node => some node.name
  | enum node => some node.name
  | struct node => some node.name
  | function _ => none

/-- The types a declared type is made of. -/
def types : Declaration → List TypeNode
  | bitfield node => [node.baseType]
  | enum node => [node.baseType]
  | struct node => node.fields.map StructFieldNode.type
  | function _ => []

/-- The names of types that are not built in. -/
def usedNames (d : Declaration) : List Bytes :=
  (d.types.map TypeNode.innermostName).filter fun name => (typeInfos.lookup name).isNone

/-- The definition uses the type of the other one. -/
abbrev Uses : Declaration → Declaration → Prop :=
  Grouping.Uses typeName usedNames

/-- What the header says of a type. -/
def typeDefinition (pfx : Bytes) : Declaration → Option TypeDefinition
  | bitfield node => some (.typedef (toCType pfx node.baseType) (pfx ++ node.name))
  | enum node => some (.typedef (toCType pfx node.baseType) (pfx ++ node.name))
  | struct node =>
    some (.struct (pfx ++ node.name)
      (node.fields.map fun f => (toCType pfx f.type, f.name, !f.type.isPtr && f.type.isArray))
      (node.annotations.countP fun anno =>
        anno.name = ascii "align_size" && !anno.args.isEmpty))
  | function _ => none

end Declaration

/-! ### The header -/

/-- The types of a revision, in the order of the header. -/
def AbiversionNode.typeDeclarations (node : AbiversionNode) : List Declaration :=
  node.bitfields.map .bitfield ++ (node.enums.map .enum ++ node.structs.map .struct)

def InterfaceNode.typeDeclarations (interface : InterfaceNode) : List Declaration :=
  interface.abiversions.flatMap AbiversionNode.typeDeclarations

open HeaderBuffers in
theorem HeaderBuffers.types_visitAbiversion (pfx macroInterfaceName : Bytes) (b : HeaderBuffers)
    (node : AbiversionNode) :
    (b.visitAbiversion pfx macroInterfaceName node).types
      = b.types ++ node.typeDeclarations.filterMap (Declaration.typeDefinition pfx) := by
  set b₁ := node.bitfields.foldl (visitBitfield pfx macroInterfaceName) b with hb₁
  set b₂ := node.enums.foldl (visitEnum pfx macroInterfaceName) b₁ with hb₂
  set b₃ := node.structs.foldl (visitStruct pfx) b₂ with hb₃
  -- each visit adds what the declaration defines, if anything
  have hbitfield (b : HeaderBuffers) (node : BitfieldNode) :
      (visitBitfield pfx macroInterfaceName b node).types
        = b.types ++ ((Declaration.bitfield node).typeDefinition pfx).toList := rfl
  have henum (b : HeaderBuffers) (node : EnumNode) :
      (visitEnum pfx macroInterfaceName b node).types
        = b.types ++ ((Declaration.enum node).typeDefinition pfx).toList := rfl
  have hstruct (b : HeaderBuffers) (node : StructNode) :
      (visitStruct pfx b node).types
        = b.types ++ ((Declaration.struct node).typeDefinition pfx).toList := rfl
  have hfunction (b : HeaderBuffers) (node : FunctionNode) :
      (visitFunction pfx b node).types = b.types := rfl
  have hfunctions : (b.visitAbiversion pfx macroInterfaceName node).types = b₃.types :=
    foldl_part hfunction b₃ node.functions
  have hmap {α : Type} (kind : α → Declaration) (xs : List α) :
      (xs.map kind).filterMap (Declaration.typeDefinition pfx)
        = xs.flatMap fun x => ((kind x).typeDefinition pfx).toList := by
    rw [List.filterMap_map, List.filterMap_eq_flatMap_toList]
    rfl
  rw [hfunctions, hb₃, foldl_append_part hstruct, hb₂, foldl_append_part henum, hb₁,
    foldl_append_part hbitfield, AbiversionNode.typeDeclarations, List.filterMap_append,
    List.filterMap_append, hmap, hmap, hmap, List.append_assoc, List.append_assoc]

/-- **The types of a header** are the declared types of the revisions, kind after kind. -/
theorem types_headerBuffers (interface : InterfaceNode) :
    (headerBuffers interface).types
      = interface.typeDeclarations.filterMap (Declaration.typeDefinition interface.prefixStr) := by
  have h := foldl_append_part
    (HeaderBuffers.types_visitAbiversion interface.prefixStr (toUpper interface.name)) {}
    interface.abiversions
  rw [InterfaceNode.typeDeclarations, List.filterMap_flatMap]
  exact h

/-! ### The source -/

/-- The text begins with the tree. -/
def IsTreeOf (source : Bytes) (t : Syntax.Tree) : Prop :=
  ∃ ts, ts <+: lexemes source ∧ Syntax.tree ts t

/-- The kinds of the types, in the order of the header. -/
def typeKinds : List Declaration.Kind :=
  [.bitfield, .enum, .struct]

namespace Syntax

theorem Block.typeDeclarations_revision (b : Block) (interface : InterfaceNode) :
    (b.revision interface).node.typeDeclarations
      = grouped Declaration.kind typeKinds b.declarations := by
  -- collecting the declarations of a kind is filtering by it
  have hcollect {α : Type} (kind : α → Declaration) (node? : Declaration → Option α)
      (k : Declaration.Kind) (hsome : ∀ d, d.kind = k → ∃ x, d = kind x ∧ node? d = some x)
      (hnone : ∀ d, d.kind ≠ k → node? d = none) :
      (b.declarations.filterMap node?).map kind = b.declarations.filter fun d => d.kind = k := by
    induction b.declarations with
    | nil => rfl
    | cons d ds ih =>
      by_cases hd : d.kind = k
      · obtain ⟨x, rfl, hx⟩ := hsome d hd
        rw [List.filterMap_cons_some hx, List.map_cons, ih,
          List.filter_cons_of_pos (by simpa using hd)]
      · rw [List.filterMap_cons_none (hnone d hd), ih, List.filter_cons_of_neg (by simpa using hd)]
  have hbitfields := hcollect .bitfield Declaration.bitfield? .bitfield
    (fun d hd => by cases d <;> first | exact ⟨_, rfl, rfl⟩ | cases hd)
    (fun d hd => by cases d <;> first | rfl | exact absurd rfl hd)
  have henums := hcollect .enum Declaration.enum? .enum
    (fun d hd => by cases d <;> first | exact ⟨_, rfl, rfl⟩ | cases hd)
    (fun d hd => by cases d <;> first | rfl | exact absurd rfl hd)
  have hstructs := hcollect .struct Declaration.struct? .struct
    (fun d hd => by cases d <;> first | exact ⟨_, rfl, rfl⟩ | cases hd)
    (fun d hd => by cases d <;> first | rfl | exact absurd rfl hd)
  rw [revision, Parser.Revision.foldl_add, AbiversionNode.typeDeclarations]
  simp only [List.nil_append, hbitfields, henums, hstructs]
  simp [grouped, typeKinds]

theorem Tree.typeDeclarations_interface (t : Tree) (firstFuncid : UInt32) :
    (t.interface firstFuncid).typeDeclarations
      = t.blocks.flatMap fun b => grouped Declaration.kind typeKinds b.declarations := by
  have hfold (bs : List Block) (interface : InterfaceNode) :
      (bs.foldl Block.elaborate interface).typeDeclarations = interface.typeDeclarations ++
        bs.flatMap fun b => grouped Declaration.kind typeKinds b.declarations := by
    induction bs generalizing interface with
    | nil => rw [List.foldl_nil, List.flatMap_nil, List.append_nil]
    | cons b bs ih =>
      have hblock : (b.elaborate interface).typeDeclarations = interface.typeDeclarations ++
          grouped Declaration.kind typeKinds b.declarations := by
        rw [InterfaceNode.typeDeclarations, Block.elaborate, List.flatMap_append,
          List.flatMap_singleton, b.typeDeclarations_revision]
        rfl
      rw [List.foldl_cons, ih, hblock, List.flatMap_cons, List.append_assoc]
  exact (hfold t.blocks _).trans (List.nil_append _)

end Syntax

theorem abiversions_normalizeInterfaceMetadata {interface result : InterfaceNode}
    (h : normalizeInterfaceMetadata interface = .ok result) :
    result.abiversions = interface.abiversions := by
  have hself : interface.withRevisions interface.abiversions interface.currentFuncid = interface :=
    rfl
  have heq := normalizeInterfaceMetadata_withRevisions interface interface.abiversions
    interface.currentFuncid
  rw [hself, h] at heq
  have hresult : result
      = result.withRevisions interface.abiversions interface.currentFuncid := Except.ok.inj heq
  rw [hresult]
  rfl

theorem typeDeclarations_of_parseInterfaceFile {source : Bytes} {firstAbirevision : UInt64}
    {firstFuncid : UInt32} {interface : InterfaceNode}
    (h : parseInterfaceFile source firstAbirevision firstFuncid = .ok (some interface))
    {t : Syntax.Tree} (ht : IsTreeOf source t) :
    interface.typeDeclarations
      = t.blocks.flatMap fun b => grouped Declaration.kind typeKinds b.declarations := by
  obtain ⟨parsed, hparse, hnormalize⟩ := parseInterfaceFile_eq_some_iff.1 h
  obtain ⟨ts, hts, hdecl⟩ := Parser.parse_eq_some_iff.1 hparse
  obtain ⟨u, hu, -, rfl⟩ := Syntax.interfaceDecl_iff_tree.1 hdecl
  obtain ⟨us, hus, ht⟩ := ht
  have hsame := (tree_unique hts hu hus ht firstFuncid).1
  rw [InterfaceNode.typeDeclarations, abiversions_normalizeInterfaceMetadata hnormalize, hsame]
  exact t.typeDeclarations_interface firstFuncid

/-- Stamping keeps the types of revisions as an artifact carries them. -/
theorem typeDeclarations_stampRevisions (interface : InterfaceNode) (previousHash : Hash)
    {nodes : List AbiversionNode} (h : nodes.map AbiversionNode.bare = nodes) :
    (interface.stampRevisions previousHash nodes).flatMap AbiversionNode.typeDeclarations
      = nodes.flatMap AbiversionNode.typeDeclarations := by
  induction nodes generalizing previousHash with
  | nil => rfl
  | cons node nodes ih =>
    rw [List.map_cons, List.cons.injEq] at h
    have hnode (abiHash : Hash) :
        (node.stamp previousHash abiHash).typeDeclarations = node.typeDeclarations := by
      conv_rhs => rw [← h.1]
      rfl
    rw [InterfaceNode.stampRevisions, List.flatMap_cons, List.flatMap_cons, hnode, ih _ h.2]

theorem forall₂_concat_left {α β : Type} {R : α → β → Prop} {xs : List α} {x : α} {zs : List β}
    (h : List.Forall₂ R (xs ++ [x]) zs) :
    ∃ ys y, zs = ys ++ [y] ∧ List.Forall₂ R xs ys ∧ R x y := by
  induction xs generalizing zs with
  | nil =>
    obtain ⟨y, rest, hy, hrest, rfl⟩ := List.forall₂_cons_left_iff.1 h
    obtain rfl := List.forall₂_nil_left_iff.1 hrest
    exact ⟨[], y, rfl, .nil, hy⟩
  | cons x' xs ih =>
    obtain ⟨y', rest, hy', hrest, rfl⟩ := List.forall₂_cons_left_iff.1 h
    obtain ⟨ys, y, rfl, hys, hy⟩ := ih hrest
    exact ⟨y' :: ys, y, rfl, .cons hy' hys, hy⟩

/-- Sources that compile have trees. -/
theorem exists_trees_of_compiled {sources : List Bytes} {artifact : Bytes}
    (h : Compiled sources artifact) : ∃ trees, List.Forall₂ IsTreeOf sources trees := by
  have htree {source : Bytes} {firstAbirevision : UInt64} {firstFuncid : UInt32}
      {interface : InterfaceNode}
      (h : parseInterfaceFile source firstAbirevision firstFuncid = .ok (some interface)) :
      ∃ t, IsTreeOf source t := by
    obtain ⟨parsed, hparse, -⟩ := parseInterfaceFile_eq_some_iff.1 h
    obtain ⟨ts, hts, hdecl⟩ := Parser.parse_eq_some_iff.1 hparse
    obtain ⟨t, ht, -⟩ := Syntax.interfaceDecl_iff_tree.1 hdecl
    exact ⟨t, ts, hts, ht⟩
  induction h with
  | first hcompile =>
    obtain ⟨interface, hparse, -⟩ := compile_none_eq_some_iff.1 hcompile
    obtain ⟨t, ht⟩ := htree hparse
    exact ⟨[t], .cons ht .nil⟩
  | extend _ hcompile ih =>
    obtain ⟨trees, htrees⟩ := ih
    obtain ⟨_, _, -, hparse, -⟩ := compile_some_eq_some_iff.1 hcompile
    obtain ⟨t, ht⟩ := htree hparse
    exact ⟨trees ++ [t], List.rel_append htrees (.cons ht .nil)⟩

/-- **The types in an artifact** are those of the sources, in each block kind after kind. -/
theorem typeDeclarations_of_compiled {sources : List Bytes} {artifact : Bytes}
    (h : Compiled sources artifact) {trees : List Syntax.Tree}
    (htrees : List.Forall₂ IsTreeOf sources trees) :
    ∃ interface, Artifact artifact interface ∧ interface.typeDeclarations
      = (trees.flatMap Syntax.Tree.blocks).flatMap fun b =>
          grouped Declaration.kind typeKinds b.declarations := by
  induction h generalizing trees with
  | @first source artifact hcompile =>
    obtain ⟨t, rest, ht, hrest, rfl⟩ := List.forall₂_cons_left_iff.1 htrees
    obtain rfl := List.forall₂_nil_left_iff.1 hrest
    obtain ⟨interface, _, hparse, -, hartifact⟩ := artifact_of_compile_none hcompile
    have hbare := map_bare_of_parseInterfaceFile (n := 0) hparse
    have hmerged : (interface.merged []).typeDeclarations = interface.typeDeclarations := by
      show (interface.stampRevisions zeroHash (allRevisions interface [])).flatMap _ = _
      rw [allRevisions_nil, typeDeclarations_stampRevisions interface zeroHash hbare]
      rfl
    refine ⟨_, hartifact, ?_⟩
    rw [hmerged, typeDeclarations_of_parseInterfaceFile hparse ht, List.flatMap_singleton]
  -- the revisions of the extension go behind those of the base
  | @extend sources base source artifact _ hcompile ih =>
    obtain ⟨trees, t, rfl, htrees, ht⟩ := forall₂_concat_left htrees
    obtain ⟨interface, hbase, htypes⟩ := ih htrees
    obtain ⟨extension, _, hparse, -, hartifact⟩ := artifact_of_compile_some hbase hcompile
    have hbare := map_bare_of_parseInterfaceFile hparse
    have hmerged : (interface.merged [extension]).typeDeclarations
        = interface.typeDeclarations ++ extension.typeDeclarations := by
      rw [InterfaceNode.typeDeclarations, abiversions_merged_singleton hbase.decoded extension,
        List.flatMap_append, typeDeclarations_stampRevisions _ _ hbare]
      rfl
    refine ⟨_, hartifact, ?_⟩
    rw [hmerged, htypes, typeDeclarations_of_parseInterfaceFile hparse ht, List.flatMap_append,
      List.flatMap_append, List.flatMap_singleton]

/-! ### The order -/

/-- The declarations of the sources, in the order of the texts. -/
def declarationsOf (trees : List Syntax.Tree) : List Declaration :=
  (trees.flatMap Syntax.Tree.blocks).flatMap Syntax.Block.declarations

/-- In a block, no bitfield is over an enum or a structure, and no enum over a structure. -/
def Syntax.Block.BasesFirst (b : Syntax.Block) : Prop :=
  ∀ d ∈ b.declarations, ∀ e ∈ b.declarations, d.Uses e →
    (d.kind = .bitfield → e.kind = .bitfield) ∧ (d.kind = .enum → e.kind ≠ .struct)

/-- In the header with the types, no definition uses a later one. -/
def TypesInOrder (abi : ArchAbi) (artifact : Bytes) : Prop :=
  ∃ interface macros types, sifRead artifact = .ok interface ∧
    generateHeader .TYPE abi interface = .ok (.types macros types) ∧
    types = interface.typeDeclarations.filterMap
      (Declaration.typeDefinition interface.prefixStr) ∧
    interface.typeDeclarations.Pairwise fun d e => ¬ d.Uses e

theorem Syntax.Block.basesFirst_iff (b : Syntax.Block) :
    b.BasesFirst ↔ KindsApart Declaration.kind typeKinds (fun d e => ¬ d.Uses e)
      b.declarations := by
  have hfunction {d e : Declaration} (h : d.Uses e) : e.kind ≠ .function := by
    rintro he
    obtain ⟨name, -, hname⟩ := h
    cases e <;> simp_all [Declaration.kind, Declaration.typeName]
  have hpairs : KindsApart Declaration.kind typeKinds (fun d e => ¬ d.Uses e) b.declarations ↔
      ∀ d ∈ b.declarations, ∀ e ∈ b.declarations, d.Uses e →
        ¬ (d.kind = .bitfield ∧ e.kind = .enum) ∧ ¬ (d.kind = .bitfield ∧ e.kind = .struct) ∧
          ¬ (d.kind = .enum ∧ e.kind = .struct) := by
    simp [KindsApart, typeKinds]
    grind
  rw [hpairs, BasesFirst]
  refine forall₂_congr fun d _ => forall₂_congr fun e _ => forall_congr' fun huses => ?_
  have hne := hfunction huses
  clear hfunction hpairs
  cases hkind : d.kind <;> cases hkind' : e.kind <;> simp_all

/-- The header with the types of an artifact has the definitions of its types. -/
theorem generateHeader_types {artifact : Bytes} {interface : InterfaceNode}
    (h : Artifact artifact interface) (abi : ArchAbi) :
    ∃ macros, generateHeader .TYPE abi interface = .ok (.types macros
      (interface.typeDeclarations.filterMap (Declaration.typeDefinition interface.prefixStr))) := by
  refine ⟨(headerBuffers interface).macros, ?_⟩
  rw [generateHeader, if_neg (by simp), h.normalized.hasUuid, h.normalized.hasPrefix,
    find?_identity_of_normalized h.normalized, ← types_headerBuffers]
  rfl

theorem typesInOrder_iff_pairwise {artifact : Bytes} {interface : InterfaceNode}
    (h : Artifact artifact interface) (abi : ArchAbi) :
    TypesInOrder abi artifact ↔ interface.typeDeclarations.Pairwise fun d e => ¬ d.Uses e := by
  obtain ⟨macros, hheader⟩ := generateHeader_types h abi
  constructor
  · rintro ⟨interface', macros', types, hread, -, -, hpairwise⟩
    obtain rfl := Except.ok.inj (h.sifRead.symm.trans hread)
    exact hpairwise
  · exact fun hpairwise => ⟨interface, macros, _, h.sifRead, hheader, rfl, hpairwise⟩

/-- **Sources that declare every type before they use it** get a header that does exactly when in no
block a bitfield is over an enum or a structure of the block, or an enum over a structure of it. -/
theorem typesInOrder_iff (sources : List Bytes) (artifact : Bytes) (trees : List Syntax.Tree)
    (abi : ArchAbi) (h : Compiled sources artifact)
    (htrees : List.Forall₂ IsTreeOf sources trees)
    (hdistinct : ((declarationsOf trees).filterMap Declaration.typeName).Nodup)
    (hdeclared : DefinedFirst Declaration.typeName Declaration.usedNames (declarationsOf trees)) :
    TypesInOrder abi artifact ↔ ∀ t ∈ trees, ∀ b ∈ t.blocks, b.BasesFirst := by
  obtain ⟨interface, hartifact, htypes⟩ := typeDeclarations_of_compiled h htrees
  have hsource := hdeclared.pairwise hdistinct
  rw [declarationsOf, List.flatMap_def] at hsource
  rw [typesInOrder_iff_pairwise hartifact, htypes, ← List.flatMap_map,
    pairwise_flatMap_grouped_iff hsource, List.forall_mem_map]
  simp only [← Syntax.Block.basesFirst_iff, List.mem_flatMap]
  exact ⟨fun hall t ht b hb => hall b ⟨t, ht, hb⟩, fun hall b ⟨t, ht, hb⟩ => hall t ht b hb⟩

/-! ### Two blocks -/

/-- `enum<u8> e { };` -/
def sampleEnum : Declaration :=
  .enum { name := ascii "e", baseType := .named false 0 (ascii "u8"), annotations := [],
          members := [] }

/-- `struct s { e x; };` -/
def sampleStruct : Declaration :=
  .struct { name := ascii "s", annotations := [],
            fields := [{ type := .named false 0 (ascii "e"), name := ascii "x" }] }

/-- `bitfield<e> b { };` -/
def sampleBitfield : Declaration :=
  .bitfield { name := ascii "b", baseType := .named false 0 (ascii "e"), annotations := [],
              fields := [] }

theorem exists_compiled_sampleTree {ds : List Declaration}
    (h : ∀ d ∈ ds, d.Printable ∧ d.bare = d)
    (hencodable : ∀ node ∈ ((sampleTree ds).interface 0).abiversions, node.Encodable) :
    ∃ artifact, Compiled [(sampleTree ds).print] artifact ∧
      List.Forall₂ IsTreeOf [(sampleTree ds).print] [sampleTree ds] := by
  obtain ⟨artifact, hcompile⟩ := compile_sampleTree h hencodable
  exact ⟨artifact, .first hcompile,
    .cons ⟨_, List.prefix_refl _, (printable_sampleTree h).tree_lexemes⟩ .nil⟩

/-- The declarations of the samples are printable. -/
theorem printable_samples :
    ∀ d ∈ [sampleEnum, sampleStruct, sampleBitfield], d.Printable ∧ d.bare = d := by
  have hprintable : ∀ d ∈ [sampleEnum, sampleStruct, sampleBitfield], d.Printable := by
    decide +kernel
  intro d hd
  refine ⟨hprintable d hd, ?_⟩
  simp only [List.mem_cons, List.not_mem_nil, or_false] at hd
  rcases hd with rfl | rfl | rfl <;> rfl

theorem usedNames_sampleEnum : sampleEnum.usedNames = [] := by
  decide

/-- What uses `e` may come behind the enum. -/
theorem definedFirst_sampleEnum {d : Declaration} (hd : d.usedNames = [ascii "e"]) :
    DefinedFirst Declaration.typeName Declaration.usedNames
      (declarationsOf [sampleTree [sampleEnum, d]]) := by
  have henum : DefinedFirst Declaration.typeName Declaration.usedNames [sampleEnum] := by
    refine definedFirst_concat definedFirst_nil ?_
    rw [usedNames_sampleEnum]
    exact List.forall_mem_nil _
  refine definedFirst_concat henum ?_
  rw [hd, List.forall_mem_singleton]
  exact ⟨sampleEnum, List.mem_singleton_self _, rfl⟩

/-- An enum and a structure with a field of it are in order in the header too. -/
theorem typesInOrder_struct :
    ∃ artifact, Compiled [(sampleTree [sampleEnum, sampleStruct]).print] artifact ∧
      TypesInOrder x86_64 artifact := by
  have hprintable : ∀ d ∈ [sampleEnum, sampleStruct], d.Printable ∧ d.bare = d :=
    fun d hd => printable_samples d (List.mem_append_left [sampleBitfield] hd)
  obtain ⟨artifact, hcompiled, htrees⟩ := exists_compiled_sampleTree hprintable (by decide)
  have huses : sampleStruct.usedNames = [ascii "e"] := by decide
  have hiff := typesInOrder_iff _ artifact _ x86_64 hcompiled htrees (by decide)
    (definedFirst_sampleEnum huses)
  refine ⟨artifact, hcompiled, hiff.2 ?_⟩
  rw [List.forall_mem_singleton, sampleTree, List.forall_mem_singleton]
  intro d hd e _ huses
  rcases List.mem_pair.1 hd with rfl | rfl
  · obtain ⟨name, hname, -⟩ := huses
    rw [usedNames_sampleEnum] at hname
    exact absurd hname List.not_mem_nil
  · exact ⟨fun h => absurd h (by decide), fun h => absurd h (by decide)⟩

/-- A bitfield over an enum before it comes before the enum in the header. -/
theorem not_typesInOrder_bitfield :
    ¬ ∀ (sources : List Bytes) (artifact : Bytes) (trees : List Syntax.Tree) (abi : ArchAbi),
      Compiled sources artifact → List.Forall₂ IsTreeOf sources trees →
      ((declarationsOf trees).filterMap Declaration.typeName).Nodup →
      DefinedFirst Declaration.typeName Declaration.usedNames (declarationsOf trees) →
      TypesInOrder abi artifact := by
  intro hall
  have hprintable : ∀ d ∈ [sampleEnum, sampleBitfield], d.Printable ∧ d.bare = d := by
    rw [List.forall_mem_cons, List.forall_mem_singleton]
    exact ⟨printable_samples _ (by simp), printable_samples _ (by simp)⟩
  obtain ⟨artifact, hcompiled, htrees⟩ := exists_compiled_sampleTree hprintable (by decide)
  have huses : sampleBitfield.usedNames = [ascii "e"] := by decide
  have horder := hall _ artifact _ x86_64 hcompiled htrees (by decide)
    (definedFirst_sampleEnum huses)
  obtain ⟨interface, hartifact, htypes⟩ := typeDeclarations_of_compiled hcompiled htrees
  rw [typesInOrder_iff_pairwise hartifact, htypes] at horder
  -- the bitfield comes first, and the enum it uses behind it
  have hgrouped : ([sampleTree [sampleEnum, sampleBitfield]].flatMap Syntax.Tree.blocks).flatMap
      (fun b => grouped Declaration.kind typeKinds b.declarations) = [sampleBitfield, sampleEnum] :=
    rfl
  rw [hgrouped, List.pairwise_pair] at horder
  refine horder ⟨ascii "e", ?_, rfl⟩
  rw [huses]
  exact List.mem_singleton_self _

end Sidlc
