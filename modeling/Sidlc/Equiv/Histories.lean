import Mathlib.Data.List.Forall2
import Sidlc.Equiv.Compile
import Sidlc.Equiv.FunctionCounts

/-!
# Histories of an artifact

An artifact is compiled from a first source and extended by further ones. All artifacts that come
about this way can be printed (`Artifact`), and their functions are numbered `0`, `1`, ... unless an
extension met a base whose next id had got stuck (`Compiled.spec`): then decompiling and compiling
gives another artifact (`compile_sifDecompile_iff`).
-/

namespace Sidlc

open CellFormat

/-- The artifact comes from compiling the first source and extending by the others, one at a
time. -/
inductive Compiled : List Bytes → Bytes → Prop
  | first {source artifact : Bytes} (h : compile none source = .ok (some artifact)) :
      Compiled [source] artifact
  | extend {sources : List Bytes} {base source artifact : Bytes} (hbase : Compiled sources base)
      (h : compile (some base) source = .ok (some artifact)) :
      Compiled (sources ++ [source]) artifact

theorem Compiled.ne_nil {sources : List Bytes} {artifact : Bytes} (h : Compiled sources artifact) :
    sources ≠ [] := by
  cases h with
  | first => simp
  | extend => simp

/-- The sources determine the artifact. -/
theorem Compiled.unique {sources : List Bytes} {a b : Bytes} (ha : Compiled sources a)
    (hb : Compiled sources b) : a = b := by
  induction ha generalizing b with
  -- one source is compiled by itself
  | @first source a ha =>
    generalize hsources : [source] = sources at hb
    cases hb with
    | first hb =>
      obtain rfl := List.singleton_inj.1 hsources
      exact Option.some.inj (Except.ok.inj (ha.symm.trans hb))
    | extend hbase _ =>
      have hnil := (List.append_eq_singleton_iff.1 hsources.symm).resolve_right (by simp)
      exact absurd hnil.1 hbase.ne_nil
  | @extend sources base source a hbase ha ih =>
    generalize hsources : sources ++ [source] = all at hb
    cases hb with
    | first _ =>
      have hnil := (List.append_eq_singleton_iff.1 hsources).resolve_right (by simp)
      exact absurd hnil.1 hbase.ne_nil
    | extend hbase' hb =>
      obtain ⟨rfl, hlast⟩ := List.append_inj' hsources rfl
      obtain rfl := List.singleton_inj.1 hlast
      rw [ih hbase'] at ha
      exact Option.some.inj (Except.ok.inj (ha.symm.trans hb))

/-! ### Revisions that can be printed -/

section Printable

theorem TypeNode.printable_bare (node : TypeNode) : node.bare.Printable ↔ node.Printable := by
  induction node with
  | named c n name => rfl
  | ptr c n t ih => exact ih
  | array c n t ih => exact ih

theorem ParameterNode.printable_bare (node : ParameterNode) :
    node.bare.Printable ↔ node.Printable := by
  simp [ParameterNode.Printable, ParameterNode.bare, TypeNode.printable_bare]

theorem FunctionNode.printable_bare (node : FunctionNode) :
    node.bare.Printable ↔ node.Printable := by
  simp [FunctionNode.Printable, FunctionNode.bare, ParameterNode.printable_bare]

theorem StructNode.printable_bare (node : StructNode) : node.bare.Printable ↔ node.Printable := by
  simp [StructNode.Printable, StructNode.bare, StructFieldNode.bare, TypeNode.printable_bare]

theorem BitfieldNode.printable_bare (node : BitfieldNode) :
    node.bare.Printable ↔ node.Printable := by
  simp [BitfieldNode.Printable, BitfieldNode.bare, TypeNode.printable_bare]

theorem EnumNode.printable_bare (node : EnumNode) : node.bare.Printable ↔ node.Printable := by
  simp [EnumNode.Printable, EnumNode.bare, TypeNode.printable_bare]

theorem AbiversionNode.printable_iff (node : AbiversionNode) :
    node.Printable ↔ node.annotations = [] ∧ (∀ b ∈ node.bitfields, b.Printable) ∧
      (∀ e ∈ node.enums, e.Printable) ∧ (∀ s ∈ node.structs, s.Printable) ∧
      ∀ f ∈ node.functions, f.Printable := by
  simp only [AbiversionNode.Printable, AbiversionNode.declarations, List.forall_mem_append,
    List.forall_mem_map]
  rfl

/-- Sizes and hashes do not matter. -/
theorem AbiversionNode.printable_stamp (node : AbiversionNode) (p h : Hash) :
    (node.stamp p h).Printable ↔ node.Printable := by
  simp [AbiversionNode.printable_iff, AbiversionNode.stamp, AbiversionNode.bare,
    FunctionNode.printable_bare, StructNode.printable_bare, BitfieldNode.printable_bare,
    EnumNode.printable_bare]

theorem printable_renumberFunctions {id : UInt32} {fs : List FunctionNode}
    (h : ∀ f ∈ fs, f.Printable) : ∀ f ∈ renumberFunctions id fs, f.Printable := by
  induction fs generalizing id with
  | nil => exact h
  | cons f fs ih =>
    rw [List.forall_mem_cons] at h
    rw [renumberFunctions, List.forall_mem_cons]
    exact ⟨h.1, ih h.2⟩

/-- The ids of the functions do not matter. -/
theorem printable_renumber {id : UInt32} {nodes : List AbiversionNode}
    (h : ∀ node ∈ nodes, node.Printable) : ∀ node ∈ renumber id nodes, node.Printable := by
  induction nodes generalizing id with
  | nil => exact h
  | cons node nodes ih =>
    rw [List.forall_mem_cons] at h
    obtain ⟨hannotations, hbitfields, henums, hstructs, hfunctions⟩ := node.printable_iff.1 h.1
    rw [renumber, List.forall_mem_cons]
    refine ⟨(AbiversionNode.printable_iff _).2 ⟨hannotations, hbitfields, henums, hstructs, ?_⟩,
      ih h.2⟩
    exact printable_renumberFunctions hfunctions

theorem printable_stampRevisions (interface : InterfaceNode) {previousHash : Hash}
    {nodes : List AbiversionNode} (h : ∀ node ∈ nodes, node.Printable) :
    ∀ node ∈ interface.stampRevisions previousHash nodes, node.Printable := by
  induction nodes generalizing previousHash with
  | nil => exact h
  | cons node nodes ih =>
    rw [List.forall_mem_cons] at h
    rw [InterfaceNode.stampRevisions, List.forall_mem_cons]
    exact ⟨(node.printable_stamp ..).2 h.1, ih h.2⟩

end Printable

/-! ### Compiled artifacts -/

/-- An artifact of an interface that can be printed. -/
structure Artifact (artifact : Bytes) (interface : InterfaceNode) : Prop where
  decoded : interface.Decoded
  bytes : artifact = encode interface.layout
  normalized : interface.Normalized
  printable : ∀ node ∈ interface.abiversions, node.Printable

theorem Artifact.sifRead {artifact : Bytes} {interface : InterfaceNode}
    (h : Artifact artifact interface) : sifRead artifact = .ok interface := by
  rw [h.bytes, sifRead_eq_ok_iff]
  exact ⟨h.decoded, matches_encode _⟩

/-- The artifacts of two interfaces are told apart. -/
theorem Artifact.eq_iff {a b : Bytes} {I J : InterfaceNode} (ha : Artifact a I)
    (hb : Artifact b J) : a = b ↔ I = J := by
  constructor
  · intro h
    have hread := ha.sifRead
    rw [h, hb.sifRead] at hread
    exact (Except.ok.inj hread).symm
  · rintro rfl
    rw [ha.bytes, hb.bytes]

/-- Of two artifacts with the same identity and the same revisions up to the ids, one with its
functions numbered from `0`: they are equal when the functions of the other are, too. -/
theorem Artifact.eq_iff_numberedFrom {identity : InterfaceNode} {a b : Bytes}
    {xs ys : List AbiversionNode} {m n : UInt32} (ha : Artifact a (identity.withRevisions xs m))
    (hb : Artifact b (identity.withRevisions ys n)) (hxs : NumberedFrom 0 (functionsOf xs))
    (hrenumber : renumber 0 (xs.map AbiversionNode.bare)
      = renumber 0 (ys.map AbiversionNode.bare)) :
    a = b ↔ NumberedFrom 0 (functionsOf ys) := by
  rw [ha.eq_iff hb]
  constructor
  · intro hsame
    have hrevisions : xs = ys := congrArg InterfaceNode.abiversions hsame
    rwa [← hrevisions]
  · intro hys
    have hbare : xs.map AbiversionNode.bare = ys.map AbiversionNode.bare := by
      rw [renumber_eq_self_iff.2 (numberedFrom_functionsOf_map_bare.2 hxs),
        renumber_eq_self_iff.2 (numberedFrom_functionsOf_map_bare.2 hys)] at hrenumber
      exact hrenumber
    -- the hashes only depend on the identity and the revisions
    have hstamped (zs : List AbiversionNode) (k : UInt32) :
        (identity.withRevisions zs k).stampRevisions zeroHash zs
          = identity.stampRevisions zeroHash zs :=
      InterfaceNode.stampRevisions_congr (by rfl) _ _
    have hrevisions : xs = ys :=
      calc xs = identity.stampRevisions zeroHash (xs.map AbiversionNode.bare) := by
            rw [InterfaceNode.stampRevisions_map_bare, ← hstamped xs m]
            exact ha.decoded.stamped.symm
        _ = identity.stampRevisions zeroHash (ys.map AbiversionNode.bare) := by rw [hbare]
        _ = ys := by
            rw [InterfaceNode.stampRevisions_map_bare, ← hstamped ys n]
            exact hb.decoded.stamped
    subst hrevisions
    have hnext : m = n := ha.decoded.currentFuncid.trans hb.decoded.currentFuncid.symm
    rw [hnext]

/-- The functions of a merged interface, without their sizes. -/
theorem functionsOf_merged (interface : InterfaceNode) (extensions : List InterfaceNode) :
    functionsOf (interface.merged extensions).abiversions
      = (functionsOf (allRevisions interface extensions)).map FunctionNode.bare :=
  interface.functionsOf_stampRevisions ..

theorem artifact_of_compile_none {source artifact : Bytes}
    (h : compile none source = .ok (some artifact)) :
    ∃ (interface : InterfaceNode) (nodes : List AbiversionNode),
      parseInterfaceFile source 0 0 = .ok (some interface) ∧
      interface.abiversions = renumber 0 nodes ∧ Artifact artifact (interface.merged []) := by
  obtain ⟨interface, hparse, hdecoded, hbytes⟩ := compile_none_spec h
  obtain ⟨hnormalized, nodes, hprintable, -, -, habiversions⟩ :=
    parseInterfaceFile_spec (n := 0) hparse
  refine ⟨interface, nodes, hparse, habiversions, hdecoded, hbytes, ?_, ?_⟩
  · obtain ⟨h₁, h₂, h₃, h₄, h₅, h₆⟩ := hnormalized
    exact ⟨h₁, h₂, h₃, h₄, h₅, h₆⟩
  · refine printable_stampRevisions interface ?_
    rw [allRevisions_nil, habiversions]
    exact printable_renumber hprintable

theorem artifact_of_compile_some {base source artifact : Bytes} {interface : InterfaceNode}
    (hbase : Artifact base interface) (h : compile (some base) source = .ok (some artifact)) :
    ∃ (extension : InterfaceNode) (nodes : List AbiversionNode),
      parseInterfaceFile source (UInt64.ofNat interface.abiversions.length)
        interface.currentFuncid = .ok (some extension) ∧
      extension.abiversions = renumber interface.currentFuncid nodes ∧
      Artifact artifact (interface.merged [extension]) := by
  obtain ⟨extension, hparse, -, hdecoded, hbytes⟩ := compile_some_spec hbase.sifRead h
  obtain ⟨-, nodes, hprintable, -, -, habiversions⟩ := parseInterfaceFile_spec hparse
  refine ⟨extension, nodes, hparse, habiversions, hdecoded, hbytes, ?_, ?_⟩
  · obtain ⟨h₁, h₂, h₃, h₄, h₅, h₆⟩ := hbase.normalized
    exact ⟨h₁, h₂, h₃, h₄, h₅, h₆⟩
  · refine printable_stampRevisions interface ?_
    rw [allRevisions_singleton, habiversions, List.forall_mem_append]
    exact ⟨hbase.printable, printable_renumber hprintable⟩

/-- A source declares the functions of the interface that is parsed from it. -/
theorem declares_of_parseInterfaceFile {source : Bytes} {firstAbirevision : UInt64}
    {firstFuncid : UInt32} {interface : InterfaceNode}
    (h : parseInterfaceFile source firstAbirevision firstFuncid = .ok (some interface)) :
    Declares source (functionsOf interface.abiversions).length := by
  obtain ⟨parsed, hparse, hnormalize⟩ := parseInterfaceFile_eq_some_iff.1 h
  obtain ⟨ts, hts, hdecl⟩ := Parser.parse_eq_some_iff.1 hparse
  obtain ⟨name, annotations, nodes, hname, hannotations, -, -, -, rfl⟩ :=
    Syntax.interfaceDecl_spec (Syntax.printable_of_interfaceDecl hts hdecl) hdecl
  obtain ⟨-, -, habiversions, -⟩ := normalizeInterfaceMetadata_spec hname hannotations hnormalize
  rw [habiversions]
  exact declares_of_parse hparse

/-! ### The ids of a history -/

/-- Sources with `n`, `n'`, ... functions each: whenever one declares any, the ids can go on where
those before it, `total` of them and more, have left off. -/
def IdsFitFrom : Nat → List Nat → Prop
  | _, [] => True
  | total, n :: ns => (n = 0 ∨ IdsContinue total) ∧ IdsFitFrom (total + n) ns

theorem idsFitFrom_append_singleton {total : Nat} {ns : List Nat} {n : Nat} :
    IdsFitFrom total (ns ++ [n]) ↔
      IdsFitFrom total ns ∧ (n = 0 ∨ IdsContinue (total + ns.sum)) := by
  induction ns generalizing total with
  | nil => simp [IdsFitFrom]
  | cons m ns ih =>
    rw [List.cons_append, IdsFitFrom, IdsFitFrom, ih, List.sum_cons, Nat.add_assoc, and_assoc]

/-- No source of the history declares functions where the ids cannot go on. -/
def IdsFit (sources : List Bytes) : Prop :=
  ∃ ns, List.Forall₂ Declares sources ns ∧ IdsFitFrom 0 ns

theorem idsFit_iff {sources : List Bytes} {ns : List Nat}
    (h : List.Forall₂ Declares sources ns) : IdsFit sources ↔ IdsFitFrom 0 ns := by
  constructor
  · rintro ⟨ms, hms, hfit⟩
    have hunique : Relator.RightUnique Declares := fun _ _ _ hm hn => hm.unique hn
    have hsame : ms = ns := hunique.forall₂ hms h
    rwa [hsame] at hfit
  · exact fun hfit => ⟨ns, h, hfit⟩

/-- **A compiled artifact can be printed, and its functions are numbered `0`, `1`, ... exactly when
the ids could always go on.** -/
theorem Compiled.spec {sources : List Bytes} {artifact : Bytes} (h : Compiled sources artifact) :
    ∃ (interface : InterfaceNode) (ns : List Nat), Artifact artifact interface ∧
      List.Forall₂ Declares sources ns ∧ (functionsOf interface.abiversions).length = ns.sum ∧
      (NumberedFrom 0 (functionsOf interface.abiversions) ↔ IdsFitFrom 0 ns) := by
  induction h with
  | first h =>
    obtain ⟨interface, nodes, hparse, habiversions, hartifact⟩ := artifact_of_compile_none h
    refine ⟨_, [(functionsOf interface.abiversions).length], hartifact,
      .cons (declares_of_parseInterfaceFile hparse) .nil, ?_, ?_⟩
    · rw [functionsOf_merged, allRevisions_nil, List.length_map, List.sum_singleton]
    · -- the first source starts with the id `0`
      have hzero : IdsContinue 0 := .inl (by decide)
      rw [functionsOf_merged, allRevisions_nil, numberedFrom_map_bare, habiversions,
        functionsOf_renumber, numberedFrom_renumberFunctions_iff]
      exact iff_of_true (.inr rfl) ⟨.inr hzero, trivial⟩
  | extend _ h ih =>
    obtain ⟨interface, ns, hbase, hns, hcount, hnumbered⟩ := ih
    obtain ⟨extension, nodes, hparse, habiversions, hartifact⟩ := artifact_of_compile_some hbase h
    have hall : functionsOf (interface.merged [extension]).abiversions
        = (functionsOf interface.abiversions ++ functionsOf extension.abiversions).map
            FunctionNode.bare := by
      rw [functionsOf_merged, allRevisions_singleton, functionsOf_append]
    refine ⟨_, ns ++ [(functionsOf extension.abiversions).length], hartifact,
      List.rel_append hns (.cons (declares_of_parseInterfaceFile hparse) .nil), ?_, ?_⟩
    · rw [hall, List.length_map, List.length_append, hcount, List.sum_append_nat,
        List.sum_singleton]
    · rw [hall, numberedFrom_map_bare, numberedFrom_append, idsFitFrom_append_singleton,
        ← hnumbered, Nat.zero_add, ← hcount]
      refine and_congr_right fun hbaseNumbered => ?_
      -- the extension goes on where the artifact says that the base has ended
      have hnext := ofNat_eq_nextFuncid_iff hbaseNumbered
      rw [habiversions, functionsOf_renumber, numberedFrom_renumberFunctions_iff,
        length_renumberFunctions, UInt32.zero_add, hbase.decoded.currentFuncid, hnext]

end Sidlc
