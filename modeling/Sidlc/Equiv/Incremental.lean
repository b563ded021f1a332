import Sidlc.Equiv.Recompile

/-!
# Incremental compilation

The revisions of a source can be spread over several sources with the same header. Compiling the
first and extending by the others gives the artifact of the whole source, unless a part declares
functions where the ids cannot go on (`compiled_parts_iff`).
-/

namespace Sidlc

open Grammar CellFormat Sidlc.Parser

/-! ### Lexemes of a source -/

/-- The brace that closes an interface. -/
def closing : Lexeme :=
  (op '\x7d', ascii "\x7d")

/-- The lexemes of an interface with this header and these revisions. -/
def sentence (header : List Lexeme) (revisions : List (List Lexeme)) : List Lexeme :=
  header ++ (revisions.flatten ++ [closing])

/-- The lexemes of revisions with the numbers `first`, `first + 1`, .... -/
def AreRevisions : Nat → List (List Lexeme) → Prop
  | _, [] => True
  | first, revision :: revisions =>
    (∃ result, Syntax.abirevision {} revision result ∧ result.1.version = UInt64.ofNat first) ∧
      AreRevisions (first + 1) revisions

/-- The source is an interface with this header, and its revisions are those of the parts. -/
structure SplitsInto (source : Bytes) (header : List Lexeme) (parts : List (List (List Lexeme))) :
    Prop where
  isHeader : ∃ interface, Syntax.interfaceHeader 0 header interface
  areRevisions : AreRevisions 0 parts.flatten
  isPrefix : sentence header parts.flatten <+: lexemes source

theorem areRevisions_append {first : Nat} {xs ys : List (List Lexeme)} :
    AreRevisions first (xs ++ ys) ↔
      AreRevisions first xs ∧ AreRevisions (first + xs.length) ys := by
  induction xs generalizing first with
  | nil => simp [AreRevisions]
  | cons x xs ih =>
    have hlength : first + 1 + xs.length = first + (x :: xs).length := by
      rw [List.length_cons]
      omega
    rw [List.cons_append, AreRevisions, AreRevisions, ih, hlength, and_assoc]

/-- The lexemes before the closing brace can be printed. -/
theorem printable_of_sentence {source : Bytes} {header : List Lexeme}
    {revisions : List (List Lexeme)} (h : sentence header revisions <+: lexemes source) :
    (∀ t ∈ header, PrintableLexeme t) ∧ ∀ t ∈ revisions.flatten, PrintableLexeme t := by
  obtain ⟨us, hus⟩ := h
  have hlexemes : lexemes source = (header ++ revisions.flatten) ++ closing :: us := by
    rw [← hus, sentence]
    simp
  rw [← List.forall_mem_append]
  exact printableLexeme_of_lexemes hlexemes

/-- The revisions that lexemes denote, wherever they stand. -/
structure Denote (revisions : List (List Lexeme)) (first : Nat) (nodes : List AbiversionNode) :
    Prop where
  bare : nodes.map AbiversionNode.bare = nodes
  length : nodes.length = revisions.length
  count : (functionsOf nodes).length = functionCount revisions.flatten
  iterate : ∀ (interface : InterfaceNode) (firstAbirevision : UInt64),
    firstAbirevision + UInt64.ofNat interface.abiversions.length = UInt64.ofNat first →
      Lang.iterate (Syntax.nextRevision firstAbirevision) interface revisions.flatten
        (interface.declare nodes)

theorem exists_denote {first : Nat} {revisions : List (List Lexeme)}
    (h : AreRevisions first revisions) (hts : ∀ t ∈ revisions.flatten, PrintableLexeme t) :
    ∃ nodes, Denote revisions first nodes := by
  induction revisions generalizing first with
  | nil =>
    refine ⟨[], rfl, rfl, rfl, fun interface _ _ => ?_⟩
    rw [interface.declare_nil]
    exact .done interface
  | cons revision revisions ih =>
    rw [List.flatten_cons, List.forall_mem_append] at hts
    obtain ⟨⟨result, hrevision, hversion⟩, hrest⟩ := h
    obtain ⟨nodes, hbare, hlength, hcount, hiterate⟩ := ih hrest hts.2
    have hnodeCount := Syntax.functionCount_abirevision hrevision
    obtain ⟨node, -, hnode, rfl, hother⟩ := Syntax.abirevision_spec hts.1 hrevision
    have hfunctions : node.functions.length = functionCount revision := by
      rw [← hnodeCount]
      simp [AbiversionNode.numbered, AbiversionNode.bare]
    refine ⟨node :: nodes, ?_, ?_, ?_, fun interface firstAbirevision hfirst => ?_⟩
    · rw [List.map_cons, hnode, hbare]
    · rw [List.length_cons, hlength, List.length_cons]
    · rw [functionsOf_cons, List.length_append, hcount, hfunctions, List.flatten_cons,
        functionCount_append]
    · -- the first revision takes the next number, and the rest goes on behind it
      have hstep : Syntax.nextRevision firstAbirevision interface revision
          (interface.declare [node]) := by
        rw [Syntax.declare_singleton]
        exact Syntax.nextRevision_iff.2 ⟨_, _, hother interface, hversion.trans hfirst.symm, rfl⟩
      have hnext : firstAbirevision + UInt64.ofNat (interface.declare [node]).abiversions.length
          = UInt64.ofNat (first + 1) := by
        have hsucc : (interface.declare [node]).abiversions.length
            = interface.abiversions.length + 1 := by
          simp [InterfaceNode.declare]
        rw [hsucc, UInt64.ofNat_add, ← UInt64.add_assoc, hfirst, UInt64.ofNat_add]
      have hall := hiterate (interface.declare [node]) firstAbirevision hnext
      rw [InterfaceNode.declare_declare, List.singleton_append] at hall
      exact .step hstep hall

/-- Revisions can be cut anywhere. -/
theorem Denote.append {first : Nat} {xs ys : List (List Lexeme)} {ms ns : List AbiversionNode}
    (hxs : Denote xs first ms) (hys : Denote ys (first + xs.length) ns) :
    Denote (xs ++ ys) first (ms ++ ns) where
  bare := by rw [List.map_append, hxs.bare, hys.bare]
  length := by rw [List.length_append, hxs.length, hys.length, List.length_append]
  count := by
    rw [functionsOf_append, List.length_append, hxs.count, hys.count, List.flatten_append,
      functionCount_append]
  iterate interface firstAbirevision hfirst := by
    have hnext : firstAbirevision + UInt64.ofNat (interface.declare ms).abiversions.length
        = UInt64.ofNat (first + xs.length) := by
      have hlength : (interface.declare ms).abiversions.length
          = interface.abiversions.length + xs.length := by
        simp [InterfaceNode.declare, hxs.length]
      rw [hlength, UInt64.ofNat_add, ← UInt64.add_assoc, hfirst, UInt64.ofNat_add]
    rw [List.flatten_append, ← InterfaceNode.declare_declare]
    exact (hxs.iterate interface firstAbirevision hfirst).append
      (hys.iterate (interface.declare ms) firstAbirevision hnext)

/-- Parts of a source and the revisions of each. -/
inductive DenoteParts : Nat → List (List (List Lexeme)) → List (List AbiversionNode) → Prop
  | nil (first : Nat) : DenoteParts first [] []
  | cons {first : Nat} {part : List (List Lexeme)} {parts : List (List (List Lexeme))}
      {nodes : List AbiversionNode} {rest : List (List AbiversionNode)}
      (h : Denote part first nodes) (hrest : DenoteParts (first + part.length) parts rest) :
      DenoteParts first (part :: parts) (nodes :: rest)

theorem exists_denoteParts {first : Nat} {parts : List (List (List Lexeme))}
    (h : AreRevisions first parts.flatten)
    (hts : ∀ t ∈ parts.flatten.flatten, PrintableLexeme t) :
    ∃ nodes, DenoteParts first parts nodes := by
  induction parts generalizing first with
  | nil => exact ⟨[], .nil first⟩
  | cons part parts ih =>
    rw [List.flatten_cons, areRevisions_append] at h
    rw [List.flatten_cons, List.flatten_append, List.forall_mem_append] at hts
    obtain ⟨nodes, hnodes⟩ := exists_denote h.1 hts.1
    obtain ⟨rest, hrest⟩ := ih h.2 hts.2
    exact ⟨nodes :: rest, .cons hnodes hrest⟩

theorem DenoteParts.flatten {first : Nat} {parts : List (List (List Lexeme))}
    {nodes : List (List AbiversionNode)} (h : DenoteParts first parts nodes) :
    Denote parts.flatten first nodes.flatten := by
  induction h with
  | nil first =>
    refine ⟨rfl, rfl, rfl, fun interface firstAbirevision _ => ?_⟩
    show Lang.iterate (Syntax.nextRevision firstAbirevision) interface [] (interface.declare [])
    rw [interface.declare_nil]
    exact .done interface
  | cons h _ ih => exact h.append ih

/-! ### Sources that were printed -/

/-- The text before the revisions of a printed interface. -/
def headerText (interface : InterfaceNode) : Bytes :=
  decompileAnnotations (interface.identityAnnotations ++ interface.annotations) 0 ++
    (ascii "interface " ++ (interface.name ++ ascii " \x7b\n"))

/-- The lexemes of printed revisions. -/
def revisionLexemes (nodes : List AbiversionNode) : List (List Lexeme) :=
  nodes.map fun node => lexemes (decompileAbirevision node)

theorem revisionLexemes_append (xs ys : List AbiversionNode) :
    revisionLexemes (xs ++ ys) = revisionLexemes xs ++ revisionLexemes ys :=
  List.map_append

section Printed

variable {nodes : List AbiversionNode} (h : ∀ node ∈ nodes, node.Printable)

include h

theorem areRevisions_revisionLexemes {first : Nat} (hversions : VersionsFrom first nodes) :
    AreRevisions first (revisionLexemes nodes) := by
  induction nodes generalizing first with
  | nil => trivial
  | cons node nodes ih =>
    rw [List.forall_mem_cons] at h
    exact ⟨⟨_, ((prints_abirevision h.1 {}).self lexemes_nil).1, hversions.1⟩, ih h.2 hversions.2⟩

theorem functionCount_revisionLexemes :
    functionCount (revisionLexemes nodes).flatten = (functionsOf nodes).length := by
  induction nodes with
  | nil => rfl
  | cons node nodes ih =>
    rw [List.forall_mem_cons] at h
    have hnode := Syntax.functionCount_abirevision ((prints_abirevision h.1 {}).self lexemes_nil).1
    have hlength : (node.numbered 0).functions.length = node.functions.length := by
      simp [AbiversionNode.numbered, AbiversionNode.bare]
    have hcons : revisionLexemes (node :: nodes)
        = lexemes (decompileAbirevision node) :: revisionLexemes nodes := rfl
    rw [hcons, List.flatten_cons, functionCount_append, ih h.2, ← hnode, functionsOf_cons,
      List.length_append]
    exact congrArg (· + _) hlength

theorem lexemes_separatedBy (r : Bytes) :
    lexemes (separatedBy (ascii "\n") decompileAbirevision nodes ++ r)
      = (revisionLexemes nodes).flatten ++ lexemes r := by
  induction nodes using separatedBy.induct with
  | case1 => rfl
  | case2 node =>
    rw [List.forall_mem_singleton] at h
    rw [separatedBy, ((prints_abirevision h {}).self lexemes_nil).2]
    simp [revisionLexemes]
  | case3 node nodes hne ih =>
    rw [List.forall_mem_cons] at h
    rw [separatedBy_cons hne, List.append_assoc, List.append_assoc,
      ((prints_abirevision h.1 {}).self lexemes_nil).2, lexemes_blanks blank_newline, ih h.2]
    simp [revisionLexemes]

end Printed

/-- The lexemes of a printed interface. -/
theorem lexemes_decompileInterface {interface : InterfaceNode} (h : interface.Printable) :
    lexemes (decompileInterface interface)
      = sentence (lexemes (headerText interface)) (revisionLexemes interface.abiversions) := by
  have hclosing : lexemes (ascii "\x7d\n") = [closing] := by
    show lexemes (chr '\x7d' :: ascii "\n") = _
    rw [lexemes_operator (isOperator_spec _ (by decide)), ← List.append_nil (ascii "\n"),
      lexemes_blanks blank_newline, lexemes_nil]
    rfl
  have htext : decompileInterface interface = headerText interface ++
      (separatedBy (ascii "\n") decompileAbirevision interface.abiversions ++ ascii "\x7d\n") := by
    rw [decompileInterface_eq, headerText]
    simp only [List.append_assoc]
  rw [htext, sentence, ← hclosing, ← lexemes_separatedBy h.revisions]
  exact ((prints_header h 0).self lexemes_nil).2 _

/-! ### Parsing a part -/

/-- The header denotes the identity, whatever the first free id is. -/
def Heads (header : List Lexeme) (identity : InterfaceNode) : Prop :=
  ∀ firstFuncid, ∃ interface, Syntax.interfaceHeader firstFuncid header interface ∧
    interface.abiversions = [] ∧ interface.currentFuncid = firstFuncid ∧
    normalizeInterfaceMetadata interface = .ok (identity.withRevisions [] firstFuncid)

variable {header : List Lexeme} {identity : InterfaceNode}

theorem interfaceDecl_sentence {revisions : List (List Lexeme)} {first : Nat}
    {nodes : List AbiversionNode} (hnodes : Denote revisions first nodes) {firstFuncid : UInt32}
    {interface : InterfaceNode} (hheader : Syntax.interfaceHeader firstFuncid header interface)
    (hempty : interface.abiversions = []) :
    Syntax.interfaceDecl (UInt64.ofNat first) firstFuncid (sentence header revisions)
      (interface.declare nodes) := by
  have hfirst : UInt64.ofNat first + UInt64.ofNat interface.abiversions.length
      = UInt64.ofNat first := by
    rw [hempty]
    exact UInt64.add_zero _
  exact ⟨_, header, _, rfl, hheader, _, _, _, rfl, hnodes.iterate interface _ hfirst, (), [closing],
    [], rfl, ⟨closing, rfl, if_pos rfl⟩, rfl, rfl⟩

/-- A source with the header and some revisions is parsed into the identity with these revisions. -/
theorem parseInterfaceFile_sentence (hheader : Heads header identity)
    {revisions : List (List Lexeme)} {first : Nat} {nodes : List AbiversionNode}
    (hnodes : Denote revisions first nodes) {source : Bytes}
    (hsource : sentence header revisions <+: lexemes source) (firstFuncid : UInt32) :
    parseInterfaceFile source (UInt64.ofNat first) firstFuncid
      = .ok (some (identity.withRevisions (renumber firstFuncid nodes)
          (firstFuncid + UInt32.ofNat (functionsOf nodes).length))) := by
  obtain ⟨interface, hinterface, hempty, hfuncid, hnormalize⟩ := hheader firstFuncid
  have hdecl := interfaceDecl_sentence hnodes hinterface hempty
  refine parseInterfaceFile_eq_some_iff.2 ⟨_, parse_eq_some_iff.2 ⟨_, hsource, hdecl⟩, ?_⟩
  have habiversions : (interface.declare nodes).abiversions = renumber firstFuncid nodes := by
    rw [InterfaceNode.declare, hempty, hfuncid, hnodes.bare, List.nil_append]
  have hnext : (interface.declare nodes).currentFuncid
      = firstFuncid + UInt32.ofNat (functionsOf nodes).length := by
    rw [InterfaceNode.declare, hfuncid]
  rw [InterfaceNode.declare_eq_withRevisions, normalizeInterfaceMetadata_withRevisions, hnormalize,
    habiversions, hnext]
  rfl

/-- The header of a source that compiles denotes an identity. -/
theorem exists_heads {source : Bytes} {interface : InterfaceNode} {revisions : List (List Lexeme)}
    (hparse : parseInterfaceFile source 0 0 = .ok (some interface))
    (hsource : sentence header revisions <+: lexemes source)
    (hheader : ∃ interface, Syntax.interfaceHeader 0 header interface)
    {nodes : List AbiversionNode} (hnodes : Denote revisions 0 nodes) :
    ∃ identity, Heads header identity := by
  obtain ⟨_, hzero⟩ := hheader
  obtain ⟨name, annotations, -, -, -, hother⟩ :=
    Syntax.interfaceHeader_spec (printable_of_sentence hsource).1 hzero
  have hdecl : Syntax.interfaceDecl (UInt64.ofNat 0) 0 (sentence header revisions) _ :=
    interfaceDecl_sentence hnodes (hother 0) rfl
  obtain ⟨parsed, hparsed, hnormalize⟩ := parseInterfaceFile_eq_some_iff.1 hparse
  obtain rfl := Option.some.inj (Except.ok.inj
    ((parse_eq_some_iff.2 ⟨_, hsource, hdecl⟩).symm.trans hparsed))
  rw [InterfaceNode.declare_eq_withRevisions,
    normalizeInterfaceMetadata_withRevisions] at hnormalize
  -- the metadata is that of the header, whatever the revisions are
  cases hidentity : normalizeInterfaceMetadata { name, annotations, currentFuncid := 0 } with
  | error e =>
    rw [hidentity] at hnormalize
    exact nomatch hnormalize
  | ok identity =>
    refine ⟨identity, fun firstFuncid => ⟨_, hother firstFuncid, rfl, rfl, ?_⟩⟩
    have h := normalizeInterfaceMetadata_withRevisions { name, annotations, currentFuncid := 0 } []
      firstFuncid
    rw [hidentity] at h
    exact h

/-! ### Compiling the parts -/

/-- The parts after the first extend the artifact one after the other. -/
theorem Compiled.extend_parts (hheader : Heads header identity) {first : Nat}
    {parts : List (List (List Lexeme))} {nodes : List (List AbiversionNode)}
    (hparts : DenoteParts first parts nodes) {sources : List Bytes}
    (hsources : List.Forall₂ (fun source part => sentence header part <+: lexemes source) sources
      parts) {before : List Bytes} {base : Bytes} {abiversions : List AbiversionNode}
    {currentFuncid : UInt32} (hbefore : Compiled before base)
    (hbase : Artifact base (identity.withRevisions abiversions currentFuncid))
    (hlength : abiversions.length = first)
    (hencodable : ∀ node ∈ nodes.flatten, node.Encodable)
    (hcountable : first + nodes.flatten.length < 2 ^ 32) :
    ∃ (artifact : Bytes) (result : List AbiversionNode) (nextFuncid : UInt32),
      Compiled (before ++ sources) artifact ∧
      Artifact artifact (identity.withRevisions result nextFuncid) ∧
      renumber 0 (result.map AbiversionNode.bare)
        = renumber 0 (abiversions.map AbiversionNode.bare ++ nodes.flatten) := by
  induction hparts generalizing sources before base abiversions currentFuncid with
  | nil first =>
    cases hsources
    exact ⟨base, abiversions, currentFuncid, by rwa [List.append_nil], hbase, by simp⟩
  | @cons first part parts nodes rest hnodes hrest ih =>
    obtain _ | ⟨hsource, hsources⟩ := hsources
    rw [List.flatten_cons, List.forall_mem_append] at hencodable
    rw [List.flatten_cons, List.length_append] at hcountable
    have hparse := parseInterfaceFile_sentence hheader hnodes hsource currentFuncid
    have hnumber : UInt64.ofNat first = UInt64.ofNat abiversions.length := by rw [hlength]
    rw [hnumber] at hparse
    have hcompile := compile_some_of_parse hbase.sifRead hparse
      (encodable_renumber.2 hencodable.1) (by
        show abiversions.length + _ < _
        rw [length_renumber]
        omega)
    obtain ⟨extension, -, hextension, -, hartifact⟩ := artifact_of_compile_some hbase hcompile
    obtain rfl := Option.some.inj (Except.ok.inj (hparse.symm.trans hextension))
    -- the base and the part, with the ids they have got
    have hmerged : ((identity.withRevisions abiversions currentFuncid).merged
        [identity.withRevisions (renumber currentFuncid nodes)
          (currentFuncid + UInt32.ofNat (functionsOf nodes).length)]).abiversions.map
            AbiversionNode.bare
        = abiversions.map AbiversionNode.bare ++ renumber currentFuncid nodes := by
      show (InterfaceNode.stampRevisions _ _ (allRevisions _ _)).map _ = _
      rw [InterfaceNode.map_bare_stampRevisions, allRevisions_singleton, List.map_append]
      show _ ++ (renumber currentFuncid nodes).map AbiversionNode.bare = _
      rw [map_bare_renumber, hnodes.bare]
      rfl
    have hlength' := congrArg List.length hmerged
    rw [List.length_map, List.length_append, List.length_map, length_renumber, hlength,
      hnodes.length] at hlength'
    obtain ⟨artifact, result, nextFuncid, hcompiled, hresult, hrenumber⟩ :=
      ih hsources (hbefore.extend hcompile) hartifact hlength' hencodable.2 (by
        rw [hnodes.length] at hcountable
        omega)
    refine ⟨artifact, result, nextFuncid, ?_, hresult, ?_⟩
    · rwa [List.append_assoc, List.singleton_append] at hcompiled
    · rw [hrenumber]
      refine (congrArg (fun xs => renumber 0 (xs ++ rest.flatten)) hmerged).trans ?_
      simp only [List.flatten_cons, renumber_append, renumber_renumber, functionsOf_renumber,
        length_renumberFunctions, List.append_assoc]

/-- A part declares the functions that its lexemes count. -/
theorem declares_sentence (hheader : Heads header identity) {revisions : List (List Lexeme)}
    {first : Nat} {nodes : List AbiversionNode} (hnodes : Denote revisions first nodes)
    {source : Bytes} (hsource : sentence header revisions <+: lexemes source) :
    Declares source (functionCount revisions.flatten) := by
  have hdeclares := declares_of_parseInterfaceFile
    (parseInterfaceFile_sentence hheader hnodes hsource 0)
  have hcount : (functionsOf (renumber 0 nodes)).length = functionCount revisions.flatten := by
    rw [functionsOf_renumber, length_renumberFunctions, hnodes.count]
  rwa [← hcount]

theorem forall₂_declares (hheader : Heads header identity) {first : Nat}
    {parts : List (List (List Lexeme))} {nodes : List (List AbiversionNode)}
    (hparts : DenoteParts first parts nodes) {sources : List Bytes}
    (hsources : List.Forall₂ (fun source part => sentence header part <+: lexemes source) sources
      parts) :
    List.Forall₂ Declares sources (parts.map fun part => functionCount part.flatten) := by
  induction hparts generalizing sources with
  | nil first =>
    cases hsources
    exact .nil
  | cons hnodes _ ih =>
    obtain _ | ⟨hsource, hsources⟩ := hsources
    exact .cons (declares_sentence hheader hnodes hsource) (ih hsources)

/-- The revisions of an artifact that was compiled by itself. -/
theorem map_bare_merged_nil (identity : InterfaceNode) {nodes : List AbiversionNode}
    (h : nodes.map AbiversionNode.bare = nodes) (currentFuncid : UInt32) :
    ((identity.withRevisions (renumber 0 nodes) currentFuncid).merged []).abiversions.map
      AbiversionNode.bare = renumber 0 nodes := by
  show (InterfaceNode.stampRevisions _ _ (allRevisions _ [])).map _ = _
  rw [InterfaceNode.map_bare_stampRevisions, allRevisions_nil]
  show (renumber 0 nodes).map AbiversionNode.bare = _
  rw [map_bare_renumber, h]

/-- The parts of a source that compiles do, too, and their artifact has the revisions of the source,
up to the ids. -/
theorem exists_compiled_parts (hheader : Heads header identity) {part : List (List Lexeme)}
    {parts : List (List (List Lexeme))} (hpart : part ≠ []) {all : List (List AbiversionNode)}
    (hall : DenoteParts 0 (part :: parts) all) {source : Bytes} {sources : List Bytes}
    (hsources : List.Forall₂ (fun source part => sentence header part <+: lexemes source)
      (source :: sources) (part :: parts)) {currentFuncid : UInt32}
    (hwritable : Writable (identity.withRevisions (renumber 0 all.flatten) currentFuncid) []) :
    ∃ (artifact : Bytes) (result : List AbiversionNode) (nextFuncid : UInt32),
      Compiled (source :: sources) artifact ∧
      Artifact artifact (identity.withRevisions result nextFuncid) ∧
      renumber 0 (result.map AbiversionNode.bare) = renumber 0 all.flatten := by
  obtain ⟨huuid, hpre, hidentity, -, hcountable, hencodable⟩ := hwritable
  rw [allRevisions_nil] at hcountable hencodable
  have hlength : all.flatten.length < 2 ^ 32 := by
    rw [← length_renumber 0]
    exact hcountable
  have hflatten : ∀ node ∈ all.flatten, node.Encodable := encodable_renumber.1 hencodable
  obtain _ | ⟨hsource, hsources⟩ := hsources
  cases hall with
  | @cons _ _ _ nodes rest hfirst hrest =>
    rw [List.flatten_cons, List.forall_mem_append] at hflatten
    rw [List.flatten_cons, List.length_append] at hlength
    -- the first part is a source of its own
    obtain ⟨next, hparse⟩ : ∃ next, parseInterfaceFile source 0 0
        = .ok (some (identity.withRevisions (renumber 0 nodes) next)) :=
      ⟨_, parseInterfaceFile_sentence hheader hfirst hsource 0⟩
    have hwrite : Writable (identity.withRevisions (renumber 0 nodes) next) [] := by
      refine ⟨huuid, hpre, hidentity, ?_, ?_, ?_⟩
      · rw [allRevisions_nil, ne_eq, ← List.length_eq_zero_iff]
        show ¬ (renumber 0 nodes).length = 0
        rw [length_renumber, hfirst.length, List.length_eq_zero_iff]
        exact hpart
      · rw [allRevisions_nil, Countable]
        show (renumber 0 nodes).length < 2 ^ 32
        rw [length_renumber]
        omega
      · rw [allRevisions_nil]
        exact encodable_renumber.2 hflatten.1
    have hcompile := compile_none_eq_some_iff.2 ⟨_, hparse, (sifWrite_eq_ok_iff ..).2 ⟨hwrite, rfl⟩⟩
    obtain ⟨_, -, hparsed, -, hbase⟩ := artifact_of_compile_none hcompile
    obtain rfl := Option.some.inj (Except.ok.inj (hparse.symm.trans hparsed))
    have hmerged := map_bare_merged_nil identity hfirst.bare next
    -- the others extend it
    have hbaseLength := congrArg List.length hmerged
    rw [List.length_map, length_renumber, hfirst.length, ← Nat.zero_add part.length] at hbaseLength
    obtain ⟨artifact, result, nextFuncid, hcompiled, hresult, hrenumber⟩ :=
      Compiled.extend_parts hheader hrest hsources (.first hcompile) hbase hbaseLength hflatten.2
        (by
          rw [hfirst.length] at hlength
          omega)
    refine ⟨artifact, result, nextFuncid, hcompiled, hresult, ?_⟩
    rw [hrenumber]
    refine (congrArg (fun xs => renumber 0 (xs ++ rest.flatten)) hmerged).trans ?_
    simp only [List.flatten_cons, renumber_append, renumber_renumber, functionsOf_renumber,
      length_renumberFunctions]

/-- **Incremental compilation gives the artifact of the whole source exactly when the ids fit**: the
source is split into parts, each a source with the same header and some of the revisions; compiling
the first part and extending by the others succeeds with the same artifact if and only if no part
declares functions where the ids of those before it cannot go on. -/
theorem compiled_parts_iff (source artifact : Bytes) (header : List Lexeme)
    (part : List (List Lexeme)) (parts : List (List (List Lexeme))) (partSource : Bytes)
    (partSources : List Bytes) (hsource : compile none source = .ok (some artifact))
    (hsplit : SplitsInto source header (part :: parts)) (hpart : part ≠ [])
    (hparts : List.Forall₂ (fun source part => sentence header part <+: lexemes source)
      (partSource :: partSources) (part :: parts)) :
    Compiled (partSource :: partSources) artifact ↔
      IdsFitFrom 0 ((part :: parts).map fun part => functionCount part.flatten) := by
  obtain ⟨nodes, hnodes⟩ := exists_denoteParts hsplit.areRevisions
    (printable_of_sentence hsplit.isPrefix).2
  obtain ⟨interface, -, hparse, -, hartifact⟩ := artifact_of_compile_none hsource
  obtain ⟨identity, hheader⟩ := exists_heads hparse hsplit.isPrefix hsplit.isHeader hnodes.flatten
  obtain ⟨next, hwhole⟩ : ∃ next, parseInterfaceFile source 0 0
      = .ok (some (identity.withRevisions (renumber 0 nodes.flatten) next)) :=
    ⟨_, parseInterfaceFile_sentence hheader hnodes.flatten hsplit.isPrefix 0⟩
  obtain rfl := Option.some.inj (Except.ok.inj (hparse.symm.trans hwhole))
  have hwritable : Writable (identity.withRevisions (renumber 0 nodes.flatten) next) [] := by
    obtain ⟨_, hparse', hwrite⟩ := compile_none_eq_some_iff.1 hsource
    obtain rfl := Option.some.inj (Except.ok.inj (hparse.symm.trans hparse'))
    exact ((sifWrite_eq_ok_iff ..).1 hwrite).1
  have hmerged := map_bare_merged_nil identity hnodes.flatten.bare next
  obtain ⟨incremental, result, nextFuncid, hcompiled, hincremental, hrenumber⟩ :=
    exists_compiled_parts hheader hpart hnodes hparts hwritable
  have hunique : Compiled (partSource :: partSources) artifact ↔ artifact = incremental := by
    constructor
    · exact fun h => h.unique hcompiled
    · rintro rfl
      exact hcompiled
  -- the functions of the whole source are numbered, those of the parts if the ids fit
  have hnumbered : NumberedFrom 0
      (functionsOf
        ((identity.withRevisions (renumber 0 nodes.flatten) next).merged []).abiversions) := by
    rw [← numberedFrom_functionsOf_map_bare, hmerged, functionsOf_renumber,
      numberedFrom_renumberFunctions_iff]
    exact .inr rfl
  obtain ⟨_, ns, hspec, hns, -, hfit⟩ := hcompiled.spec
  obtain rfl := (hincremental.eq_iff hspec).1 rfl
  have hwhole : Artifact artifact (identity.withRevisions
      ((identity.withRevisions (renumber 0 nodes.flatten) next).merged []).abiversions _) :=
    hartifact
  rw [hunique, hwhole.eq_iff_numberedFrom hincremental hnumbered (by rw [hmerged, hrenumber,
    renumber_renumber])]
  refine hfit.trans ?_
  rw [← idsFit_iff hns, idsFit_iff (forall₂_declares hheader hnodes hparts)]

/-- The lexemes of a header like that of the sample. -/
def sampleHeader : List Lexeme :=
  lexemes (headerText (sampleInterface []))

theorem printable_repeated (first : Nat) (ns : List Nat) :
    (sampleInterface (repeatedRevisions first ns)).Printable := by
  have h := normalized_sampleInterface (repeatedRevisions first ns)
  exact ⟨h.name, h.uuidName, h.prefixStr, fun node hnode => (h.annotations node hnode).1,
    printable_repeatedRevisions first ns⟩

theorem sentence_repeatedSource (first : Nat) (ns : List Nat) :
    sentence sampleHeader (revisionLexemes (repeatedRevisions first ns))
      <+: lexemes (repeatedSource first ns) := by
  rw [repeatedSource, lexemes_decompileInterface (printable_repeated first ns)]
  exact List.prefix_refl _

/-- The revisions of a source can be cut in two. -/
theorem splitsInto_repeatedSource (ms ns : List Nat) :
    SplitsInto (repeatedSource 0 (ms ++ ns)) sampleHeader
      [revisionLexemes (repeatedRevisions 0 ms),
        revisionLexemes (repeatedRevisions ms.length ns)] := by
  have hflatten : [revisionLexemes (repeatedRevisions 0 ms),
      revisionLexemes (repeatedRevisions ms.length ns)].flatten
        = revisionLexemes (repeatedRevisions 0 (ms ++ ns)) := by
    rw [repeatedRevisions_append, Nat.zero_add, revisionLexemes_append]
    simp
  refine ⟨⟨_, ((prints_header (printable_repeated 0 []) 0).self lexemes_nil).1⟩, ?_, ?_⟩
  · rw [hflatten]
    exact areRevisions_revisionLexemes (printable_repeatedRevisions _ _)
      (versionsFrom_repeatedRevisions _ _)
  · rw [hflatten]
    exact sentence_repeatedSource 0 (ms ++ ns)

/-- A source with revisions of `2 ^ 32 - 1` functions, one function and one function again, cut
before the last revision. -/
theorem not_compiled_repeatedSources :
    ∃ artifact, compile none (repeatedSource 0 [2 ^ 32 - 1, 1, 1]) = .ok (some artifact) ∧
      SplitsInto (repeatedSource 0 [2 ^ 32 - 1, 1, 1]) sampleHeader
        [revisionLexemes (repeatedRevisions 0 [2 ^ 32 - 1, 1]),
          revisionLexemes (repeatedRevisions 2 [1])] ∧
      sentence sampleHeader (revisionLexemes (repeatedRevisions 0 [2 ^ 32 - 1, 1]))
        <+: lexemes (repeatedSource 0 [2 ^ 32 - 1, 1]) ∧
      sentence sampleHeader (revisionLexemes (repeatedRevisions 2 [1]))
        <+: lexemes (repeatedSource 2 [1]) ∧
      ¬ Compiled [repeatedSource 0 [2 ^ 32 - 1, 1], repeatedSource 2 [1]] artifact := by
  obtain ⟨artifact, _, _, hcompile, -, -⟩ :=
    compile_repeatedSource [2 ^ 32 - 1, 1, 1] (by simp) (by decide) (by decide)
  refine ⟨artifact, hcompile, splitsInto_repeatedSource [2 ^ 32 - 1, 1] [1],
    sentence_repeatedSource .., sentence_repeatedSource .., fun hparts => ?_⟩
  -- the artifact has its functions numbered, and would not if it came from the parts
  obtain ⟨I, ns, hI, hns, -, hnumbered⟩ := (Compiled.first hcompile).spec
  obtain ⟨J, ms, hJ, hms, -, hfit⟩ := hparts.spec
  obtain rfl := (hI.eq_iff hJ).1 rfl
  have hwhole : IdsFitFrom 0 ns := by
    obtain _ | ⟨-, hnil⟩ := hns
    cases hnil
    exact ⟨.inr (.inl (by decide)), trivial⟩
  have hdeclares : List.Forall₂ Declares
      [repeatedSource 0 [2 ^ 32 - 1, 1], repeatedSource 2 [1]] [2 ^ 32, 1] :=
    .cons (declares_repeatedSource 0 _) (.cons (declares_repeatedSource 2 _) .nil)
  have hms' : IdsFitFrom 0 [2 ^ 32, 1] :=
    (idsFit_iff hdeclares).1 ((idsFit_iff hms).2 (hfit.1 (hnumbered.2 hwhole)))
  obtain ⟨-, hone, -⟩ := hms'
  exact absurd hone (by decide)

/-- With one function in each revision it does not matter where a source is cut. -/
theorem compiled_repeatedSources_sample :
    ∃ artifact, compile none (repeatedSource 0 [1, 1, 1]) = .ok (some artifact) ∧
      Compiled [repeatedSource 0 [1, 1], repeatedSource 2 [1]] artifact := by
  obtain ⟨artifact, _, _, hcompile, -, -⟩ :=
    compile_repeatedSource [1, 1, 1] (by simp) (by decide) (by decide)
  refine ⟨artifact, hcompile, ?_⟩
  refine (compiled_parts_iff _ artifact sampleHeader _ _ _ _ hcompile
    (splitsInto_repeatedSource [1, 1] [1]) (by simp [revisionLexemes, repeatedRevisions])
    (.cons (sentence_repeatedSource 0 _) (.cons (sentence_repeatedSource 2 _) .nil))).2 ?_
  have hcount (first : Nat) (ns : List Nat) :
      functionCount (revisionLexemes (repeatedRevisions first ns)).flatten = ns.sum := by
    rw [functionCount_revisionLexemes (printable_repeatedRevisions first ns),
      length_functionsOf_repeatedRevisions]
  simp only [List.map_cons, List.map_nil, hcount]
  exact ⟨.inr (.inl (by decide)), .inr (.inl (by decide)), trivial⟩

end Sidlc
