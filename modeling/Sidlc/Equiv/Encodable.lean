import Sidlc.Equiv.Recompile

/-!
# Every source that parses can be written

The counts of an artifact have thirty-two bits. A source of fewer than `2 ^ 32` bytes has fewer
tokens than that, so that none of the lists and strings it denotes is too long (`Bounds` goes
through the grammar with the number of tokens). `sif_write` therefore refuses nothing that the
parser and the metadata let through but an interface without revisions.
-/

namespace Sidlc

open Grammar Grammar.Lang StateExcept

/-! ### The lexemes of a short source -/

/-- A lexeme is no longer than the text it is scanned from. -/
theorem length_scan_text_le (c : UInt8) (r : Bytes) : (scan c r).1.2.length ≤ r.length + 1 := by
  have htake (p : UInt8 → Bool) (r : Bytes) := (List.takeWhile_prefix (l := r) p).length_le
  unfold scan
  split_ifs with h₁ h₂ h₃ h₄
  · exact htake _ (c :: r)
  · cases r with
    | nil => exact Nat.le_refl 1
    | cons d r =>
      have := htake isXdigit r
      have := htake (fun e => e == chr '0' || e == chr '1') r
      have := htake isDigit (d :: r)
      simp only [scanNumber]
      split_ifs <;> simp only [List.length_cons, List.length_nil] at * <;> omega
  · exact htake isDigit (c :: r)
  · rw [List.length_take, List.length_cons]
    exact Nat.min_le_right ..
  · exact Nat.le_add_left 1 _
  · exact Nat.le_add_left 1 _

theorem length_lexeme_le {r : Bytes} {t : Lexeme} (h : t ∈ lexemes r) : t.2.length ≤ r.length := by
  induction r using lexemes.induct with
  | case1 r hgap =>
    rw [lexemes_of_gap_nil hgap] at h
    exact absurd h List.not_mem_nil
  | case2 r c r' hgap ih =>
    have hlength := length_skipGap_le r
    have hscan := length_scan_le c r'
    have htext := length_scan_text_le c r'
    rw [hgap, List.length_cons] at hlength
    rw [lexemes_of_gap_cons hgap, List.mem_cons] at h
    rcases h with rfl | h
    · omega
    · have := ih h
      omega

/-- The text of the lexeme can be written as a string. -/
def ShortLexeme (t : Lexeme) : Prop :=
  Countable t.2

namespace Syntax

/-! ### Terminals -/

theorem bounds_token (type : TokenType) : Bounds ShortLexeme (token type) fun n _ => n = 1 :=
  bounds_terminal fun _ _ _ _ => rfl

theorem bounds_identifier : Bounds ShortLexeme identifier (Fits (2 ^ 32) Countable) := by
  refine bounds_terminal fun t name ht hname => ⟨Nat.one_pos, fun _ => ?_⟩
  split_ifs at hname
  rwa [← Option.some.inj hname]

theorem bounds_string : Bounds ShortLexeme string (Fits (2 ^ 32) Countable) := by
  refine bounds_terminal fun t text ht htext => ⟨Nat.one_pos, fun _ => ?_⟩
  split_ifs at htext
  rwa [← Option.some.inj htext]

theorem bounds_number : Bounds ShortLexeme number fun n _ => n = 1 :=
  bounds_terminal fun _ _ _ _ => rfl

/-! ### Annotations and types -/

theorem bounds_argument :
    Bounds ShortLexeme argument (Fits (2 ^ 32) ExpressionNode.Encodable) :=
  .or (.bind bounds_identifier fun _ _ hname => .pure hname)
    (.or (.bind bounds_string fun _ _ htext => .pure htext)
      (.bind bounds_number fun _ _ hn => .pure ⟨by omega, fun _ => trivial⟩))

theorem bounds_annotation :
    Bounds ShortLexeme annotation (Fits (2 ^ 32) AnnotationNode.Encodable) := by
  refine .bind (bounds_token _) fun _ _ hat => ?_
  refine .bind bounds_identifier fun name _ hname => ?_
  refine .bind (bounds_token _) fun _ _ hopen => ?_
  refine .bind (.sepBy (fun _ _ _ hmn h => h.mono hmn) (fun _ _ h => .collect bounds_argument h)
    (allFit_nil 0)) fun args _ hargs => ?_
  refine .bind (bounds_token _) fun _ _ hclose => .pure ?_
  refine ⟨by omega, fun hn => ⟨hname.2 (by omega), ?_, hargs.2 (by omega)⟩⟩
  exact Nat.lt_of_le_of_lt hargs.1 (by omega)

theorem bounds_annotations :
    Bounds ShortLexeme annotations (AllFit (2 ^ 32) AnnotationNode.Encodable) := by
  refine Bounds.mono (.iterate (fun _ _ h => .collect bounds_annotation h) (allFit_nil 0)) ?_
  intro n nodes h
  rwa [Nat.zero_add] at h

theorem bounds_type : Bounds ShortLexeme type (Fits (2 ^ 32) TypeNode.Encodable) := by
  have hidentifier {ts : List Lexeme} {name : Bytes} (hts : ∀ t ∈ ts, ShortLexeme t)
      (h : identifier ts name) : Fits (2 ^ 32) Countable ts.length name :=
    bounds_identifier ts name hts h
  intro ts node hts h
  induction h with
  | named hc hname =>
    rw [List.forall_mem_append] at hts
    obtain ⟨hpos, hshort⟩ := hidentifier hts.2 hname
    rw [List.length_append]
    exact ⟨by omega, fun hn => hshort (by omega)⟩
  | ptr hc hk hl ht hr ih | array hc hk hl ht hr ih =>
    simp only [List.forall_mem_append] at hts
    obtain ⟨hpos, hshort⟩ := ih hts.2.2.2.1
    simp only [List.length_append]
    exact ⟨by omega, fun hn => hshort (by omega)⟩

/-! ### Declarations -/

theorem bounds_direction : Bounds ShortLexeme direction fun n _ => n = 1 :=
  .or (.bind (bounds_token _) fun _ _ hn => .pure hn)
    (.or (.bind (bounds_token _) fun _ _ hn => .pure hn)
      (.bind (bounds_token _) fun _ _ hn => .pure hn))

theorem bounds_parameter :
    Bounds ShortLexeme parameter (Fits (2 ^ 32) ParameterNode.Encodable) := by
  refine .bind bounds_annotations fun annotations _ hannotations => ?_
  refine .bind bounds_direction fun _ _ hdirection => ?_
  refine .bind bounds_type fun type _ htype => ?_
  refine .bind bounds_identifier fun name _ hname => .pure ?_
  refine ⟨by omega, fun hn => ⟨⟨?_, hannotations.2 (by omega)⟩, htype.2 (by omega),
    hname.2 (by omega)⟩⟩
  exact Nat.lt_of_le_of_lt hannotations.1 (by omega)

theorem bounds_structField {fields : List StructFieldNode} {n : Nat}
    (h : AllFit (2 ^ 32) StructFieldNode.Encodable n fields) :
    Bounds ShortLexeme (structField fields)
      fun m => AllFit (2 ^ 32) StructFieldNode.Encodable (n + m) := by
  refine .bind bounds_type fun type _ htype => ?_
  refine .bind bounds_identifier fun name _ hname => ?_
  refine .bind (bounds_token _) fun _ _ hsemicolon => .pure ?_
  exact h.concat (by omega) fun hn => ⟨htype.2 (by omega), hname.2 (by omega)⟩

theorem bounds_structDecl :
    Bounds ShortLexeme structDecl (Fits (2 ^ 32) StructNode.Encodable) := by
  refine .bind (bounds_token _) fun _ _ hstruct => ?_
  refine .bind bounds_identifier fun name _ hname => ?_
  refine .bind (bounds_token _) fun _ _ hopen => ?_
  refine .bind (.iterate (fun _ _ h => bounds_structField h) (allFit_nil 0)) fun fields _ hfields =>
    ?_
  refine .bind (bounds_token _) fun _ _ hclose => ?_
  refine .bind (bounds_token _) fun _ _ hsemicolon => .pure ?_
  refine ⟨by omega, fun hn => ⟨hname.2 (by omega), allEncodable_nil _, ?_, hfields.2 (by omega)⟩⟩
  exact Nat.lt_of_le_of_lt hfields.1 (by omega)

theorem bounds_bitfieldField {fields : List BitfieldFieldNode} {n : Nat}
    (h : AllFit (2 ^ 32) BitfieldFieldNode.Encodable n fields) :
    Bounds ShortLexeme (bitfieldField fields)
      fun m => AllFit (2 ^ 32) BitfieldFieldNode.Encodable (n + m) := by
  refine .bind bounds_identifier fun name _ hname => ?_
  refine .bind (bounds_token _) fun _ _ hcolon => ?_
  refine .bind bounds_number fun bits _ hbits => ?_
  refine .bind (bounds_token _) fun _ _ hsemicolon => .pure ?_
  exact h.concat (by omega) fun hn => hname.2 (by omega)

theorem bounds_bitfieldDecl :
    Bounds ShortLexeme bitfieldDecl (Fits (2 ^ 32) BitfieldNode.Encodable) := by
  refine .bind (bounds_token _) fun _ _ hbitfield => ?_
  refine .bind (bounds_token _) fun _ _ hless => ?_
  refine .bind bounds_type fun baseType _ hbase => ?_
  refine .bind (bounds_token _) fun _ _ hgreater => ?_
  refine .bind bounds_identifier fun name _ hname => ?_
  refine .bind (bounds_token _) fun _ _ hopen => ?_
  refine .bind (.iterate (fun _ _ h => bounds_bitfieldField h) (allFit_nil 0))
    fun fields _ hfields => ?_
  refine .bind (bounds_token _) fun _ _ hclose => ?_
  refine .bind (bounds_token _) fun _ _ hsemicolon => .pure ?_
  refine ⟨by omega, fun hn => ⟨hname.2 (by omega), allEncodable_nil _, hbase.2 (by omega), ?_,
    hfields.2 (by omega)⟩⟩
  exact Nat.lt_of_le_of_lt hfields.1 (by omega)

theorem bounds_enumMember {members : List EnumMemberNode} {n : Nat}
    (h : AllFit (2 ^ 32) EnumMemberNode.Encodable n members) :
    Bounds ShortLexeme (enumMember members)
      fun m => AllFit (2 ^ 32) EnumMemberNode.Encodable (n + m) := by
  refine .bind bounds_annotations fun annotations _ hannotations => ?_
  refine .bind bounds_identifier fun name _ hname => ?_
  refine .bind (bounds_token _) fun _ _ hequals => ?_
  refine .bind bounds_number fun value _ hvalue => .pure ?_
  refine h.concat (by omega) fun hn => ⟨hname.2 (by omega), ?_, hannotations.2 (by omega)⟩
  exact Nat.lt_of_le_of_lt hannotations.1 (by omega)

theorem bounds_enumDecl :
    Bounds ShortLexeme enumDecl (Fits (2 ^ 32) EnumNode.Encodable) := by
  refine .bind (bounds_token _) fun _ _ henum => ?_
  refine .bind (bounds_token _) fun _ _ hless => ?_
  refine .bind bounds_type fun baseType _ hbase => ?_
  refine .bind (bounds_token _) fun _ _ hgreater => ?_
  refine .bind bounds_identifier fun name _ hname => ?_
  refine .bind (bounds_token _) fun _ _ hopen => ?_
  refine .bind (.sepBy (fun _ _ _ hmn h => h.mono hmn) (fun _ _ h => bounds_enumMember h)
    (allFit_nil 0)) fun members _ hmembers => ?_
  refine .bind (bounds_token _) fun _ _ hclose => ?_
  refine .bind (bounds_token _) fun _ _ hsemicolon => .pure ?_
  refine ⟨by omega, fun hn => ⟨hname.2 (by omega), allEncodable_nil _, hbase.2 (by omega), ?_,
    hmembers.2 (by omega)⟩⟩
  exact Nat.lt_of_le_of_lt hmembers.1 (by omega)

theorem bounds_functionDecl (interface : InterfaceNode) :
    Bounds ShortLexeme (functionDecl interface) fun n result =>
      Fits (2 ^ 32) FunctionNode.Encodable n result.1 ∧
        result.2 = { interface with currentFuncid := interface.currentFuncid + 1 } := by
  refine .bind (bounds_token _) fun _ _ hfunction => ?_
  refine .bind bounds_identifier fun name _ hname => ?_
  refine .bind (bounds_token _) fun _ _ hopen => ?_
  refine .bind (.sepBy (fun _ _ _ hmn h => h.mono hmn) (fun _ _ h => .collect bounds_parameter h)
    (allFit_nil 0)) fun parameters _ hparameters => ?_
  refine .bind (bounds_token _) fun _ _ hclose => ?_
  refine .bind (bounds_token _) fun _ _ hsemicolon => .pure ⟨?_, rfl⟩
  refine ⟨by omega, fun hn => ⟨hname.2 (by omega), allEncodable_nil _, ?_,
    hparameters.2 (by omega)⟩⟩
  exact Nat.lt_of_le_of_lt hparameters.1 (by omega)

/-! ### Revisions and interfaces -/

/-- What `n` tokens have added to a revision is encodable if they are few, and the interface is the
one before them but for the next id. -/
structure RevisionFits (interface : InterfaceNode) (n : Nat) (r : Parser.Revision) : Prop where
  annotations : AllFit (2 ^ 32) AnnotationNode.Encodable n r.annotations
  functions : AllFit (2 ^ 32) FunctionNode.Encodable n r.node.functions
  structs : AllFit (2 ^ 32) StructNode.Encodable n r.node.structs
  bitfields : AllFit (2 ^ 32) BitfieldNode.Encodable n r.node.bitfields
  enums : AllFit (2 ^ 32) EnumNode.Encodable n r.node.enums
  node : r.node.annotations = []
  interface : r.interface = { interface with currentFuncid := r.interface.currentFuncid }

variable {interface : InterfaceNode} {n : Nat}

theorem RevisionFits.mono {m : Nat} {r : Parser.Revision} (hmn : m ≤ n)
    (h : RevisionFits interface m r) : RevisionFits interface n r where
  annotations := h.annotations.mono hmn
  functions := h.functions.mono hmn
  structs := h.structs.mono hmn
  bitfields := h.bitfields.mono hmn
  enums := h.enums.mono hmn
  node := h.node
  interface := h.interface

/-- The pending annotations of a revision can be written. -/
theorem RevisionFits.annotationsEncodable {r : Parser.Revision} (h : RevisionFits interface n r)
    (hn : n < 2 ^ 32) : AnnotationsEncodable r.annotations :=
  ⟨Nat.lt_of_le_of_lt h.annotations.1 hn, h.annotations.2 hn⟩

theorem bounds_revisionItem {r : Parser.Revision} (h : RevisionFits interface n r) :
    Bounds ShortLexeme (revisionItem r) fun m => RevisionFits interface (n + m) := by
  have hkept (m : Nat) : RevisionFits interface (n + m) r := h.mono (Nat.le_add_right n m)
  -- a declaration takes the pending annotations, which came before it
  have hpending {m : Nat} (hm : n + m < 2 ^ 32) : AnnotationsEncodable r.annotations :=
    h.annotationsEncodable (by omega)
  refine .or ?_ (.or ?_ (.or ?_ (.or ?_ ?_)))
  · refine .bind bounds_annotation fun node m hnode => .pure ?_
    exact { hkept m with
      annotations := h.annotations.concat hnode.1 fun hm => hnode.2 (by omega) }
  · refine .bind (bounds_functionDecl r.interface) fun result m hresult => .pure ?_
    obtain ⟨hfunc, hinterface⟩ := hresult
    refine { hkept m with annotations := allFit_nil _, functions := ?_, interface := ?_ }
    · refine h.functions.concat hfunc.1 fun hm => ?_
      obtain ⟨hname, -, hparameters⟩ := hfunc.2 (by omega)
      exact ⟨hname, hpending hm, hparameters⟩
    · show result.2 = { interface with currentFuncid := result.2.currentFuncid }
      rw [hinterface, h.interface]
  · refine .bind bounds_structDecl fun strct m hstrct => .pure ?_
    refine { hkept m with annotations := allFit_nil _, structs := ?_ }
    refine h.structs.concat hstrct.1 fun hm => ?_
    obtain ⟨hname, -, hfields⟩ := hstrct.2 (by omega)
    exact ⟨hname, hpending hm, hfields⟩
  · refine .bind bounds_bitfieldDecl fun bitfield m hbitfield => .pure ?_
    refine { hkept m with annotations := allFit_nil _, bitfields := ?_ }
    refine h.bitfields.concat hbitfield.1 fun hm => ?_
    obtain ⟨hname, -, hbase, hfields⟩ := hbitfield.2 (by omega)
    exact ⟨hname, hpending hm, hbase, hfields⟩
  · refine .bind bounds_enumDecl fun enumNode m henum => .pure ?_
    refine { hkept m with annotations := allFit_nil _, enums := ?_ }
    refine h.enums.concat henum.1 fun hm => ?_
    obtain ⟨hname, -, hbase, hmembers⟩ := henum.2 (by omega)
    exact ⟨hname, hpending hm, hbase, hmembers⟩

theorem bounds_abirevision (interface : InterfaceNode) :
    Bounds ShortLexeme (abirevision interface) fun n result =>
      Fits (2 ^ 32) AbiversionNode.Encodable n result.1 ∧
        result.2 = { interface with currentFuncid := result.2.currentFuncid } := by
  refine .bind (bounds_token _) fun _ _ habirevision => ?_
  refine .bind bounds_number fun version _ hversion => ?_
  refine .bind (bounds_token _) fun _ _ hopen => ?_
  have hempty : RevisionFits interface 0 ⟨{ version }, [], interface⟩ :=
    ⟨allFit_nil 0, allFit_nil 0, allFit_nil 0, allFit_nil 0, allFit_nil 0, rfl, rfl⟩
  refine .bind (.iterate (fun _ _ h => bounds_revisionItem h) hempty) fun r k hr => ?_
  refine .bind (bounds_token _) fun _ _ hclose => .pure ⟨⟨by omega, fun hn => ?_⟩, hr.interface⟩
  have hk : 0 + k < 2 ^ 32 := by omega
  refine ⟨?_, ⟨Nat.lt_of_le_of_lt hr.bitfields.1 hk, hr.bitfields.2 hk⟩,
    ⟨Nat.lt_of_le_of_lt hr.enums.1 hk, hr.enums.2 hk⟩,
    ⟨Nat.lt_of_le_of_lt hr.structs.1 hk, hr.structs.2 hk⟩,
    ⟨Nat.lt_of_le_of_lt hr.functions.1 hk, hr.functions.2 hk⟩⟩
  rw [hr.node]
  exact allEncodable_nil _

/-- What `n` tokens denote of an interface can be written if they are few. -/
structure InterfaceFits (n : Nat) (interface : InterfaceNode) : Prop where
  name : n < 2 ^ 32 → Countable interface.name
  annotations : AllFit (2 ^ 32) AnnotationNode.Encodable n interface.annotations
  abiversions : AllFit (2 ^ 32) AbiversionNode.Encodable n interface.abiversions

theorem bounds_nextRevision {firstAbirevision : UInt64} (h : InterfaceFits n interface) :
    Bounds ShortLexeme (nextRevision firstAbirevision interface)
      fun m => InterfaceFits (n + m) := by
  intro ts result hts hresult
  obtain ⟨abiversion, interface', habirevision, -, rfl⟩ := nextRevision_iff.1 hresult
  obtain ⟨habiversion, hinterface⟩ := bounds_abirevision interface ts _ hts habirevision
  have hname : interface'.name = interface.name :=
    (congrArg InterfaceNode.name hinterface :)
  have hannotations : interface'.annotations = interface.annotations :=
    (congrArg InterfaceNode.annotations hinterface :)
  have habiversions : interface'.abiversions = interface.abiversions :=
    (congrArg InterfaceNode.abiversions hinterface :)
  refine ⟨fun hn => ?_, ?_, ?_⟩
  · show Countable interface'.name
    rw [hname]
    exact h.name (by omega)
  · show AllFit _ _ _ interface'.annotations
    rw [hannotations]
    exact h.annotations.mono (Nat.le_add_right n _)
  · show AllFit _ _ _ (interface'.abiversions ++ [abiversion])
    rw [habiversions]
    exact h.abiversions.concat habiversion.1 fun hn => habiversion.2 (by omega)

/-- **What a sentence denotes can be written** if it has few tokens with short texts. -/
theorem bounds_interfaceDecl (firstAbirevision : UInt64) (firstFuncid : UInt32) :
    Bounds ShortLexeme (interfaceDecl firstAbirevision firstFuncid) InterfaceFits := by
  have hheader : Bounds ShortLexeme (interfaceHeader firstFuncid) InterfaceFits := by
    refine .bind bounds_annotations fun annotations n hannotations => ?_
    refine .bind (bounds_token _) fun _ _ hinterface => ?_
    refine .bind bounds_identifier fun name _ hname => ?_
    refine .bind (bounds_token _) fun _ _ hopen => .pure ?_
    exact ⟨fun hn => hname.2 (by omega), hannotations.mono (Nat.le_add_right n _), allFit_nil _⟩
  refine .bind hheader fun header n h => ?_
  refine .bind (.iterate (fun _ _ h => bounds_nextRevision h) h) fun result m hresult => ?_
  refine .bind (bounds_token _) fun _ k hclose => .pure ?_
  have hle : n + m ≤ n + (m + (k + 0)) := by omega
  exact ⟨fun hn => hresult.name (by omega), hresult.annotations.mono hle,
    hresult.abiversions.mono hle⟩

end Syntax

/-! ### The metadata of an interface -/

theorem countable_getStringLiteralArg {node : AnnotationNode} (hnode : node.Encodable)
    {index : Nat} {body : Bytes} (h : getStringLiteralArg node index = .ok body) :
    Countable body := by
  cases harg : node.args[index]? with
  | none => simp [getStringLiteralArg, harg] at h
  | some arg =>
    have hencodable : arg.Encodable := hnode.2.2 arg (List.mem_of_getElem? harg)
    cases arg with
    | number value => simp [getStringLiteralArg, harg] at h
    | identifier name => simp [getStringLiteralArg, harg] at h
    | string value =>
      simp only [getStringLiteralArg, harg] at h
      split_ifs at h
      obtain rfl := Except.ok.inj h
      exact Nat.lt_of_le_of_lt ((List.length_take_le ..).trans (by omega)) hencodable

namespace Metadata

/-- What the loop has found can be written. -/
structure Encodable (m : Metadata) : Prop where
  uuidName : Countable m.node.uuidName
  prefixStr : Countable m.node.prefixStr
  remainingAnnotations : ∀ node ∈ m.remainingAnnotations, node.Encodable

theorem Encodable.take {m m' : Metadata} {node : AnnotationNode} (hm : m.Encodable)
    (hnode : node.Encodable) (h : m.take node = .ok m') : m'.Encodable := by
  unfold Metadata.take at h
  split_ifs at h
  · obtain rfl := Except.ok.inj h
    refine ⟨hm.uuidName, hm.prefixStr, ?_⟩
    rw [List.forall_mem_append, List.forall_mem_singleton]
    exact ⟨hm.remainingAnnotations, hnode⟩
  · obtain ⟨namespaceUuid, nameStr, hname, rfl⟩ := takeUuid_spec h
    exact ⟨countable_getStringLiteralArg hnode hname, hm.prefixStr, hm.remainingAnnotations⟩
  · obtain ⟨prefixStr, hpre, rfl⟩ := takePrefix_spec h
    exact ⟨hm.uuidName, countable_getStringLiteralArg hnode hpre, hm.remainingAnnotations⟩

theorem Encodable.foldlM {m m' : Metadata} {nodes : List AnnotationNode} (hm : m.Encodable)
    (hnodes : ∀ node ∈ nodes, node.Encodable) (h : nodes.foldlM Metadata.take m = .ok m') :
    m'.Encodable := by
  induction nodes generalizing m with
  | nil =>
    obtain rfl := Except.ok.inj h
    exact hm
  | cons node nodes ih =>
    rw [List.forall_mem_cons] at hnodes
    obtain ⟨m₁, htake, hrest⟩ := foldlM_cons_eq_ok.1 h
    exact ih (hm.take hnodes.1 htake) hnodes.2 hrest

end Metadata

/-- The identity that the metadata state can be written. -/
theorem identityEncodable_normalize {interface result : InterfaceNode}
    (hname : Countable result.name) (huuid : Countable interface.uuidName)
    (hpre : Countable interface.prefixStr)
    (hannotations : AnnotationsEncodable interface.annotations)
    (h : normalizeInterfaceMetadata interface = .ok result) : result.IdentityEncodable := by
  obtain ⟨m, hfold, -, -, rfl⟩ := normalizeInterfaceMetadata_eq_ok.1 h
  have hinit : Metadata.Encodable { node := interface } := ⟨huuid, hpre, List.forall_mem_nil _⟩
  have hm := hinit.foldlM hannotations.2 hfold
  obtain ⟨m₁, -, hremaining⟩ := Metadata.foldlM_take_eq_ok.1 hfold
  refine ⟨hname, hm.uuidName, hm.prefixStr, ?_, hm.remainingAnnotations⟩
  have hothers : m.remainingAnnotations = Metadata.others interface.annotations := by
    rw [hremaining]
    rfl
  show m.remainingAnnotations.length < 2 ^ 32
  rw [hothers]
  exact Nat.lt_of_le_of_lt (List.length_filter_le ..) hannotations.1

/-! ### What compiles -/

/-- The source begins with an interface of the grammar whose annotations state an identity. -/
def States (source : Bytes) (firstAbirevision : UInt64) (firstFuncid : UInt32)
    (interface : InterfaceNode) : Prop :=
  ∃ ts parsed, ts <+: lexemes source ∧ Syntax.interfaceDecl firstAbirevision firstFuncid ts parsed ∧
    normalizeInterfaceMetadata parsed = .ok interface

theorem parseInterfaceFile_eq_some_iff_states {source : Bytes} {firstAbirevision : UInt64}
    {firstFuncid : UInt32} {interface : InterfaceNode} :
    parseInterfaceFile source firstAbirevision firstFuncid = .ok (some interface) ↔
      States source firstAbirevision firstFuncid interface := by
  rw [parseInterfaceFile_eq_some_iff]
  constructor
  · rintro ⟨parsed, hparse, hnormalize⟩
    obtain ⟨ts, hts, hdecl⟩ := Parser.parse_eq_some_iff.1 hparse
    exact ⟨ts, parsed, hts, hdecl, hnormalize⟩
  · rintro ⟨ts, parsed, hts, hdecl, hnormalize⟩
    exact ⟨parsed, Parser.parse_eq_some_iff.2 ⟨ts, hts, hdecl⟩, hnormalize⟩

/-- **A source of fewer than `2 ^ 32` bytes states nothing that is too long.** -/
theorem encodable_of_states {source : Bytes} (hsource : source.length < 2 ^ 32) {n : Nat}
    {firstFuncid : UInt32} {interface : InterfaceNode}
    (h : States source (UInt64.ofNat n) firstFuncid interface) :
    interface.hasUuid = true ∧ interface.hasPrefix = true ∧ interface.IdentityEncodable ∧
      Countable interface.abiversions ∧ ∀ node ∈ interface.abiversions, node.Encodable := by
  obtain ⟨ts, parsed, hts, hdecl, hnormalize⟩ := h
  have hcount : ts.length < 2 ^ 32 :=
    Nat.lt_of_le_of_lt (hts.length_le.trans (length_lexemes_le source)) hsource
  have hshort : ∀ t ∈ ts, ShortLexeme t := fun t ht =>
    Nat.lt_of_le_of_lt (length_lexeme_le (hts.subset ht)) hsource
  have hfits := Syntax.bounds_interfaceDecl _ _ ts parsed hshort hdecl
  obtain ⟨name, annotations, nodes, hname, hannotations, -, -, -, rfl⟩ :=
    Syntax.interfaceDecl_spec (Syntax.printable_of_interfaceDecl hts hdecl) hdecl
  obtain ⟨hnormalized, hsame, habiversions, -⟩ :=
    normalizeInterfaceMetadata_spec hname hannotations hnormalize
  refine ⟨hnormalized.hasUuid, hnormalized.hasPrefix, ?_, ?_, ?_⟩
  · refine identityEncodable_normalize ?_ ?_ ?_ ?_ hnormalize
    · rw [hsame]
      exact hfits.name hcount
    · exact Nat.two_pow_pos 32
    · exact Nat.two_pow_pos 32
    · exact ⟨Nat.lt_of_le_of_lt hfits.annotations.1 hcount, hfits.annotations.2 hcount⟩
  · rw [habiversions]
    exact Nat.lt_of_le_of_lt hfits.abiversions.1 hcount
  · rw [habiversions]
    exact hfits.abiversions.2 hcount

/-- The conditions under which a source is compiled, by itself or as an extension of a base. -/
def Compilable (source : Bytes) : Option Bytes → Prop
  | none => ∃ interface, States source 0 0 interface ∧ interface.abiversions ≠ []
  | some base => ∃ interface extension, sifRead base = .ok interface ∧
      States source (UInt64.ofNat interface.abiversions.length) interface.currentFuncid extension ∧
      validateExtensionInterface interface extension = .ok () ∧
      interface.abiversions.length + extension.abiversions.length < 2 ^ 32

/-- **What compiles.** A source of fewer than `2 ^ 32` bytes is compiled exactly when it begins
with an interface of the grammar that states an identity and has a revision, and, with a base,
when its revisions and functions go on where the base ends and its identity is that of the base. -/
theorem compile_succeeds_iff (base : Option Bytes) {source : Bytes}
    (hsource : source.length < 2 ^ 32) :
    (∃ artifact, compile base source = .ok (some artifact)) ↔ Compilable source base := by
  cases base with
  | none =>
    constructor
    · rintro ⟨artifact, h⟩
      obtain ⟨interface, hparse, hwrite⟩ := compile_none_eq_some_iff.1 h
      obtain ⟨hwritable, -⟩ := (sifWrite_eq_ok_iff ..).1 hwrite
      refine ⟨interface, parseInterfaceFile_eq_some_iff_states.1 hparse, ?_⟩
      rw [← allRevisions_nil]
      exact hwritable.nonempty
    · rintro ⟨interface, hstates, hnonempty⟩
      obtain ⟨huuid, hpre, hidentity, hcountable, hencodable⟩ :=
        encodable_of_states hsource (n := 0) hstates
      refine ⟨_, compile_none_eq_some_iff.2 ⟨interface,
        parseInterfaceFile_eq_some_iff_states.2 hstates, (sifWrite_eq_ok_iff ..).2 ⟨?_, rfl⟩⟩⟩
      rw [← allRevisions_nil interface] at hnonempty hcountable hencodable
      exact ⟨huuid, hpre, hidentity, hnonempty, hcountable, hencodable⟩
  | some base =>
    constructor
    · rintro ⟨artifact, h⟩
      obtain ⟨interface, extension, hread, hparse, hvalid, hwrite⟩ := compile_some_eq_some_iff.1 h
      obtain ⟨hwritable, -⟩ := (sifWrite_eq_ok_iff ..).1 hwrite
      have hcountable := hwritable.countable
      rw [allRevisions_singleton, Countable, List.length_append] at hcountable
      exact ⟨interface, extension, hread, parseInterfaceFile_eq_some_iff_states.1 hparse, hvalid,
        hcountable⟩
    · rintro ⟨interface, extension, hread, hstates, hvalid, hcountable⟩
      obtain ⟨-, -, -, -, hencodable⟩ := encodable_of_states hsource hstates
      obtain ⟨hdecoded, -⟩ := (sifRead_eq_ok_iff ..).1 hread
      refine ⟨_, compile_some_eq_some_iff.2 ⟨interface, extension, hread,
        parseInterfaceFile_eq_some_iff_states.2 hstates, hvalid,
        (sifWrite_eq_ok_iff ..).2 ⟨⟨hdecoded.hasUuid, hdecoded.hasPrefix, hdecoded.identity, ?_, ?_,
          ?_⟩, rfl⟩⟩⟩
      · rw [allRevisions_singleton]
        exact fun h => hdecoded.nonempty (List.append_eq_nil_iff.1 h).1
      · rw [allRevisions_singleton, Countable, List.length_append]
        exact hcountable
      · rw [allRevisions_singleton, List.forall_mem_append]
        exact ⟨hdecoded.encodable, hencodable⟩

/-- A source that extends the artifact of another. -/
theorem compile_succeeds_iff_extension :
    ∃ base, compile none (sampleSource [sampleRevision 0 0]) = .ok (some base) ∧
      Compilable (sampleSource [sampleRevision 0 0]) none ∧
      Compilable (sampleSource [sampleRevision 1 0]) (some base) := by
  obtain ⟨base, hbase, hartifact⟩ := compile_sampleSource [sampleRevision 0 0] (by decide +kernel)
    (List.cons_ne_nil _ _) (by decide)
  obtain ⟨whole, _, _, hwhole, -⟩ :=
    @Artifact.compile_next _ _ _ [sampleRevision 1 0] _ hartifact (by decide +kernel) (by decide)
  have hlength : (sampleSource [sampleRevision 1 0]).length < 2 ^ 32 := by decide +kernel
  exact ⟨base, hbase, (compile_succeeds_iff none (by decide +kernel)).1 ⟨base, hbase⟩,
    (compile_succeeds_iff (some base) hlength).1 ⟨whole, hwhole⟩⟩

end Sidlc
