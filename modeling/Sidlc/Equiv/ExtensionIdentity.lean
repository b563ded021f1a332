import Sidlc.Equiv.Recompile
import Sidlc.Library.Delimited

/-!
# The identity of an extension

An extension is accepted when its name, UUID, prefix and annotations are those of its base. The
annotations are compared by a text that is put together from their parts. Words, numerals and string
literals show where they end, so the text shows the annotations (`interfaceAnnotationKey_inj`), and
the comparison is one of the annotations (`validateExtensionInterface_iff`).
-/

namespace Sidlc

open Decimal Delimited

/-! ### Keys -/

/-- What follows an argument in a key. -/
def EndsArgument (c : UInt8) : Prop :=
  c = chr ',' ∨ c = chr ')'

theorem EndsArgument.not_isWordChar {c : UInt8} (h : EndsArgument c) :
    Lexer.isWordChar c = false := by
  rcases h with rfl | rfl
  · decide
  · decide

theorem EndsArgument.not_isDigit {c : UInt8} (h : EndsArgument c) : isDigit c = false := by
  rcases h with rfl | rfl
  · decide
  · decide

/-- A literal is closed by its second quote. -/
theorem delimited_quoted {stop : UInt8 → Prop} : Delimited stop IsQuoted id := by
  have hbody : Delimited stop (fun body : Bytes => ∀ c ∈ body, c ≠ chr '"') quoted := by
    have hclosed : Delimited stop (fun body : Bytes => ∀ c ∈ body, c ≠ chr '"')
        fun body => body ++ [chr '"'] :=
      of_closed (fun body hbody hc => hbody _ hc rfl) fun _ _ _ _ h => h
    exact hclosed.consText [chr '"']
  rintro _ _ x y ⟨a, rfl, ha⟩ ⟨b, rfl, hb⟩ hx hy h
  obtain ⟨rfl, hxy⟩ := hbody a b x y ha hb hx hy h
  exact ⟨rfl, hxy⟩

theorem delimited_numeral :
    Delimited EndsArgument (fun _ => True) fun value : UInt64 => numeral value.toNat := by
  refine of_alphabet (fun _ _ _ hc => isDigit_of_mem_numeral hc) (fun _ hc => hc.not_isDigit)
    fun a b _ _ h => ?_
  have hvalue := congrArg decimalValue h
  rw [decimalValue_numeral, decimalValue_numeral] at hvalue
  exact UInt64.toNat_inj.1 hvalue

theorem delimited_identifier {stop : UInt8 → Prop}
    (hstop : ∀ c, stop c → Lexer.isWordChar c = false) : Delimited stop IsIdentifier id :=
  .of_alphabet (fun _ hname => hname.1.2) hstop fun _ _ _ _ h => h

/-- The first character of a key tells the kind of the argument. -/
theorem head_expressionKey (node : ExpressionNode) (x : Bytes) :
    (expressionKey node ++ x).head? = some (chr (match node with
      | .string _ => 's'
      | .number _ => 'n'
      | .identifier _ => 'i')) := by
  cases node with
  | string value => rfl
  | number value => rfl
  | identifier name => rfl

theorem delimited_expressionKey :
    Delimited EndsArgument ExpressionNode.Printable expressionKey := by
  intro a b x y ha hb hx hy h
  -- the keys begin with the kind of the argument
  have hkind := congrArg List.head? h
  rw [head_expressionKey, head_expressionKey, Option.some.injEq] at hkind
  have hsn : chr 's' ≠ chr 'n' := by decide
  have hsi : chr 's' ≠ chr 'i' := by decide
  have hni : chr 'n' ≠ chr 'i' := by decide
  cases a with
  | string value =>
    cases b with
    | string value' =>
      obtain ⟨rfl, hxy⟩ := (delimited_quoted.consText (ascii "s:")) value value' x y ha hb hx hy h
      exact ⟨rfl, hxy⟩
    | number _ => exact absurd hkind hsn
    | identifier _ => exact absurd hkind hsi
  | number value =>
    cases b with
    | string _ => exact absurd hkind hsn.symm
    | number value' =>
      obtain ⟨rfl, hxy⟩ :=
        (delimited_numeral.consText (ascii "n:")) value value' x y trivial trivial hx hy h
      exact ⟨rfl, hxy⟩
    | identifier _ => exact absurd hkind hni
  | identifier name =>
    cases b with
    | string _ => exact absurd hkind hsi.symm
    | number _ => exact absurd hkind hni.symm
    | identifier name' =>
      obtain ⟨rfl, hxy⟩ := ((delimited_identifier fun _ hc => hc.not_isWordChar).consText
        (ascii "i:")) name name' x y ha hb hx hy h
      exact ⟨rfl, hxy⟩

/-- The arguments of an annotation, from the opening parenthesis on. -/
theorem delimited_arguments {stop : UInt8 → Prop} :
    Delimited stop (fun args : List ExpressionNode => ∀ arg ∈ args, arg.Printable) fun args =>
      ascii "(" ++ ((ascii ",").intercalate (args.map expressionKey) ++ ascii ")") := by
  have hlist : Delimited stop (fun args : List ExpressionNode => ∀ arg ∈ args, arg.Printable)
      fun args => [chr ','].intercalate (args.map expressionKey) ++ [chr ')'] := by
    refine separated delimited_expressionKey (by decide) (.inl rfl) (.inr rfl) fun node _ => ?_
    cases node with
    | string value => exact ⟨_, _, rfl, by decide⟩
    | number value => exact ⟨_, _, rfl, by decide⟩
    | identifier name => exact ⟨_, _, rfl, by decide⟩
  exact hlist.consText (ascii "(")

theorem delimited_annotationKey {stop : UInt8 → Prop} :
    Delimited stop AnnotationNode.Printable annotationKey := by
  have hname : Delimited (· = chr '(') IsIdentifier id := by
    refine delimited_identifier fun c hc => ?_
    rw [hc]
    decide
  have harguments (args : List ExpressionNode) (x : Bytes) : Stops (· = chr '(')
      (ascii "(" ++ ((ascii ",").intercalate (args.map expressionKey) ++ ascii ")") ++ x) := by
    apply stops_cons
    rfl
  have hparts : Delimited stop _ _ :=
    hname.append delimited_arguments fun args x _ _ => harguments args x
  have hinj : Function.Injective fun node : AnnotationNode => (node.name, node.args) := by
    rintro ⟨name, args⟩ ⟨name', args'⟩ h
    obtain ⟨rfl, rfl⟩ := Prod.mk.inj h
    rfl
  intro a b x y ha hb hx hy h
  refine hparts.comap hinj a b x y ha hb hx hy ?_
  simpa only [annotationKey, List.append_assoc, id_eq] using h

/-- **The key shows the annotations**, whatever the literals hold. -/
theorem interfaceAnnotationKey_inj {I J : InterfaceNode}
    (hI : ∀ node ∈ I.annotations, node.Printable) (hJ : ∀ node ∈ J.annotations, node.Printable) :
    interfaceAnnotationKey I = interfaceAnnotationKey J ↔ I.annotations = J.annotations := by
  constructor
  · intro h
    have hline : Delimited (fun _ => True) AnnotationNode.Printable
        fun node => annotationKey node ++ ascii "\n" := by
      intro a b x y ha hb hx hy heq
      rw [List.append_assoc, List.append_assoc] at heq
      have hstops (z : Bytes) : Stops (fun _ => True) z := fun _ _ => trivial
      obtain ⟨rfl, hxy⟩ := delimited_annotationKey a b _ _ ha hb (hstops _) (hstops _) heq
      exact ⟨rfl, List.append_cancel_left hxy⟩
    have hne (node : AnnotationNode) (_ : node.Printable) :
        annotationKey node ++ ascii "\n" ≠ [] :=
      List.append_ne_nil_of_right_ne_nil _ (by decide)
    exact flatMap_injective hline hne hI hJ h
  · intro h
    rw [interfaceAnnotationKey, h, interfaceAnnotationKey]

/-! ### Validation -/

/-- The two interfaces have the same name, UUID, prefix and annotations. -/
structure SameIdentity (base extension : InterfaceNode) : Prop where
  name : base.name = extension.name
  uuidNamespace : base.uuidNamespace = extension.uuidNamespace
  uuidName : base.uuidName = extension.uuidName
  prefixStr : base.prefixStr = extension.prefixStr
  annotations : base.annotations = extension.annotations

/-- The validation of interfaces that have an identity. -/
theorem validateExtensionInterface_eq_ok_iff {base extension : InterfaceNode}
    (hbase : base.Normalized) (hextension : extension.Normalized) :
    validateExtensionInterface base extension = .ok () ↔ SameIdentity base extension := by
  have hkey := interfaceAnnotationKey_inj (fun node hnode => (hbase.annotations node hnode).1)
    fun node hnode => (hextension.annotations node hnode).1
  rw [validateExtensionInterface]
  simp only [hbase.hasUuid, hextension.hasUuid, hbase.hasPrefix, hextension.hasPrefix,
    Bool.not_true, Bool.false_eq_true, false_or]
  split_ifs with hname huuid hpre hannotations
  · exact iff_of_false (by simp) fun h => hname h.name
  · refine iff_of_false (by simp) fun h => ?_
    rcases huuid with hnamespace | huuidName
    · exact hnamespace h.uuidNamespace
    · exact huuidName h.uuidName
  · exact iff_of_false (by simp) fun h => hpre h.prefixStr
  · exact iff_of_false (by simp) fun h => hannotations (hkey.2 h.annotations)
  · obtain ⟨hnamespace, huuidName⟩ := not_or.1 huuid
    exact iff_of_true rfl ⟨not_not.1 hname, not_not.1 hnamespace, not_not.1 huuidName,
      not_not.1 hpre, hkey.1 (not_not.1 hannotations)⟩

/-- **The extension is valid exactly when it has the identity of its base**, and the keys of the
annotations are those of one list only. -/
theorem extension_valid_iff (sources : List Bytes) (artifact source : Bytes)
    (firstAbirevision : UInt64) (firstFuncid : UInt32) (base extension : InterfaceNode)
    (hartifact : Compiled sources artifact) (hread : sifRead artifact = .ok base)
    (hsource : parseInterfaceFile source firstAbirevision firstFuncid = .ok (some extension)) :
    (validateExtensionInterface base extension = .ok () ↔ SameIdentity base extension) ∧
      (interfaceAnnotationKey base = interfaceAnnotationKey extension ↔
        base.annotations = extension.annotations) := by
  have hbase : base.Normalized := by
    obtain ⟨interface, -, hinterface, -⟩ := hartifact.spec
    obtain rfl : interface = base := Except.ok.inj (hinterface.sifRead.symm.trans hread)
    exact hinterface.normalized
  have hextension : extension.Normalized := by
    rw [← UInt64.ofNat_toNat (x := firstAbirevision)] at hsource
    exact (parseInterfaceFile_spec hsource).1
  exact ⟨validateExtensionInterface_eq_ok_iff hbase hextension,
    interfaceAnnotationKey_inj (fun node hnode => (hbase.annotations node hnode).1)
      fun node hnode => (hextension.annotations node hnode).1⟩

/-- The sample with these annotations. -/
def notedInterface (annotations : List AnnotationNode) (revisions : List AbiversionNode) :
    InterfaceNode :=
  { sampleInterface revisions with annotations }

/-- `@note("x", "y") @mark(1)` -/
def twoArguments : List AnnotationNode :=
  [⟨ascii "note", [.string (quoted (ascii "x")), .string (quoted (ascii "y"))]⟩,
    ⟨ascii "mark", [.number 1]⟩]

/-- `@note("x,y") @mark(1)` -/
def oneArgument : List AnnotationNode :=
  [⟨ascii "note", [.string (quoted (ascii "x,y"))]⟩, ⟨ascii "mark", [.number 1]⟩]

theorem normalized_notedInterface {annotations : List AnnotationNode}
    (h : ∀ node ∈ annotations, node.Printable ∧ ¬node.IsIdentity)
    (revisions : List AbiversionNode) : (notedInterface annotations revisions).Normalized := by
  have hsample := normalized_sampleInterface revisions
  exact ⟨hsample.name, rfl, hsample.uuidName, rfl, hsample.prefixStr, h⟩

/-- The text of the next revision with these annotations. -/
theorem parse_notedInterface {annotations : List AnnotationNode}
    (h : ∀ node ∈ annotations, node.Printable ∧ ¬node.IsIdentity) :
    ∃ extension, parseInterfaceFile (decompileInterface
        (notedInterface annotations [sampleRevision 1 0])) (UInt64.ofNat 1) 1
          = .ok (some extension) ∧
      extension = (notedInterface annotations [sampleRevision 1 0]).reparsed 1 :=
  ⟨_, parseInterfaceFile_decompileInterface (normalized_notedInterface h _)
    (List.forall_mem_singleton.2 (by decide +kernel)) ⟨rfl, trivial⟩ 1, rfl⟩

/-- The same annotations make a valid extension, and a string with a comma has another key than two
strings. -/
theorem extension_valid_annotatedSource :
    ∃ artifact base same other,
      Compiled [decompileInterface (notedInterface twoArguments [sampleRevision 0 0])] artifact ∧
      sifRead artifact = .ok base ∧
      parseInterfaceFile (decompileInterface
        (notedInterface twoArguments [sampleRevision 1 0])) (UInt64.ofNat 1) 1
          = .ok (some same) ∧
      parseInterfaceFile (decompileInterface
        (notedInterface oneArgument [sampleRevision 1 0])) (UInt64.ofNat 1) 1
          = .ok (some other) ∧
      validateExtensionInterface base same = .ok () ∧
      interfaceAnnotationKey base ≠ interfaceAnnotationKey other := by
  have htwo : ∀ node ∈ twoArguments, node.Printable ∧ ¬node.IsIdentity := by decide +kernel
  have hone : ∀ node ∈ oneArgument, node.Printable ∧ ¬node.IsIdentity := by decide +kernel
  have holder : Declarable 0 [sampleRevision 0 0] := by decide +kernel
  obtain ⟨artifact, _, _, hcompile, hartifact, -⟩ :=
    (normalized_notedInterface htwo []).compile_first (by decide) holder (List.cons_ne_nil _ _)
      (by decide)
  obtain ⟨same, hsame, rfl⟩ := parse_notedInterface htwo
  obtain ⟨other, hother, rfl⟩ := parse_notedInterface hone
  have hcompiled := Compiled.first hcompile
  obtain ⟨hvalid, -⟩ :=
    extension_valid_iff _ _ _ _ _ _ _ hcompiled hartifact.sifRead hsame
  obtain ⟨-, hkey⟩ := extension_valid_iff _ _ _ _ _ _ _ hcompiled hartifact.sifRead hother
  refine ⟨artifact, _, _, _, hcompiled, hartifact.sifRead, hsame, hother,
    hvalid.2 ⟨rfl, rfl, rfl, rfl, rfl⟩, fun h => ?_⟩
  have hannotations : twoArguments = oneArgument := hkey.1 h
  exact absurd hannotations (by decide)

end Sidlc
