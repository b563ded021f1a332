import Sidlc.Equiv.Acceptance
import Sidlc.Equiv.Sentences

/-!
# How many functions a source declares

The keyword `function` stands in a sentence once for every function of the interface it denotes. So
the number of functions that a source declares can be told from its lexemes (`Declares`), wherever
its revisions are numbered from.
-/

namespace Sidlc

open Grammar Sidlc.Parser

/-- The lexeme is the keyword `function`. -/
def isFunction (t : Lexeme) : Bool :=
  t.1 == .kwdFunction

/-- The number of functions that the lexemes of some declarations declare. -/
def functionCount (ts : List Lexeme) : Nat :=
  ts.countP isFunction

theorem functionCount_append (xs ys : List Lexeme) :
    functionCount (xs ++ ys) = functionCount xs + functionCount ys :=
  List.countP_append

namespace Syntax

/-! ### Productions without functions -/

/-- The sentences have no keyword `function`. -/
abbrev NoFunction {α : Type} (L : Lang Lexeme α) : Prop :=
  L.Within (·.1 ≠ .kwdFunction)

theorem NoFunction.functionCount {α : Type} {L : Lang Lexeme α} (h : NoFunction L)
    {ts : List Lexeme} {a : α} (hts : L ts a) : functionCount ts = 0 := by
  rw [Sidlc.functionCount, List.countP_eq_zero]
  intro t ht
  simpa [isFunction] using h ts a hts t ht

/-- Terminals of another type. -/
theorem noFunction_ofType {α : Type} {type : TokenType} (value : Lexeme → Option α)
    (h : type ≠ .kwdFunction) :
    NoFunction (.terminal fun t => if t.1 = type then value t else none) := by
  refine Lang.within_terminal fun t a ht => ?_
  by_cases htype : t.1 = type
  · rw [htype]
    exact h
  · exact absurd ((if_neg htype).symm.trans ht) (by simp)

theorem noFunction_token {type : TokenType} (h : type ≠ .kwdFunction) : NoFunction (token type) :=
  noFunction_ofType _ h

theorem noFunction_identifier : NoFunction identifier :=
  noFunction_ofType _ (by decide)

theorem noFunction_string : NoFunction string :=
  noFunction_ofType _ (by decide)

theorem noFunction_number : NoFunction number :=
  noFunction_ofType _ (by decide)

theorem noFunction_argument : NoFunction argument := by
  refine .or ?_ (.or ?_ ?_)
  · exact noFunction_identifier.bind fun _ => .pure _
  · exact noFunction_string.bind fun _ => .pure _
  · exact noFunction_number.bind fun _ => .pure _

theorem noFunction_annotationNode : NoFunction annotation := by
  refine (noFunction_token (by decide)).bind fun _ => noFunction_identifier.bind fun _ =>
    (noFunction_token (by decide)).bind fun _ => ?_
  refine (Lang.Within.sepBy (noFunction_token (by decide)) (fun _ => ?_) _).bind fun _ =>
    (noFunction_token (by decide)).bind fun _ => .pure _
  exact noFunction_argument.bind fun _ => .pure _

theorem noFunction_annotations : NoFunction annotations :=
  .iterate (fun _ => noFunction_annotationNode.bind fun _ => .pure _) _

theorem noFunction_constFlag : NoFunction constFlag :=
  .or ((noFunction_token (by decide)).bind fun _ => .pure _) (.pure _)

theorem noFunction_type : NoFunction type := by
  intro ts t h
  induction h with
  | named hc hname =>
    rw [List.forall_mem_append]
    exact ⟨noFunction_constFlag _ _ hc, noFunction_identifier _ _ hname⟩
  | ptr hc hk hl _ hr ih =>
    simp only [List.forall_mem_append]
    exact ⟨noFunction_constFlag _ _ hc, noFunction_token (by decide) _ _ hk,
      noFunction_token (by decide) _ _ hl, ih, noFunction_token (by decide) _ _ hr⟩
  | array hc hk hl _ hr ih =>
    simp only [List.forall_mem_append]
    exact ⟨noFunction_constFlag _ _ hc, noFunction_token (by decide) _ _ hk,
      noFunction_token (by decide) _ _ hl, ih, noFunction_token (by decide) _ _ hr⟩

theorem noFunction_direction : NoFunction direction := by
  refine .or ?_ (.or ?_ ?_)
  all_goals exact (noFunction_token (by decide)).bind fun _ => .pure _

theorem noFunction_parameter : NoFunction parameter :=
  noFunction_annotations.bind fun _ => noFunction_direction.bind fun _ =>
    noFunction_type.bind fun _ => noFunction_identifier.bind fun _ => .pure _

theorem noFunction_structDecl : NoFunction structDecl := by
  refine (noFunction_token (by decide)).bind fun _ => noFunction_identifier.bind fun _ =>
    (noFunction_token (by decide)).bind fun _ => ?_
  refine (Lang.Within.iterate (fun fields => ?_) _).bind fun _ =>
    (noFunction_token (by decide)).bind fun _ =>
      (noFunction_token (by decide)).bind fun _ => .pure _
  exact noFunction_type.bind fun _ => noFunction_identifier.bind fun _ =>
    (noFunction_token (by decide)).bind fun _ => .pure _

theorem noFunction_bitfieldDecl : NoFunction bitfieldDecl := by
  refine (noFunction_token (by decide)).bind fun _ => (noFunction_token (by decide)).bind fun _ =>
    noFunction_type.bind fun _ => (noFunction_token (by decide)).bind fun _ =>
    noFunction_identifier.bind fun _ => (noFunction_token (by decide)).bind fun _ => ?_
  refine (Lang.Within.iterate (fun fields => ?_) _).bind fun _ =>
    (noFunction_token (by decide)).bind fun _ =>
      (noFunction_token (by decide)).bind fun _ => .pure _
  exact noFunction_identifier.bind fun _ => (noFunction_token (by decide)).bind fun _ =>
    noFunction_number.bind fun _ => (noFunction_token (by decide)).bind fun _ => .pure _

theorem noFunction_enumDecl : NoFunction enumDecl := by
  refine (noFunction_token (by decide)).bind fun _ => (noFunction_token (by decide)).bind fun _ =>
    noFunction_type.bind fun _ => (noFunction_token (by decide)).bind fun _ =>
    noFunction_identifier.bind fun _ => (noFunction_token (by decide)).bind fun _ => ?_
  refine (Lang.Within.sepBy (noFunction_token (by decide)) (fun members => ?_) _).bind fun _ =>
    (noFunction_token (by decide)).bind fun _ =>
      (noFunction_token (by decide)).bind fun _ => .pure _
  exact noFunction_annotations.bind fun _ => noFunction_identifier.bind fun _ =>
    (noFunction_token (by decide)).bind fun _ => noFunction_number.bind fun _ => .pure _

theorem noFunction_interfaceHeader (firstFuncid : UInt32) :
    NoFunction (interfaceHeader firstFuncid) :=
  noFunction_annotations.bind fun _ => (noFunction_token (by decide)).bind fun _ =>
    noFunction_identifier.bind fun _ => (noFunction_token (by decide)).bind fun _ => .pure _

/-! ### Functions, revisions and interfaces -/

/-- A function has the keyword once. -/
theorem functionCount_functionDecl {interface : InterfaceNode} {ts : List Lexeme}
    {result : FunctionNode × InterfaceNode} (h : functionDecl interface ts result) :
    functionCount ts = 1 := by
  obtain ⟨_, _, ys, rfl, hkeyword, hrest⟩ := h
  obtain ⟨keyword, rfl, htype⟩ := token_iff.1 hkeyword
  -- no keyword `function` behind the first one
  have hnone : NoFunction (do
      let name ← identifier
      token (op '(')
      let parameters ← .sepBy (token (op ',')) (fun parameters => do
        let node ← parameter
        return parameters ++ [node]) []
      token (op ')')
      token (op ';')
      return (
        ({ name, annotations := [], parameters, id := interface.currentFuncid } : FunctionNode),
        { interface with currentFuncid := interface.currentFuncid + 1 })) := by
    refine noFunction_identifier.bind fun _ => (noFunction_token (by decide)).bind fun _ => ?_
    refine (Lang.Within.sepBy (noFunction_token (by decide)) (fun _ => ?_) _).bind fun _ =>
      (noFunction_token (by decide)).bind fun _ =>
      (noFunction_token (by decide)).bind fun _ => .pure _
    exact noFunction_parameter.bind fun _ => .pure _
  rw [functionCount_append, hnone.functionCount hrest]
  simp [functionCount, isFunction, htype]

theorem functionCount_revisionItem {r r' : Revision} {ts : List Lexeme}
    (h : revisionItem r ts r') :
    r'.node.functions.length = r.node.functions.length + functionCount ts := by
  rcases revisionItem_iff_parts.1 h with ⟨_, hx, rfl⟩ | ⟨_, _, hx, rfl⟩ | ⟨_, hx, rfl⟩ |
    ⟨_, hx, rfl⟩ | ⟨_, hx, rfl⟩
  · rw [noFunction_annotationNode.functionCount hx, Nat.add_zero]
  · rw [functionCount_functionDecl hx]
    exact List.length_append
  · rw [noFunction_structDecl.functionCount hx, Nat.add_zero]
  · rw [noFunction_bitfieldDecl.functionCount hx, Nat.add_zero]
  · rw [noFunction_enumDecl.functionCount hx, Nat.add_zero]

theorem functionCount_revisionItems {r r' : Revision} {ts : List Lexeme}
    (h : Lang.iterate revisionItem r ts r') :
    r'.node.functions.length = r.node.functions.length + functionCount ts := by
  induction h with
  | done => rfl
  | step hx _ ih => rw [ih, functionCount_revisionItem hx, functionCount_append, Nat.add_assoc]

theorem functionCount_abirevision {interface : InterfaceNode} {ts : List Lexeme}
    {result : AbiversionNode × InterfaceNode} (h : abirevision interface ts result) :
    result.1.functions.length = functionCount ts := by
  obtain ⟨version, r, u, xs, ys, zs, rfl, hxs, hys, hzs, rfl⟩ := abirevision_iff_parts.1 h
  have hheader : NoFunction revisionHeader :=
    (noFunction_token (by decide)).bind fun _ => noFunction_number.bind fun _ =>
      (noFunction_token (by decide)).bind fun _ => .pure _
  rw [functionCount_append, functionCount_append, hheader.functionCount hxs,
    (noFunction_token (by decide)).functionCount hzs, Nat.zero_add, Nat.add_zero]
  show r.node.functions.length = functionCount ys
  rw [functionCount_revisionItems hys]
  exact Nat.zero_add _

theorem functionCount_revisions {firstAbirevision : UInt64} {interface result : InterfaceNode}
    {ts : List Lexeme} (hts : ∀ t ∈ ts, PrintableLexeme t)
    (h : Lang.iterate (nextRevision firstAbirevision) interface ts result) :
    (functionsOf result.abiversions).length
      = (functionsOf interface.abiversions).length + functionCount ts := by
  induction h with
  | done => rfl
  | @step _ _ _ xs _ hx hy ih =>
    rw [List.forall_mem_append] at hts
    obtain ⟨node, _, hrevision, -, rfl⟩ := nextRevision_iff.1 hx
    obtain ⟨_, -, -, hresult, -⟩ := abirevision_spec hts.1 hrevision
    obtain ⟨rfl, rfl⟩ := Prod.mk.inj hresult
    have hnode : _ = functionCount xs := functionCount_abirevision hrevision
    rw [ih hts.2, functionsOf_append, List.length_append, functionCount_append, ← hnode]
    simp [functionsOf, InterfaceNode.takeIds, Nat.add_assoc]

/-- The functions of an interface are counted by its lexemes. -/
theorem functionCount_interfaceDecl {firstAbirevision : UInt64} {firstFuncid : UInt32}
    {ts : List Lexeme} {interface : InterfaceNode} (hts : ∀ t ∈ ts, PrintableLexeme t)
    (h : interfaceDecl firstAbirevision firstFuncid ts interface) :
    (functionsOf interface.abiversions).length = functionCount ts := by
  obtain ⟨header, result, u, xs, ys, zs, rfl, hheader, hrevisions, hclose, rfl⟩ :=
    interfaceDecl_iff_parts.1 h
  rw [List.forall_mem_append, List.forall_mem_append] at hts
  obtain ⟨_, _, -, -, rfl, -⟩ := interfaceHeader_spec hts.1 hheader
  have hcount := functionCount_revisions hts.2.1 hrevisions
  simp only [functionCount_append, (noFunction_interfaceHeader _).functionCount hheader,
    (noFunction_token (by decide)).functionCount hclose, hcount]
  simp [functionsOf, functionCount]

/-! ### Whole sentences -/

/-- The lexemes of a revision. -/
def anyRevision : Lang Lexeme Unit := do
  let _ ← abirevision {}
  return ()

/-- The lexemes of an interface, whatever the numbers of its revisions are. -/
def anyInterface : Lang Lexeme Unit := do
  let _ ← interfaceHeader 0
  .iterate (fun _ => anyRevision) ()
  token (op '\x7d')

theorem anyInterface_of_interfaceDecl {firstAbirevision : UInt64} {firstFuncid : UInt32}
    {ts : List Lexeme} {interface : InterfaceNode} (hts : ∀ t ∈ ts, PrintableLexeme t)
    (h : interfaceDecl firstAbirevision firstFuncid ts interface) : anyInterface ts () := by
  have hrevisions {interface result : InterfaceNode} {ts : List Lexeme}
      (hts : ∀ t ∈ ts, PrintableLexeme t)
      (h : Lang.iterate (nextRevision firstAbirevision) interface ts result) :
      Lang.iterate (fun _ => anyRevision) () ts () := by
    induction h with
    | done => exact .done ()
    | step hx hy ih =>
      rw [List.forall_mem_append] at hts
      obtain ⟨_, _, hx, -, -⟩ := nextRevision_iff.1 hx
      obtain ⟨node, -, -, -, hother⟩ := abirevision_spec hts.1 hx
      exact .step (Lang.bind_pure_iff.2 ⟨_, hother {}, rfl⟩) (ih hts.2)
  obtain ⟨header, result, u, xs, ys, zs, rfl, hheader, hys, hclose, rfl⟩ :=
    interfaceDecl_iff_parts.1 h
  rw [List.forall_mem_append, List.forall_mem_append] at hts
  obtain ⟨name, annotations, -, -, -, hother⟩ := interfaceHeader_spec hts.1 hheader
  exact ⟨_, xs, _, rfl, hother 0, (), ys, zs, rfl, hrevisions hts.2.1 hys, hclose⟩

end Syntax

/-- A text begins with the lexemes of at most one interface. -/
theorem anyInterface_unique {source : Bytes} {ts us : List Lexeme} (hts : ts <+: lexemes source)
    (ht : Syntax.anyInterface ts ()) (hus : us <+: lexemes source)
    (hu : Syntax.anyInterface us ()) : ts = us := by
  -- a parser that does not look at the numbers of the revisions
  have hrec : Decides (do
      let _ ← parseInterfaceHeader 0
      whileType (· ≠ op '\x7d') (fun _ => do let _ ← parseAbiversion {}; return ()) ()
      consume (op '\x7d')) Syntax.anyInterface := by
    refine (decides_interfaceHeader 0).bind fun _ => ?_
    refine decides_whileType (fun _ => ?_) (fun _ => ?_) (fun _ => decides_consume (by decide))
      (fun _ => ?_) ()
    · exact (decides_abiversion {}).bind fun _ => .pure _
    · exact Syntax.starts_ne (((Syntax.starts_token _).bind _).bind _) (by decide)
    · exact (Syntax.starts_token _).mono fun t ht => not_not.2 ht
  have hahead : stream.ahead (start source) = lexemes source := ahead_start source
  obtain ⟨ts', hts'⟩ := hts
  obtain ⟨us', hus'⟩ := hus
  exact ((hrec _ (valid_start source)).unique (valid_start source) (hahead.trans hts'.symm) ht
    (hahead.trans hus'.symm) hu).2

/-- The interface that the source begins with has `n` functions. -/
def Declares (source : Bytes) (n : Nat) : Prop :=
  ∃ ts, ts <+: lexemes source ∧ Syntax.anyInterface ts () ∧ functionCount ts = n

/-- A source declares as many functions as the parser finds. -/
theorem declares_of_parse {source : Bytes} {firstAbirevision : UInt64} {firstFuncid : UInt32}
    {interface : InterfaceNode}
    (h : parse source firstAbirevision firstFuncid = .ok (some interface)) :
    Declares source (functionsOf interface.abiversions).length := by
  obtain ⟨ts, hts, hdecl⟩ := parse_eq_some_iff.1 h
  have hprintable := Syntax.printable_of_interfaceDecl hts hdecl
  exact ⟨ts, hts, Syntax.anyInterface_of_interfaceDecl hprintable hdecl,
    (Syntax.functionCount_interfaceDecl hprintable hdecl).symm⟩

theorem Declares.unique {source : Bytes} {m n : Nat} (hm : Declares source m)
    (hn : Declares source n) : m = n := by
  obtain ⟨ts, hts, ht, rfl⟩ := hm
  obtain ⟨us, hus, hu, rfl⟩ := hn
  rw [anyInterface_unique hts ht hus hu]

end Sidlc
