import Sidlc.Sif.Equiv.Decompile

/-!
# What sentences denote

Whatever the parser makes of a source can be printed again: names are identifiers, strings are
quoted, and no type has a size. The revisions of a sentence do not depend on where it is parsed,
apart from the ids of the functions.
-/

namespace Sidlc

open Grammar Sidlc.Parser Sidlc.Parser.Revision

/-! ### Lexemes of a source -/

/-- An identifier is a word that is no keyword, and a string is quoted. -/
def PrintableLexeme (t : Lexeme) : Prop :=
  (t.1 = .identifier → IsIdentifier t.2) ∧ (t.1 = .string → IsQuoted t.2)

theorem printableLexeme_of_ne {t : Lexeme} (hidentifier : t.1 ≠ .identifier)
    (hstring : t.1 ≠ .string) : PrintableLexeme t :=
  ⟨fun h => absurd h hidentifier, fun h => absurd h hstring⟩

/-- A lexeme after which the text goes on can be printed: a string that is not closed is the
last. -/
theorem printableLexeme_scan {c : UInt8} {r : Bytes} (h : (scan c r).2 ≠ []) :
    PrintableLexeme (scan c r).1 := by
  unfold scan at h ⊢
  split_ifs at h ⊢ with hword hzero hdigit hquote
  · have hchars : ∀ d ∈ (c :: r).takeWhile Lexer.isWordChar, Lexer.isWordChar d = true :=
      fun d hd => List.mem_takeWhile_imp hd
    have hc : Lexer.isWordChar c = true := by
      rcases hword with h | h <;> simp [Lexer.isWordChar, isAlnum, h]
    have hhead : c ∈ ((c :: r).takeWhile Lexer.isWordChar).head? := by
      simp [hc]
    exact ⟨fun htype => ⟨⟨⟨c, hhead, hword⟩, hchars⟩, htype⟩,
      fun htype => absurd htype (wordType_ne (by decide) (by decide))⟩
  · -- a number, of whatever form
    cases r with
    | nil => exact printableLexeme_of_ne (by simp) (by simp)
    | cons d r =>
      simp only [scanNumber]
      split_ifs
      all_goals exact printableLexeme_of_ne (by simp) (by simp)
  · exact printableLexeme_of_ne (by simp [scanNumber]) (by simp [scanNumber])
  · refine ⟨fun htype => absurd htype (by simp), fun _ => ?_⟩
    -- a string, which is closed as something follows it
    have hbody : ∀ d ∈ r.takeWhile (· != chr '"'), d ≠ chr '"' := by
      intro d hd
      simpa using List.mem_takeWhile_imp hd
    refine ⟨r.takeWhile (· != chr '"'), ?_, hbody⟩
    cases hrest : r.dropWhile (· != chr '"') with
    | nil => exact absurd (by rw [hrest]; rfl) h
    | cons d rest =>
      have hd : d = chr '"' := by
        have hnot := List.head?_dropWhile_not (· != chr '"') r
        rw [hrest] at hnot
        simpa using hnot
      have hr : r = r.takeWhile (· != chr '"') ++ chr '"' :: rest := by
        rw [hd] at hrest
        conv_lhs => rw [← List.takeWhile_append_dropWhile (p := (· != chr '"')) (l := r), hrest]
      have htake : r.take ((r.takeWhile (· != chr '"')).length + 1)
          = r.takeWhile (· != chr '"') ++ [chr '"'] := by
        conv_lhs => arg 2; rw [hr]
        rw [List.take_length_add_append]
        rfl
      show (c :: r).take _ = _
      rw [List.take_succ_cons, htake, hquote, quoted]
  · exact printableLexeme_of_ne (by simp) (by simp)
  · exact printableLexeme_of_ne (by simp) (by simp)

/-- The lexemes before another one can be printed. -/
theorem printableLexeme_of_lexemes {r : Bytes} {ts us : List Lexeme} {t : Lexeme}
    (h : lexemes r = ts ++ t :: us) : ∀ s ∈ ts, PrintableLexeme s := by
  induction r using lexemes.induct generalizing ts with
  | case1 r hgap =>
    rw [lexemes_of_gap_nil hgap] at h
    simp at h
  | case2 r c r' hgap ih =>
    rw [lexemes_of_gap_cons hgap] at h
    cases ts with
    | nil => exact List.forall_mem_nil _
    | cons s ts =>
      obtain ⟨rfl, hrest⟩ := List.cons.inj h
      rw [List.forall_mem_cons]
      refine ⟨printableLexeme_scan fun hnil => ?_, ih hrest⟩
      rw [hnil, lexemes_nil] at hrest
      simp at hrest

/-! ### Nodes of a source -/

namespace Syntax

/-- What the sentences of printable lexemes denote. -/
abbrev Denotes {α : Type} (L : Lang Lexeme α) (P : α → Prop) : Prop :=
  L.Yields PrintableLexeme P

theorem denotes_identifier : Denotes identifier IsIdentifier := by
  refine Lang.yields_terminal fun t name ht hname => ?_
  by_cases htype : t.1 = .identifier
  · obtain rfl := Option.some.inj ((if_pos htype).symm.trans hname)
    exact ht.1 htype
  · exact absurd ((if_neg htype).symm.trans hname) (by simp)

theorem denotes_string : Denotes string IsQuoted := by
  refine Lang.yields_terminal fun t text ht htext => ?_
  by_cases htype : t.1 = .string
  · obtain rfl := Option.some.inj ((if_pos htype).symm.trans htext)
    exact ht.2 htype
  · exact absurd ((if_neg htype).symm.trans htext) (by simp)

/-- A token without a value does not matter. -/
theorem denotes_token {α : Type} {type : TokenType} {L : Lang Lexeme α} {P : α → Prop}
    (h : Denotes L P) : Denotes (do token type; L) P :=
  (Lang.yields_true _).bind fun _ _ => h

theorem denotes_argument : Denotes argument ExpressionNode.Printable := by
  refine .or ?_ (.or ?_ ?_)
  · exact denotes_identifier.bind fun name h => .pure (a := ExpressionNode.identifier name) h
  · exact denotes_string.bind fun text h => .pure (a := ExpressionNode.string text) h
  · exact (Lang.yields_true number).bind fun value _ =>
      .pure (a := ExpressionNode.number value) trivial

theorem forall_mem_append_singleton {α : Type} {P : α → Prop} {xs : List α} {x : α}
    (hxs : ∀ y ∈ xs, P y) (hx : P x) : ∀ y ∈ xs ++ [x], P y := by
  rw [List.forall_mem_append, List.forall_mem_singleton]
  exact ⟨hxs, hx⟩

theorem denotes_annotationNode : Denotes annotation AnnotationNode.Printable := by
  refine denotes_token (denotes_identifier.bind fun name hname => denotes_token ?_)
  refine (Lang.Yields.sepBy (Q := fun args => ∀ arg ∈ args, ExpressionNode.Printable arg)
    (fun args hargs => ?_) (by simp)).bind fun args hargs => denotes_token (.pure ⟨hname, hargs⟩)
  exact denotes_argument.bind fun _ h => .pure (forall_mem_append_singleton hargs h)

theorem denotes_annotations :
    Denotes annotations fun nodes => ∀ node ∈ nodes, node.Printable :=
  Lang.Yields.iterate (fun _ h => denotes_annotationNode.bind fun _ hnode =>
    .pure (forall_mem_append_singleton h hnode)) (by simp)

/-- Types can be printed, and have no sizes. -/
theorem denotes_type : Denotes type fun t => t.Printable ∧ t.bare = t := by
  intro ts t hts h
  induction h with
  | named hc hname =>
    rw [List.forall_mem_append] at hts
    exact ⟨denotes_identifier _ _ hts.2 hname, rfl⟩
  | ptr hc hk hl ht hr ih =>
    simp only [List.forall_mem_append] at hts
    obtain ⟨hprintable, hbare⟩ := ih hts.2.2.2.1
    exact ⟨hprintable, by rw [TypeNode.bare, hbare]⟩
  | array hc hk hl ht hr ih =>
    simp only [List.forall_mem_append] at hts
    obtain ⟨hprintable, hbare⟩ := ih hts.2.2.2.1
    exact ⟨hprintable, by rw [TypeNode.bare, hbare]⟩

theorem map_eq_append_singleton {α : Type} {f : α → α} {xs : List α} {x : α}
    (hxs : xs.map f = xs) (hx : f x = x) : (xs ++ [x]).map f = xs ++ [x] := by
  rw [List.map_append, hxs, List.map_singleton, hx]

theorem denotes_parameter : Denotes parameter fun node => node.Printable ∧ node.bare = node := by
  refine denotes_annotations.bind fun as has => (Lang.yields_true direction).bind fun d _ =>
    denotes_type.bind fun t ht => denotes_identifier.bind fun name hname => .pure ?_
  exact ⟨⟨hname, has, ht.1⟩, by rw [ParameterNode.bare, ht.2]⟩

theorem denotes_structDecl : Denotes structDecl fun node => node.Printable ∧ node.bare = node := by
  refine denotes_token (denotes_identifier.bind fun name hname => denotes_token ?_)
  refine (Lang.Yields.iterate (Q := fun fields =>
    (∀ field ∈ fields, field.type.Printable ∧ IsIdentifier field.name) ∧
      fields.map StructFieldNode.bare = fields) (fun fields hfields => ?_) (by simp)).bind
    fun fields hfields => denotes_token (denotes_token (.pure ?_))
  · refine denotes_type.bind fun t ht => denotes_identifier.bind fun name hname =>
      denotes_token (.pure ?_)
    exact ⟨forall_mem_append_singleton hfields.1 ⟨ht.1, hname⟩,
      map_eq_append_singleton hfields.2 (by rw [StructFieldNode.bare, ht.2])⟩
  · exact ⟨⟨hname, by simp, hfields.1⟩, by rw [StructNode.bare, hfields.2]⟩

theorem denotes_bitfieldDecl :
    Denotes bitfieldDecl fun node => node.Printable ∧ node.bare = node := by
  refine denotes_token (denotes_token (denotes_type.bind fun t ht => denotes_token
    (denotes_identifier.bind fun name hname => denotes_token ?_)))
  refine (Lang.Yields.iterate (Q := fun fields => ∀ field ∈ fields, IsIdentifier field.name)
    (fun fields hfields => ?_) (by simp)).bind
    fun fields hfields => denotes_token (denotes_token (.pure ?_))
  · exact denotes_identifier.bind fun name hname => denotes_token
      ((Lang.yields_true number).bind fun bits _ => denotes_token
        (.pure (forall_mem_append_singleton hfields hname)))
  · exact ⟨⟨hname, by simp, ht.1, hfields⟩, by rw [BitfieldNode.bare, ht.2]⟩

theorem denotes_enumDecl : Denotes enumDecl fun node => node.Printable ∧ node.bare = node := by
  refine denotes_token (denotes_token (denotes_type.bind fun t ht => denotes_token
    (denotes_identifier.bind fun name hname => denotes_token ?_)))
  refine (Lang.Yields.sepBy (Q := fun members => ∀ member ∈ members,
    IsIdentifier member.name ∧ ∀ a ∈ member.annotations, a.Printable)
    (fun members hmembers => ?_) (by simp)).bind
    fun members hmembers => denotes_token (denotes_token (.pure ?_))
  · exact denotes_annotations.bind fun as has => denotes_identifier.bind fun name hname =>
      denotes_token ((Lang.yields_true number).bind fun value _ =>
        .pure (forall_mem_append_singleton hmembers ⟨hname, has⟩))
  · exact ⟨⟨hname, by simp, ht.1, hmembers⟩, by rw [EnumNode.bare, ht.2]⟩

/-- A function has the next id of the interface and takes it. -/
theorem denotes_functionDecl (interface : InterfaceNode) :
    Denotes (functionDecl interface) fun result =>
      result.1.Printable ∧ result.1.bare = result.1 ∧ result.1.id = interface.currentFuncid ∧
        result.2 = interface.takeIds 1 := by
  refine denotes_token (denotes_identifier.bind fun name hname => denotes_token ?_)
  refine (Lang.Yields.sepBy (Q := fun parameters =>
    (∀ parameter ∈ parameters, ParameterNode.Printable parameter) ∧
      parameters.map ParameterNode.bare = parameters) (fun parameters hparameters => ?_)
    (by simp)).bind fun parameters hparameters => denotes_token (denotes_token (.pure ?_))
  · exact denotes_parameter.bind fun node hnode => .pure
      ⟨forall_mem_append_singleton hparameters.1 hnode.1,
        map_eq_append_singleton hparameters.2 hnode.2⟩
  · exact ⟨⟨hname, by simp, hparameters.1⟩, by rw [FunctionNode.bare, hparameters.2], rfl, rfl⟩

theorem functionDecl_of_functionDecl {interface : InterfaceNode} {ts : List Lexeme}
    {result : FunctionNode × InterfaceNode} (h : functionDecl interface ts result)
    (other : InterfaceNode) :
    functionDecl other ts ({ result.1 with id := other.currentFuncid }, other.takeIds 1) := by
  obtain ⟨name, parameters, hts, rfl⟩ := functionDecl_iff.1 h
  exact functionDecl_iff.2 ⟨name, parameters, hts, rfl⟩

/-! ### Revisions of a source -/

/-- The declaration has no sizes. -/
def Bare : Declaration → Prop
  | .bitfield node => node.bare = node
  | .enum node => node.bare = node
  | .struct node => node.bare = node
  | .function node => node.bare = node

/-- An item is an annotation that becomes pending, or a declaration that takes the pending ones; and
it is the same item in any other revision with the same pending annotations. -/
theorem revisionItem_spec {r r' : Revision} {ts : List Lexeme}
    (hts : ∀ t ∈ ts, PrintableLexeme t) (hr : ∀ a ∈ r.annotations, a.Printable)
    (h : revisionItem r ts r') :
    (∃ node : AnnotationNode, node.Printable ∧
      r' = { r with annotations := r.annotations ++ [node] } ∧
      ∀ s : Revision, s.annotations = r.annotations →
        revisionItem s ts { s with annotations := s.annotations ++ [node] }) ∨
    (∃ d : Declaration, d.Printable ∧ Bare d ∧ r' = r.push d ∧
      ∀ s : Revision, s.annotations = r.annotations → revisionItem s ts (s.push d)) := by
  rcases revisionItem_iff_parts.1 h with ⟨node, hnode, rfl⟩ | ⟨func, interface, hfunc, rfl⟩ |
    ⟨strct, hstruct, rfl⟩ | ⟨bitfield, hbitfield, rfl⟩ | ⟨enumNode, henum, rfl⟩
  · refine .inl ⟨node, denotes_annotationNode ts node hts hnode, rfl, fun s _ => ?_⟩
    exact revisionItem_iff_parts.2 (.inl ⟨node, hnode, rfl⟩)
  · obtain ⟨⟨hname, -, hparameters⟩, hbare, hid, rfl⟩ := denotes_functionDecl _ ts _ hts hfunc
    have hbare' : ({ func with annotations := r.annotations } : FunctionNode).bare
        = { func with annotations := r.annotations } :=
      congrArg (fun f : FunctionNode => { f with annotations := r.annotations }) hbare
    have hpush (s : Revision) : s.push (.function { func with annotations := r.annotations })
        = ⟨{ s.node with functions := s.node.functions ++ [{ func with
              annotations := r.annotations, id := s.interface.currentFuncid }] }, [],
            s.interface.takeIds 1⟩ := by
      simp only [push, hbare']
      rfl
    refine .inr ⟨.function { func with annotations := r.annotations }, ⟨hname, hr, hparameters⟩,
      hbare', ?_, fun s hs => ?_⟩
    · rw [hpush, ← hid]
    · rw [hpush, ← hs]
      -- elsewhere the function takes another id
      have hother := functionDecl_of_functionDecl hfunc s.interface
      exact revisionItem_iff_parts.2 (.inr (.inl ⟨_, _, hother, rfl⟩))
  · obtain ⟨⟨hname, -, hfields⟩, hbare⟩ := denotes_structDecl ts _ hts hstruct
    have hbare' : ({ strct with annotations := r.annotations } : StructNode).bare
        = { strct with annotations := r.annotations } :=
      congrArg (fun n : StructNode => { n with annotations := r.annotations }) hbare
    refine .inr ⟨.struct { strct with annotations := r.annotations }, ⟨hname, hr, hfields⟩, hbare',
      ?_, fun s hs => ?_⟩
    · simp only [push, hbare']
    · simp only [push, hbare']
      rw [← hs]
      exact revisionItem_iff_parts.2 (.inr (.inr (.inl ⟨strct, hstruct, rfl⟩)))
  · obtain ⟨⟨hname, -, hrest⟩, hbare⟩ := denotes_bitfieldDecl ts _ hts hbitfield
    have hbare' : ({ bitfield with annotations := r.annotations } : BitfieldNode).bare
        = { bitfield with annotations := r.annotations } :=
      congrArg (fun n : BitfieldNode => { n with annotations := r.annotations }) hbare
    refine .inr ⟨.bitfield { bitfield with annotations := r.annotations }, ⟨hname, hr, hrest⟩,
      hbare', ?_, fun s hs => ?_⟩
    · simp only [push, hbare']
    · simp only [push, hbare']
      rw [← hs]
      exact revisionItem_iff_parts.2 (.inr (.inr (.inr (.inl ⟨bitfield, hbitfield, rfl⟩))))
  · obtain ⟨⟨hname, -, hrest⟩, hbare⟩ := denotes_enumDecl ts _ hts henum
    have hbare' : ({ enumNode with annotations := r.annotations } : EnumNode).bare
        = { enumNode with annotations := r.annotations } :=
      congrArg (fun n : EnumNode => { n with annotations := r.annotations }) hbare
    refine .inr ⟨.enum { enumNode with annotations := r.annotations }, ⟨hname, hr, hrest⟩, hbare',
      ?_, fun s hs => ?_⟩
    · simp only [push, hbare']
    · simp only [push, hbare']
      rw [← hs]
      exact revisionItem_iff_parts.2 (.inr (.inr (.inr (.inr ⟨enumNode, henum, rfl⟩))))

/-- The pending annotations before the first declaration do not matter behind the last. -/
theorem foldl_push_annotations (ds : List Declaration) (r : Revision)
    (bs as : List AnnotationNode) :
    ({ ds.foldl push { r with annotations := bs } with annotations := as } : Revision)
      = { ds.foldl push r with annotations := as } := by
  cases ds with
  | nil => rfl
  | cons d ds =>
    have hpush : push { r with annotations := bs } d = push r d := by cases d <;> rfl
    rw [List.foldl_cons, hpush, List.foldl_cons]

/-- Some items are some declarations, with annotations left over, wherever they stand. -/
theorem revisionItems_spec {r r' : Revision} {ts : List Lexeme}
    (hts : ∀ t ∈ ts, PrintableLexeme t) (hr : ∀ a ∈ r.annotations, a.Printable)
    (h : Lang.iterate revisionItem r ts r') :
    ∃ (ds : List Declaration) (as : List AnnotationNode),
      (∀ d ∈ ds, d.Printable ∧ Bare d) ∧
      r' = { ds.foldl push r with annotations := as } ∧
      ∀ s : Revision, s.annotations = r.annotations →
        Lang.iterate revisionItem s ts { ds.foldl push s with annotations := as } := by
  -- the pending annotations are the only thing that an item hands to the next one
  induction h with
  | done r =>
    refine ⟨[], r.annotations, by simp, rfl, fun s hs => ?_⟩
    rw [← hs]
    exact .done s
  | @step r r₁ r₂ xs ys hx hy ih =>
    rw [List.forall_mem_append] at hts
    rcases revisionItem_spec hts.1 hr hx with ⟨node, hnode, rfl, hitem⟩ | ⟨d, hd, hbare, rfl, hitem⟩
    · obtain ⟨ds, as, hds, rfl, hrest⟩ := ih hts.2 (forall_mem_append_singleton hr hnode)
      refine ⟨ds, as, hds, foldl_push_annotations .., fun s hs => ?_⟩
      have hs' := hrest { s with annotations := s.annotations ++ [node] } (by rw [hs])
      rw [foldl_push_annotations] at hs'
      exact .step (hitem s hs) hs'
    · obtain ⟨ds, as, hds, rfl, hrest⟩ := ih hts.2 (by simp [annotations_push])
      refine ⟨d :: ds, as, List.forall_mem_cons.2 ⟨⟨hd, hbare⟩, hds⟩, rfl, fun s hs => ?_⟩
      exact .step (hitem s hs) (hrest _ (by rw [annotations_push, annotations_push]))

/-- A revision with one more declaration. -/
def withDeclaration (node : AbiversionNode) : Declaration → AbiversionNode
  | .bitfield b => { node with bitfields := node.bitfields ++ [b] }
  | .enum e => { node with enums := node.enums ++ [e] }
  | .struct s => { node with structs := node.structs ++ [s] }
  | .function f => { node with functions := node.functions ++ [f] }

theorem version_withDeclaration (node : AbiversionNode) (d : Declaration) :
    (withDeclaration node d).version = node.version := by
  cases d <;> rfl

theorem printable_withDeclaration {node : AbiversionNode} {d : Declaration}
    (h : node.Printable) (hd : d.Printable) : (withDeclaration node d).Printable := by
  obtain ⟨hnone, hprintable⟩ := h
  simp only [AbiversionNode.declarations, List.forall_mem_append,
    List.forall_mem_map] at hprintable
  obtain ⟨hbitfields, henums, hstructs, hfunctions⟩ := hprintable
  cases d with
  | bitfield b =>
    refine ⟨hnone, ?_⟩
    simp only [withDeclaration, AbiversionNode.declarations, List.forall_mem_append,
      List.forall_mem_map, List.forall_mem_singleton]
    exact ⟨⟨hbitfields, hd⟩, henums, hstructs, hfunctions⟩
  | enum e =>
    refine ⟨hnone, ?_⟩
    simp only [withDeclaration, AbiversionNode.declarations, List.forall_mem_append,
      List.forall_mem_map, List.forall_mem_singleton]
    exact ⟨hbitfields, ⟨henums, hd⟩, hstructs, hfunctions⟩
  | struct s =>
    refine ⟨hnone, ?_⟩
    simp only [withDeclaration, AbiversionNode.declarations, List.forall_mem_append,
      List.forall_mem_map, List.forall_mem_singleton]
    exact ⟨hbitfields, henums, ⟨hstructs, hd⟩, hfunctions⟩
  | function f =>
    refine ⟨hnone, ?_⟩
    simp only [withDeclaration, AbiversionNode.declarations, List.forall_mem_append,
      List.forall_mem_map, List.forall_mem_singleton]
    exact ⟨hbitfields, henums, hstructs, hfunctions, hd⟩

theorem bare_withDeclaration {node : AbiversionNode} {d : Declaration}
    (hnode : node.bare = node) (hd : Bare d) :
    (withDeclaration node d).bare = withDeclaration node d := by
  calc (withDeclaration node d).bare = withDeclaration node.bare d := by
        cases d <;> simp only [Bare] at hd <;>
          simp [withDeclaration, AbiversionNode.bare, hd]
    _ = withDeclaration node d := by rw [hnode]

/-- The parser adds the declaration, and gives a function the next id. -/
theorem push_numbered {node : AbiversionNode} {d : Declaration} (hnode : node.bare = node)
    (hd : Bare d) (interface : InterfaceNode) :
    push ⟨node.numbered interface.currentFuncid, [], interface.takeIds node.functions.length⟩ d
      = ⟨(withDeclaration node d).numbered interface.currentFuncid, [],
          interface.takeIds (withDeclaration node d).functions.length⟩ := by
  rw [AbiversionNode.numbered, AbiversionNode.numbered, bare_withDeclaration hnode hd, hnode]
  cases d with
  | bitfield b =>
    have hb : b.bare = b := hd
    simp only [push, withDeclaration, hb]
  | enum e =>
    have he : e.bare = e := hd
    simp only [push, withDeclaration, he]
  | struct s =>
    have hs : s.bare = s := hd
    simp only [push, withDeclaration, hs]
  | function f =>
    have hf : f.bare = f := hd
    have hcount : UInt32.ofNat (node.functions ++ [f]).length
        = UInt32.ofNat node.functions.length + 1 := by
      rw [List.length_append, UInt32.ofNat_add]
      rfl
    simp only [push, withDeclaration, hf, renumberFunctions_append, InterfaceNode.takeIds,
      hcount, ← UInt32.add_assoc]
    rfl

/-- Declarations make up a revision, apart from the ids. -/
theorem foldl_push_spec (version : UInt64) {ds : List Declaration}
    (hds : ∀ d ∈ ds, d.Printable ∧ Bare d) :
    ∃ node : AbiversionNode, node.version = version ∧ node.Printable ∧ node.bare = node ∧
      ∀ interface : InterfaceNode, ds.foldl push ⟨{ version }, [], interface⟩
        = ⟨node.numbered interface.currentFuncid, [], interface.takeIds node.functions.length⟩ := by
  -- from the right: the last declaration goes behind what the others made up
  induction ds using List.reverseRecOn with
  | nil =>
    refine ⟨{ version }, rfl, ⟨rfl, by simp [AbiversionNode.declarations]⟩, rfl,
      fun interface => ?_⟩
    simp [AbiversionNode.numbered, AbiversionNode.bare, renumberFunctions, InterfaceNode.takeIds]
  | append_singleton ds d ih =>
    rw [List.forall_mem_append, List.forall_mem_singleton] at hds
    obtain ⟨hds, hd, hdbare⟩ := hds
    obtain ⟨node, hversion, hprintable, hbare, hfold⟩ := ih hds
    refine ⟨withDeclaration node d, (version_withDeclaration node d).trans hversion,
      printable_withDeclaration hprintable hd, bare_withDeclaration hbare hdbare,
      fun interface => ?_⟩
    rw [List.foldl_append, hfold]
    exact push_numbered hbare hdbare interface

/-- A revision is the same wherever it stands, apart from the ids of its functions, which are the
next ones. -/
theorem abirevision_spec {interface : InterfaceNode} {ts : List Lexeme}
    {result : AbiversionNode × InterfaceNode} (hts : ∀ t ∈ ts, PrintableLexeme t)
    (h : abirevision interface ts result) :
    ∃ node : AbiversionNode, node.Printable ∧ node.bare = node ∧
      result = (node.numbered interface.currentFuncid, interface.takeIds node.functions.length) ∧
      ∀ other : InterfaceNode, abirevision other ts
        (node.numbered other.currentFuncid, other.takeIds node.functions.length) := by
  obtain ⟨version, r, u, xs, ys, zs, rfl, hxs, hys, hzs, rfl⟩ := abirevision_iff_parts.1 h
  rw [List.forall_mem_append, List.forall_mem_append] at hts
  obtain ⟨ds, as, hds, rfl, hitems⟩ := revisionItems_spec hts.2.1 (by simp) hys
  obtain ⟨node, hversion, hprintable, hbare, hfold⟩ := foldl_push_spec version hds
  refine ⟨node, hprintable, hbare, ?_, fun other => ?_⟩
  · rw [hfold]
  · have hother := hitems ⟨{ version }, [], other⟩ rfl
    rw [hfold] at hother
    exact abirevision_iff_parts.2 ⟨version, _, u, xs, ys, zs, rfl, hxs, hother, hzs, rfl⟩

theorem declare_singleton (interface : InterfaceNode) (node : AbiversionNode) :
    interface.declare [node] = { interface.takeIds node.functions.length with
      abiversions := interface.abiversions ++ [node.numbered interface.currentFuncid] } := by
  simp [InterfaceNode.declare, InterfaceNode.takeIds, renumber, functionsOf,
    AbiversionNode.numbered]

theorem nextRevision_spec {firstAbirevision : UInt64} {interface result : InterfaceNode}
    {ts : List Lexeme} (hts : ∀ t ∈ ts, PrintableLexeme t)
    (h : nextRevision firstAbirevision interface ts result) :
    ∃ node : AbiversionNode, node.Printable ∧ node.bare = node ∧
      node.version = firstAbirevision + UInt64.ofNat interface.abiversions.length ∧
      result = interface.declare [node] ∧
      ∀ (other : InterfaceNode) (first : UInt64),
        node.version = first + UInt64.ofNat other.abiversions.length →
        nextRevision first other ts (other.declare [node]) := by
  obtain ⟨_, _, hx, hversion, rfl⟩ := nextRevision_iff.1 h
  obtain ⟨node, hprintable, hbare, hresult, hother⟩ := abirevision_spec hts hx
  obtain ⟨rfl, rfl⟩ := Prod.mk.inj hresult
  refine ⟨node, hprintable, hbare, hversion, (declare_singleton interface node).symm,
    fun other first hfirst => ?_⟩
  rw [declare_singleton]
  exact nextRevision_iff.2 ⟨_, _, hother other, hfirst, rfl⟩

/-- The revisions are numbered `first`, `first + 1`, ..., in sixty-four bits. -/
def VersionsAt : UInt64 → List AbiversionNode → Prop
  | _, [] => True
  | version, node :: nodes => node.version = version ∧ VersionsAt (version + 1) nodes

/-- Revisions are the same wherever they stand, apart from the ids of their functions. -/
theorem nextRevisions_spec {firstAbirevision : UInt64} {interface result : InterfaceNode}
    {ts : List Lexeme} (hts : ∀ t ∈ ts, PrintableLexeme t)
    (h : Lang.iterate (nextRevision firstAbirevision) interface ts result) :
    ∃ nodes : List AbiversionNode, (∀ node ∈ nodes, node.Printable) ∧
      nodes.map AbiversionNode.bare = nodes ∧
      VersionsAt (firstAbirevision + UInt64.ofNat interface.abiversions.length) nodes ∧
      result = interface.declare nodes ∧
      ∀ (other : InterfaceNode) (first : UInt64),
        first + UInt64.ofNat other.abiversions.length
          = firstAbirevision + UInt64.ofNat interface.abiversions.length →
        Lang.iterate (nextRevision first) other ts (other.declare nodes) := by
  induction h with
  | done interface =>
    refine ⟨[], by simp, rfl, trivial, interface.declare_nil.symm, fun other first _ => ?_⟩
    rw [other.declare_nil]
    exact .done other
  | @step interface middle result xs ys hx hy ih =>
    rw [List.forall_mem_append] at hts
    obtain ⟨node, hprintable, hbare, hversion, rfl, hnode⟩ := nextRevision_spec hts.1 hx
    obtain ⟨nodes, hprintables, hbares, hversions, rfl, hnodes⟩ := ih hts.2
    have hlength (interface : InterfaceNode) : (interface.declare [node]).abiversions.length
        = interface.abiversions.length + 1 := by
      simp [InterfaceNode.declare]
    -- the expected number goes up by one, in 64 bits
    have hnext (interface : InterfaceNode) (first : UInt64) :
        first + UInt64.ofNat (interface.declare [node]).abiversions.length
          = first + UInt64.ofNat interface.abiversions.length + 1 := by
      rw [hlength, UInt64.ofNat_add, UInt64.add_assoc]
      rfl
    refine ⟨node :: nodes, List.forall_mem_cons.2 ⟨hprintable, hprintables⟩, ?_, ?_, ?_,
      fun other first hfirst => ?_⟩
    · rw [List.map_cons, hbare, hbares]
    · rw [hnext] at hversions
      exact ⟨hversion, hversions⟩
    · rw [InterfaceNode.declare_declare, List.singleton_append]
    · have hrest := hnodes (other.declare [node]) first (by rw [hnext, hnext, hfirst])
      rw [InterfaceNode.declare_declare, List.singleton_append] at hrest
      exact .step (hnode other first (by rw [hversion, hfirst])) hrest

/-! ### Interfaces of a source -/

theorem denotes_heading : Denotes heading fun header =>
    IsIdentifier header.2 ∧ ∀ node ∈ header.1, node.Printable :=
  denotes_annotations.bind fun _ hnodes => denotes_token (denotes_identifier.bind fun _ hname =>
    denotes_token (.pure ⟨hname, hnodes⟩))

/-- A header names the interface and annotates it, and does not depend on the first free id. -/
theorem interfaceHeader_spec {firstFuncid : UInt32} {ts : List Lexeme} {interface : InterfaceNode}
    (hts : ∀ t ∈ ts, PrintableLexeme t) (h : interfaceHeader firstFuncid ts interface) :
    ∃ (name : Bytes) (nodes : List AnnotationNode), IsIdentifier name ∧
      (∀ node ∈ nodes, node.Printable) ∧
      interface = { name, annotations := nodes, currentFuncid := firstFuncid } ∧
      ∀ other : UInt32,
        interfaceHeader other ts { name, annotations := nodes, currentFuncid := other } := by
  obtain ⟨nodes, name, hheading, rfl⟩ := interfaceHeader_iff.1 h
  have hspec : IsIdentifier name ∧ ∀ node ∈ nodes, node.Printable := by
    refine denotes_heading ts (nodes, name) hts hheading
  exact ⟨name, nodes, hspec.1, hspec.2, rfl, fun other => interfaceHeader_of_heading hheading other⟩

/-- Every lexeme of the sentence a source begins with can be printed, since the last is a brace. -/
theorem printable_of_interfaceDecl {source : Bytes} {firstAbirevision : UInt64}
    {firstFuncid : UInt32} {ts : List Lexeme} {interface : InterfaceNode}
    (hts : ts <+: lexemes source) (h : interfaceDecl firstAbirevision firstFuncid ts interface) :
    ∀ t ∈ ts, PrintableLexeme t := by
  obtain ⟨_, _, _, xs, ys, _, rfl, -, -, hbrace, -⟩ := interfaceDecl_iff_parts.1 h
  obtain ⟨brace, rfl, htype⟩ := token_iff.1 hbrace
  obtain ⟨us, hus⟩ := hts
  have hlast : PrintableLexeme brace :=
    printableLexeme_of_ne (by simp [htype, op]) (by simp [htype, op])
  have hlexemes : lexemes source = (xs ++ ys) ++ brace :: us := by
    rw [← hus]
    simp
  rw [← List.append_assoc, List.forall_mem_append, List.forall_mem_singleton]
  exact ⟨printableLexeme_of_lexemes hlexemes, hlast⟩

/-- **The interface of a source**: the header, and revisions that can be printed, without sizes and
with contiguous numbers, declared one after the other. -/
theorem interfaceDecl_spec {firstAbirevision : UInt64} {firstFuncid : UInt32} {ts : List Lexeme}
    {interface : InterfaceNode} (hts : ∀ t ∈ ts, PrintableLexeme t)
    (h : interfaceDecl firstAbirevision firstFuncid ts interface) :
    ∃ (name : Bytes) (annotations : List AnnotationNode) (nodes : List AbiversionNode),
      IsIdentifier name ∧ (∀ node ∈ annotations, node.Printable) ∧
      (∀ node ∈ nodes, node.Printable) ∧ nodes.map AbiversionNode.bare = nodes ∧
      VersionsAt firstAbirevision nodes ∧
      interface =
        InterfaceNode.declare { name, annotations, currentFuncid := firstFuncid } nodes := by
  obtain ⟨_, _, _, xs, ys, zs, rfl, hheader, hrevisions, -, rfl⟩ := interfaceDecl_iff_parts.1 h
  rw [List.forall_mem_append, List.forall_mem_append] at hts
  obtain ⟨name, as, hname, has, rfl, -⟩ := interfaceHeader_spec hts.1 hheader
  obtain ⟨nodes, hprintable, hbare, hversions, rfl, -⟩ := nextRevisions_spec hts.2.1 hrevisions
  have hfirst : firstAbirevision + UInt64.ofNat ([] : List AbiversionNode).length
      = firstAbirevision := UInt64.add_zero _
  rw [hfirst] at hversions
  exact ⟨name, as, nodes, hname, has, hprintable, hbare, hversions, rfl⟩

end Syntax

end Sidlc
