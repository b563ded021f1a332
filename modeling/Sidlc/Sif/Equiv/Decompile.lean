import Sidlc.Equiv.Acceptance
import Sidlc.Equiv.Uuid
import Sidlc.Numbering
import Sidlc.Sif.Decompile

/-!
# Printed interfaces are sentences of the grammar

What `sif_decompile` prints for a node is read as a sentence of the production for such nodes, and
denotes the node again, without sizes and hashes. The names in the node have to be identifiers and
its strings quoted (`Printable`). Functions are not printed with their ids: they get the ids that
are free where the text is parsed (`renumber`).
-/

namespace Sidlc

open Grammar Decimal Sidlc.Parser

/-- Anything may follow the text. -/
abbrev PrintsAs {α : Type} (t : Bytes) (L : Lang Lexeme α) (a : α) : Prop :=
  Prints lexemes Anything t L a

/-- The text has to be followed by the end of a word. -/
abbrev PrintsWord {α : Type} (t : Bytes) (L : Lang Lexeme α) (a : α) : Prop :=
  Prints lexemes EndsWord t L a

/-! ### Tokens -/

/-- A word that is no keyword. -/
def IsIdentifier (text : Bytes) : Prop :=
  IsWord text ∧ Lexer.wordType text = .identifier

instance (text : Bytes) : Decidable (IsIdentifier text) :=
  inferInstanceAs (Decidable (_ ∧ _))

/-- The text of a string literal. -/
def quoted (body : Bytes) : Bytes :=
  chr '"' :: (body ++ [chr '"'])

def IsQuoted (value : Bytes) : Prop :=
  ∃ body, value = quoted body ∧ ∀ c ∈ body, c ≠ chr '"'

instance (value : Bytes) : Decidable (IsQuoted value) :=
  decidable_of_iff (value = quoted value.tail.dropLast ∧ chr '"' ∉ value.tail.dropLast)
    ⟨fun ⟨heq, h⟩ => ⟨_, heq, fun _ hc hq => h (hq ▸ hc)⟩, by
      rintro ⟨body, rfl, h⟩
      have hbody : (quoted body).tail.dropLast = body := List.dropLast_concat
      rw [hbody]
      exact ⟨rfl, fun hq => h _ hq rfl⟩⟩

/-- Blanks between two tokens. -/
def Blank (w : Bytes) : Prop :=
  ∀ c ∈ w, isSpace c = true

instance (w : Bytes) : Decidable (Blank w) :=
  List.decidableBAll _ w

theorem blank_nil : Blank [] :=
  nofun

theorem blank_space : Blank (ascii " ") := by
  decide +kernel

theorem blank_newline : Blank (ascii "\n") := by
  decide +kernel

theorem endsWord_cons {c : UInt8} (h : Lexer.isWordChar c = false) (r : Bytes) :
    EndsWord (c :: r) := by
  rintro d ⟨⟩
  exact h

theorem prints_word {w : Bytes} (hw : IsWord w) {type : TokenType}
    (htype : Lexer.wordType w = type) : PrintsWord w (Syntax.token type) () :=
  ⟨[(Lexer.wordType w, w)], ⟨_, rfl, if_pos htype⟩, fun _ hr => lexemes_word hw hr⟩

theorem prints_keyword {w : Bytes} {type : TokenType} (h : (w, type) ∈ Lexer.keywords) :
    PrintsWord w (Syntax.token type) () :=
  prints_word (isWord_keyword _ h).1 (isWord_keyword _ h).2

/-- A keyword and a blank. -/
theorem prints_keywordBlank (w : Bytes) {type : TokenType} (h : (w, type) ∈ Lexer.keywords) :
    PrintsAs (w ++ ascii " ") (Syntax.token type) () :=
  (prints_keyword h).skipAfter (lexemes_blanks blank_space) fun r _ => endsWord_cons (by decide) r

theorem prints_identifier {text : Bytes} (h : IsIdentifier text) :
    PrintsWord text Syntax.identifier text :=
  ⟨[(Lexer.wordType text, text)], ⟨_, rfl, if_pos h.2⟩, fun _ hr => lexemes_word h.1 hr⟩

/-- An operator with blanks around it. -/
theorem prints_operator (before : Bytes) (c : Char) (after : Bytes)
    (hop : Lexer.isOperator (chr c) = true) (hbefore : Blank before) (hafter : Blank after) :
    PrintsAs (before ++ (chr c :: after)) (Syntax.token (op c)) () := by
  refine ⟨[(.char (chr c), [chr c])], ⟨_, rfl, if_pos rfl⟩, fun r _ => ?_⟩
  rw [List.append_assoc, lexemes_blanks hbefore, List.cons_append, lexemes_operator hop,
    lexemes_blanks hafter]
  rfl

theorem prints_string {body : Bytes} (h : ∀ c ∈ body, c ≠ chr '"') :
    PrintsAs (quoted body) Syntax.string (quoted body) := by
  refine ⟨[(.string, quoted body)], ⟨_, rfl, if_pos rfl⟩, fun r _ => ?_⟩
  rw [quoted, List.cons_append, List.append_assoc, List.singleton_append, lexemes_string h]
  rfl

/-- The decimal form of a number is read as the number. -/
theorem stoull_numeral (value : UInt64) : stoull (numeral value.toNat) = .ok value := by
  have hdec : IsDecimal (numeral value.toNat) :=
    ⟨numeral_ne_nil _, fun c hc => isDigit_of_mem_numeral hc, by
      rw [decimalValue_numeral]
      exact value.toNat_lt⟩
  rw [stoull_of_isDecimal hdec, decimalValue_numeral, UInt64.ofNat_toNat]

theorem prints_number (value : UInt64) :
    PrintsWord (numeral value.toNat) Syntax.number value := by
  have hvalue : (stoull (numeral value.toNat)).toOption = some value := by
    rw [stoull_numeral]
    rfl
  exact ⟨[(.number, numeral value.toNat)], ⟨_, rfl, hvalue⟩, fun _ hr => lexemes_numeral _ hr⟩

theorem blank_writeIndent (indent : Nat) : Blank (writeIndent indent) := by
  intro c hc
  rw [writeIndent, List.mem_flatten] at hc
  obtain ⟨w, hw, hc⟩ := hc
  rw [List.eq_of_mem_replicate hw] at hc
  have hspace : Blank (ascii "    ") := by decide +kernel
  exact hspace c hc

theorem lexemes_writeIndent (indent : Nat) (r : Bytes) :
    lexemes (writeIndent indent ++ r) = lexemes r :=
  lexemes_blanks (blank_writeIndent indent) r

/-! ### Annotations -/

def ExpressionNode.Printable : ExpressionNode → Prop
  | .string value => IsQuoted value
  | .number _ => True
  | .identifier name => IsIdentifier name

def AnnotationNode.Printable (node : AnnotationNode) : Prop :=
  IsIdentifier node.name ∧ ∀ arg ∈ node.args, arg.Printable

theorem prints_expression {node : ExpressionNode} (h : node.Printable) :
    PrintsWord (decompileExpression node) Syntax.argument node := by
  cases node with
  | string value =>
    obtain ⟨body, rfl, hbody⟩ := h
    exact ((prints_string hbody).thenReturn ExpressionNode.string).ofAnything.orLeft.orRight
  | number value => exact ((prints_number value).thenReturn ExpressionNode.number).orRight.orRight
  | identifier name => exact ((prints_identifier h).thenReturn ExpressionNode.identifier).orLeft

theorem prints_comma : PrintsAs (ascii ", ") (Syntax.token (op ',')) () :=
  prints_operator [] ',' (ascii " ") (isOperator_spec _ (by decide)) blank_nil
      blank_space

theorem prints_openParen : PrintsAs (ascii "(") (Syntax.token (op '(')) () :=
  prints_operator [] '(' [] (isOperator_spec _ (by decide)) blank_nil blank_nil

theorem prints_closeParen : PrintsAs (ascii ")") (Syntax.token (op ')')) () :=
  prints_operator [] ')' [] (isOperator_spec _ (by decide)) blank_nil blank_nil

theorem prints_annotationNode {node : AnnotationNode} (h : node.Printable) :
    PrintsAs (decompileAnnotationNode node) Syntax.annotation node := by
  obtain ⟨hname, hargs⟩ := h
  have hat : PrintsAs (ascii "@") (Syntax.token (op '@')) () :=
    prints_operator [] '@' [] (isOperator_spec _ (by decide)) blank_nil blank_nil
  have hlist : PrintsWord (separatedBy (ascii ", ") decompileExpression node.args)
      (.sepBy (Syntax.token (op ',')) (fun args => do
        let arg ← Syntax.argument
        return args ++ [arg]) []) node.args := by
    refine Prints.sepBySeparatedBy (G := id) prints_comma (fun r => endsWord_cons (by decide) _)
      fun ys x hx => ?_
    exact (prints_expression (hargs x hx)).thenReturn (ys ++ [·])
  refine hat.andThen ((prints_identifier hname).bind (prints_openParen.andThen (hlist.bind
    (prints_closeParen.thenReturn fun _ => node) ?_)) ?_)
  · exact fun r _ => endsWord_cons (by decide) _
  · exact fun r _ => endsWord_cons (by decide) _

/-- Annotations on lines of their own. -/
theorem prints_annotations {annotations : List AnnotationNode}
    (h : ∀ node ∈ annotations, node.Printable) (indent : Nat) :
    PrintsAs (decompileAnnotations annotations indent) Syntax.annotations annotations := by
  refine Prints.iterateFlatMap (G := id) fun ys x hx => ?_
  have hline : PrintsAs (decompileAnnotationNode x ++ ascii "\n") Syntax.annotation x :=
    (prints_annotationNode (h x hx)).skipAfter (lexemes_blanks blank_newline) fun _ _ => trivial
  exact (hline.skip (lexemes_writeIndent indent)).thenReturn (ys ++ [·])

/-- The annotations of a parameter. -/
theorem prints_parameterAnnotations {annotations : List AnnotationNode}
    (h : ∀ node ∈ annotations, node.Printable) :
    PrintsAs (annotations.flatMap fun node => decompileAnnotationNode node ++ ascii " ")
      Syntax.annotations annotations := by
  refine Prints.iterateFlatMap (G := id) fun ys x hx => ?_
  have hblank : PrintsAs (decompileAnnotationNode x ++ ascii " ") Syntax.annotation x :=
    (prints_annotationNode (h x hx)).skipAfter (lexemes_blanks blank_space) fun _ _ => trivial
  exact hblank.thenReturn (ys ++ [·])

/-! ### Types -/

def TypeNode.Printable : TypeNode → Prop
  | .named _ _ name => IsIdentifier name
  | .ptr _ _ innerType => innerType.Printable
  | .array _ _ innerType => innerType.Printable

theorem prints_constFlag (isConst : Bool) :
    PrintsAs (if isConst then ascii "const " else []) Syntax.constFlag isConst := by
  cases isConst with
  | true =>
    have hconst : PrintsAs (ascii "const " ) (Syntax.token .kwdConst) () :=
      prints_keywordBlank (ascii "const") (by simp [Lexer.keywords])
    exact (hconst.thenReturn fun _ => true).orLeft
  | false => exact (Prints.pure false).orRight

theorem prints_less : PrintsAs (ascii "<") (Syntax.token (op '<')) () :=
  prints_operator [] '<' [] (isOperator_spec _ (by decide)) blank_nil
      blank_nil

/-- A pointer or an array. -/
theorem prints_wrapper {w : Bytes} {keyword : TokenType} (h : (w, keyword) ∈ Lexer.keywords)
    (node : TypeNode → TypeNode) {innerType : TypeNode}
    (ih : PrintsWord (decompileType innerType) Syntax.type innerType.bare) :
    PrintsAs (w ++ (ascii "<" ++ (decompileType innerType ++ ascii ">")))
      (Syntax.wrapper keyword node) (node innerType.bare) := by
  have hgreater : PrintsAs (ascii ">") (Syntax.token (op '>')) () :=
    prints_operator [] '>' [] (isOperator_spec _ (by decide)) blank_nil
      blank_nil
  refine (prints_keyword h).bind (prints_less.andThen (ih.bind
    (hgreater.thenReturn fun _ => node innerType.bare) ?_)) ?_
  · exact fun r _ => endsWord_cons (by decide) _
  · exact fun r _ => endsWord_cons (by decide) _

theorem prints_type {node : TypeNode} (h : node.Printable) :
    PrintsWord (decompileType node) Syntax.type node.bare := by
  induction node with
  | named isConst size name =>
    have hname : PrintsWord name (Syntax.typeBody isConst) (.named isConst 0 name) :=
      ((prints_identifier h).thenReturn (TypeNode.named isConst 0)).orRight.orRight
    rw [decompileType]
    exact ((prints_constFlag isConst).andThen hname).lang fun ts => (Syntax.type_iff ts _).1
  | ptr isConst size innerType ih =>
    have hptr : PrintsAs (ascii "ptr" ++ (ascii "<" ++ (decompileType innerType ++ ascii ">")))
        (Syntax.typeBody isConst) (.ptr isConst 0 innerType.bare) :=
      (prints_wrapper (by simp [Lexer.keywords]) (.ptr isConst 0) (ih h)).orLeft
    rw [decompileType]
    exact ((prints_constFlag isConst).andThen hptr.ofAnything).lang fun ts =>
      (Syntax.type_iff ts _).1
  | array isConst size innerType ih =>
    have harray : PrintsAs (ascii "array" ++ (ascii "<" ++ (decompileType innerType ++ ascii ">")))
        (Syntax.typeBody isConst) (.array isConst 0 innerType.bare) :=
      (prints_wrapper (by simp [Lexer.keywords]) (.array isConst 0)
        (ih h)).orLeft.orRight
    rw [decompileType]
    exact ((prints_constFlag isConst).andThen harray.ofAnything).lang fun ts =>
      (Syntax.type_iff ts _).1

/-! ### Declarations -/

def StructNode.Printable (node : StructNode) : Prop :=
  IsIdentifier node.name ∧ (∀ a ∈ node.annotations, a.Printable) ∧
    ∀ field ∈ node.fields, field.type.Printable ∧ IsIdentifier field.name

def BitfieldNode.Printable (node : BitfieldNode) : Prop :=
  IsIdentifier node.name ∧ (∀ a ∈ node.annotations, a.Printable) ∧ node.baseType.Printable ∧
    ∀ field ∈ node.fields, IsIdentifier field.name

def EnumNode.Printable (node : EnumNode) : Prop :=
  IsIdentifier node.name ∧ (∀ a ∈ node.annotations, a.Printable) ∧ node.baseType.Printable ∧
    ∀ member ∈ node.members, IsIdentifier member.name ∧ ∀ a ∈ member.annotations, a.Printable

def ParameterNode.Printable (node : ParameterNode) : Prop :=
  IsIdentifier node.name ∧ (∀ a ∈ node.annotations, a.Printable) ∧ node.type.Printable

def FunctionNode.Printable (node : FunctionNode) : Prop :=
  IsIdentifier node.name ∧ (∀ a ∈ node.annotations, a.Printable) ∧
    ∀ parameter ∈ node.parameters, parameter.Printable

theorem prints_semicolon : PrintsAs (ascii ";\n") (Syntax.token (op ';')) () :=
  prints_operator [] ';' (ascii "\n") (isOperator_spec _ (by decide)) blank_nil
      blank_newline

theorem prints_greater : PrintsAs (ascii "> ") (Syntax.token (op '>')) () :=
  prints_operator [] '>' (ascii " ") (isOperator_spec _ (by decide)) blank_nil
      blank_space

/-- The opening brace at the end of a line. -/
theorem prints_open : PrintsAs (ascii " \x7b\n") (Syntax.token (op '\x7b')) () :=
  prints_operator (ascii " ") '\x7b' (ascii "\n") (isOperator_spec _ (by decide)) blank_space
      blank_newline

/-- The closing brace on a line of its own. -/
theorem prints_closeBrace : PrintsAs (ascii "\x7d\n") (Syntax.token (op '\x7d')) () :=
  prints_operator [] '\x7d' (ascii "\n") (isOperator_spec _ (by decide)) blank_nil blank_newline

/-- The closing brace and semicolon of a declaration. -/
theorem prints_close {α : Type} (x : α) :
    PrintsAs (writeIndent 2 ++ ascii "\x7d;\n")
      (do Syntax.token (op '\x7d'); Syntax.token (op ';'); return x) x := by
  have hbrace : PrintsAs (ascii "\x7d") (Syntax.token (op '\x7d')) () :=
    prints_operator [] '\x7d' [] (isOperator_spec _ (by decide)) blank_nil
      blank_nil
  have hclose : PrintsAs (ascii "\x7d" ++ ascii ";\n")
      (do Syntax.token (op '\x7d'); Syntax.token (op ';'); return x) x :=
    hbrace.andThen (prints_semicolon.thenReturn fun _ => x)
  exact hclose.skip (lexemes_writeIndent 2)

/-- A name with a blank before it. -/
theorem prints_blankIdentifier {text : Bytes} (h : IsIdentifier text) :
    PrintsWord (ascii " " ++ text) Syntax.identifier text :=
  (prints_identifier h).skip (lexemes_blanks blank_space)

theorem prints_structField {field : StructFieldNode}
    (h : field.type.Printable ∧ IsIdentifier field.name) (fields : List StructFieldNode) :
    PrintsAs (decompileStructField field) (Syntax.structField fields) (fields ++ [field.bare]) := by
  refine Prints.skip (lexemes_writeIndent 3) ?_
  refine (prints_type h.1).bind (Prints.skip (lexemes_blanks blank_space)
    ((prints_identifier h.2).bind
      (prints_semicolon.thenReturn fun _ => fields ++ [field.bare]) ?_)) ?_
  · exact fun r _ => endsWord_cons (by decide) _
  · exact fun r _ => endsWord_cons (by decide) _

/-- A struct without its annotations. -/
theorem prints_structDecl {node : StructNode} (h : node.Printable) :
    PrintsAs (writeIndent 2 ++ (ascii "struct " ++ (node.name ++ (ascii " \x7b\n" ++
      (node.fields.flatMap decompileStructField ++ (writeIndent 2 ++ ascii "\x7d;\n"))))))
      Syntax.structDecl { node.bare with annotations := [] } := by
  obtain ⟨hname, -, hfields⟩ := h
  refine Prints.skip (lexemes_writeIndent 2) ?_
  have hstruct : PrintsAs (ascii "struct ") (Syntax.token .kwdStruct) () :=
    prints_keywordBlank (ascii "struct") (by simp [Lexer.keywords])
  have hlist : PrintsAs (node.fields.flatMap decompileStructField)
      (.iterate Syntax.structField []) node.bare.fields := by
    refine Prints.iterateFlatMap (G := List.map StructFieldNode.bare) fun ys x hx => ?_
    rw [List.map_append, List.map_singleton]
    exact prints_structField (hfields x hx) _
  refine hstruct.andThen ((prints_identifier hname).bind (prints_open.andThen
    (hlist.andThen (prints_close _))) fun r _ => endsWord_cons (by decide) _)

theorem prints_bitfieldField {field : BitfieldFieldNode} (h : IsIdentifier field.name)
    (fields : List BitfieldFieldNode) :
    PrintsAs (decompileBitfieldField field) (Syntax.bitfieldField fields) (fields ++ [field]) := by
  have hcolon : PrintsAs (ascii " : ") (Syntax.token (op ':')) () :=
    prints_operator (ascii " ") ':' (ascii " ") (isOperator_spec _ (by decide)) blank_space
      blank_space
  refine Prints.skip (lexemes_writeIndent 3) ?_
  refine (prints_identifier h).bind (hcolon.andThen ((prints_number field.bits).bind
    (prints_semicolon.thenReturn fun _ => fields ++ [field]) ?_)) ?_
  · exact fun r _ => endsWord_cons (by decide) _
  · exact fun r _ => endsWord_cons (by decide) _

theorem prints_bitfieldDecl {node : BitfieldNode} (h : node.Printable) :
    PrintsAs (writeIndent 2 ++ (ascii "bitfield<" ++ (decompileType node.baseType ++
      (ascii "> " ++ (node.name ++ (ascii " \x7b\n" ++
        (node.fields.flatMap decompileBitfieldField ++ (writeIndent 2 ++ ascii "\x7d;\n"))))))))
      Syntax.bitfieldDecl { node.bare with annotations := [] } := by
  obtain ⟨hname, -, htype, hfields⟩ := h
  have hbitfield : PrintsWord (ascii "bitfield") (Syntax.token .kwdBitfield) () :=
    prints_keyword (by simp [Lexer.keywords])
  have hlist : PrintsAs (node.fields.flatMap decompileBitfieldField)
      (.iterate Syntax.bitfieldField []) node.fields :=
    Prints.iterateFlatMap (G := id) fun ys x hx => prints_bitfieldField (hfields x hx) ys
  refine Prints.skip (lexemes_writeIndent 2) (hbitfield.bind (prints_less.andThen
    ((prints_type htype).bind (prints_greater.andThen ((prints_identifier hname).bind
      (prints_open.andThen (hlist.andThen (prints_close _))) ?_)) ?_)) ?_)
  · exact fun r _ => endsWord_cons (by decide) _
  · exact fun r _ => endsWord_cons (by decide) _
  · exact fun r _ => endsWord_cons (by decide) _

theorem prints_enumMember {member : EnumMemberNode}
    (h : IsIdentifier member.name ∧ ∀ a ∈ member.annotations, a.Printable)
    (members : List EnumMemberNode) :
    PrintsWord (decompileEnumMember member) (Syntax.enumMember members)
      (members ++ [member]) := by
  have hequal : PrintsAs (ascii " = ") (Syntax.token (op '=')) () :=
    prints_operator (ascii " ") '=' (ascii " ") (isOperator_spec _ (by decide)) blank_space
      blank_space
  refine (prints_annotations h.2 3).andThen (Prints.skip (lexemes_writeIndent 3)
    ((prints_identifier h.1).bind (hequal.andThen ((prints_number member.value).thenReturn
      fun value => members ++ [⟨member.name, value, member.annotations⟩])) ?_))
  exact fun r _ => endsWord_cons (by decide) _

/-- The commas of an enum separate its members. -/
theorem decompileEnumMembers_eq (members : List EnumMemberNode) :
    decompileEnumMembers members = separatedBy (ascii ",\n") decompileEnumMember members
      ++ (if members.isEmpty then [] else ascii "\n") := by
  induction members using separatedBy.induct with
  | case1 => rfl
  | case2 member =>
    rw [decompileEnumMembers, decompileEnumMembers, List.append_nil]
    rfl
  | case3 member members hne ih =>
    obtain ⟨next, members, rfl⟩ := List.exists_cons_of_ne_nil (hne ·)
    rw [decompileEnumMembers, ih, separatedBy_cons hne, List.append_assoc, List.append_assoc]
    rfl

theorem prints_enumMembers {members : List EnumMemberNode}
    (h : ∀ member ∈ members, IsIdentifier member.name ∧ ∀ a ∈ member.annotations, a.Printable) :
    PrintsWord (decompileEnumMembers members)
      (.sepBy (Syntax.token (op ',')) Syntax.enumMember []) members := by
  have hcomma : PrintsAs (ascii ",\n") (Syntax.token (op ',')) () :=
    prints_operator [] ',' (ascii "\n") (isOperator_spec _ (by decide)) blank_nil
      blank_newline
  have hlist : PrintsWord (separatedBy (ascii ",\n") decompileEnumMember members)
      (.sepBy (Syntax.token (op ',')) Syntax.enumMember []) members :=
    Prints.sepBySeparatedBy (G := id) hcomma (fun r => endsWord_cons (by decide) _)
      fun ys x hx => prints_enumMember (h x hx) ys
  rw [decompileEnumMembers_eq]
  cases members with
  | nil => exact hlist
  | cons member members =>
    exact hlist.skipAfter (lexemes_blanks blank_newline) fun r _ => endsWord_cons (by decide) _

theorem prints_enumDecl {node : EnumNode} (h : node.Printable) :
    PrintsAs (writeIndent 2 ++ (ascii "enum<" ++ (decompileType node.baseType ++
      (ascii "> " ++ (node.name ++ (ascii " \x7b\n" ++
        (decompileEnumMembers node.members ++ (writeIndent 2 ++ ascii "\x7d;\n"))))))))
      Syntax.enumDecl { node.bare with annotations := [] } := by
  obtain ⟨hname, -, htype, hmembers⟩ := h
  have henum : PrintsWord (ascii "enum") (Syntax.token .kwdEnum) () :=
    prints_keyword (by simp [Lexer.keywords])
  refine Prints.skip (lexemes_writeIndent 2) (henum.bind (prints_less.andThen
    ((prints_type htype).bind (prints_greater.andThen ((prints_identifier hname).bind
      (prints_open.andThen ((prints_enumMembers hmembers).bind (prints_close _) ?_)) ?_)) ?_)) ?_)
  · exact fun r _ => endsWord_cons (by decide) _
  · exact fun r _ => endsWord_cons (by decide) _
  · exact fun r _ => endsWord_cons (by decide) _
  · exact fun r _ => endsWord_cons (by decide) _

theorem prints_direction (direction : Direction) :
    PrintsAs (decompileDirection direction) Syntax.direction direction := by
  cases direction with
  | IN =>
    have hkeyword : PrintsAs (ascii "in ") (Syntax.token .kwdIn) () :=
      prints_keywordBlank (ascii "in") (by simp [Lexer.keywords])
    exact (hkeyword.thenReturn fun _ => Direction.IN).orLeft.orRight
  | OUT =>
    have hkeyword : PrintsAs (ascii "out ") (Syntax.token .kwdOut) () :=
      prints_keywordBlank (ascii "out") (by simp [Lexer.keywords])
    exact (hkeyword.thenReturn fun _ => Direction.OUT).orRight.orRight
  | INOUT =>
    have hkeyword : PrintsAs (ascii "inout ") (Syntax.token .kwdInout) () :=
      prints_keywordBlank (ascii "inout") (by simp [Lexer.keywords])
    exact (hkeyword.thenReturn fun _ => Direction.INOUT).orLeft

theorem prints_parameter {node : ParameterNode} (h : node.Printable) :
    PrintsWord (decompileParameter node) Syntax.parameter node.bare := by
  obtain ⟨hname, hannotations, htype⟩ := h
  refine (prints_parameterAnnotations hannotations).andThen ((prints_direction _).andThen
    ((prints_type htype).bind ((prints_blankIdentifier hname).thenReturn
      fun name => ({ node.bare with name } : ParameterNode)) ?_))
  exact fun r _ => endsWord_cons (by decide) _

/-- A function gets the id that is free. -/
theorem prints_functionDecl {node : FunctionNode} (h : node.Printable) (interface : InterfaceNode) :
    PrintsAs (writeIndent 2 ++ (ascii "function " ++ (node.name ++ (ascii "(" ++
      (separatedBy (ascii ", ") decompileParameter node.parameters ++ ascii ");\n")))))
      (Syntax.functionDecl interface)
      ({ node.bare with annotations := [], id := interface.currentFuncid },
        { interface with currentFuncid := interface.currentFuncid + 1 }) := by
  obtain ⟨hname, -, hparameters⟩ := h
  have hfunction : PrintsAs (ascii "function ") (Syntax.token .kwdFunction) () :=
    prints_keywordBlank (ascii "function") (by simp [Lexer.keywords])
  have hlist : PrintsWord (separatedBy (ascii ", ") decompileParameter node.parameters)
      (.sepBy (Syntax.token (op ',')) (fun parameters => do
        let node ← Syntax.parameter
        return parameters ++ [node]) []) node.bare.parameters := by
    refine Prints.sepBySeparatedBy (G := List.map ParameterNode.bare) prints_comma
      (fun r => endsWord_cons (by decide) _) fun ys x hx => ?_
    rw [List.map_append, List.map_singleton]
    exact (prints_parameter (hparameters x hx)).thenReturn (ys.map ParameterNode.bare ++ [·])
  have hend : PrintsAs (ascii ")" ++ ascii ";\n")
      (do
        Syntax.token (op ')')
        Syntax.token (op ';')
        return (
          ({ node.bare with annotations := [], id := interface.currentFuncid } : FunctionNode),
          { interface with currentFuncid := interface.currentFuncid + 1 })) _ :=
    prints_closeParen.andThen (prints_semicolon.thenReturn fun _ => _)
  refine Prints.skip (lexemes_writeIndent 2) (hfunction.andThen ((prints_identifier hname).bind
    (prints_openParen.andThen (hlist.bind hend ?_)) ?_))
  · exact fun r _ => endsWord_cons (by decide) _
  · exact fun r _ => endsWord_cons (by decide) _

/-! ### Revisions -/

/-- A declaration of a revision, of any of the four kinds. -/
inductive Declaration where
  | bitfield (node : BitfieldNode)
  | enum (node : EnumNode)
  | struct (node : StructNode)
  | function (node : FunctionNode)

namespace Declaration

def print : Declaration → Bytes
  | bitfield node => decompileBitfield node
  | enum node => decompileEnum node
  | struct node => decompileStruct node
  | function node => decompileFunction node

def Printable : Declaration → Prop
  | bitfield node => node.Printable
  | enum node => node.Printable
  | struct node => node.Printable
  | function node => node.Printable

end Declaration

/-- The declarations in the order in which they are printed. -/
def AbiversionNode.declarations (node : AbiversionNode) : List Declaration :=
  node.bitfields.map .bitfield ++ (node.enums.map .enum ++ (node.structs.map .struct ++
    node.functions.map .function))

theorem decompileDeclarations_eq (node : AbiversionNode) :
    decompileDeclarations node = separatedBy (ascii "\n") Declaration.print node.declarations := by
  have hmap : node.declarations.map Declaration.print
      = node.bitfields.map decompileBitfield ++ (node.enums.map decompileEnum ++
        (node.structs.map decompileStruct ++ node.functions.map decompileFunction)) := by
    simp only [AbiversionNode.declarations, List.map_append, List.map_map]
    rfl
  rw [decompileDeclarations, ← hmap, separatedBy_map]
  rfl

namespace Parser.Revision

/-- The revision after a declaration. -/
def push (r : Revision) : Declaration → Revision
  | .bitfield node =>
    ⟨{ r.node with bitfields := r.node.bitfields ++ [node.bare] }, [], r.interface⟩
  | .enum node => ⟨{ r.node with enums := r.node.enums ++ [node.bare] }, [], r.interface⟩
  | .struct node => ⟨{ r.node with structs := r.node.structs ++ [node.bare] }, [], r.interface⟩
  | .function node =>
    ⟨{ r.node with
        functions := r.node.functions ++ [{ node.bare with id := r.interface.currentFuncid }] }, [],
      { r.interface with currentFuncid := r.interface.currentFuncid + 1 }⟩

theorem annotations_push (r : Revision) (d : Declaration) : (r.push d).annotations = [] := by
  cases d <;> rfl

end Parser.Revision

open Parser.Revision

/-- Annotations are pending until the declaration comes. -/
theorem prints_pending {annotations : List AnnotationNode}
    (h : ∀ node ∈ annotations, node.Printable) (indent : Nat) (r : Revision)
    (hr : r.annotations = []) :
    PrintsAs (decompileAnnotations annotations indent) (.iterate Syntax.revisionItem r)
      { r with annotations } := by
  obtain ⟨node, _, interface⟩ := r
  obtain rfl := hr
  refine Prints.iterateFlatMap (G := fun ys => (⟨node, ys, interface⟩ : Revision))
    fun ys x hx => ?_
  have hline : PrintsAs (decompileAnnotationNode x ++ ascii "\n") Syntax.annotation x :=
    (prints_annotationNode (h x hx)).skipAfter (lexemes_blanks blank_newline) fun _ _ => trivial
  exact ((hline.skip (lexemes_writeIndent indent)).thenReturn
    fun last => (⟨node, ys ++ [last], interface⟩ : Revision)).orLeft

theorem prints_declaration {d : Declaration} (h : d.Printable) {r : Revision}
    (hr : r.annotations = []) :
    PrintsAs d.print (.iterate Syntax.revisionItem r) (r.push d) := by
  -- the annotations are pending when the item itself comes
  cases d with
  | bitfield node =>
    have hitem := (prints_bitfieldDecl h).thenReturn fun bitfield =>
      (⟨{ r.node with
          bitfields := r.node.bitfields ++ [{ bitfield with annotations := node.annotations }] },
        [], r.interface⟩ : Revision)
    exact (prints_pending h.2.1 2 r hr).iterateAppend
      hitem.orLeft.orRight.orRight.orRight.iterateOne fun _ _ => trivial
  | enum node =>
    have hitem := (prints_enumDecl h).thenReturn fun enumNode =>
      (⟨{ r.node with
          enums := r.node.enums ++ [{ enumNode with annotations := node.annotations }] },
        [], r.interface⟩ : Revision)
    exact (prints_pending h.2.1 2 r hr).iterateAppend
      hitem.orRight.orRight.orRight.orRight.iterateOne fun _ _ => trivial
  | struct node =>
    have hitem := (prints_structDecl h).thenReturn fun strct =>
      (⟨{ r.node with
          structs := r.node.structs ++ [{ strct with annotations := node.annotations }] },
        [], r.interface⟩ : Revision)
    exact (prints_pending h.2.1 2 r hr).iterateAppend
      hitem.orLeft.orRight.orRight.iterateOne fun _ _ => trivial
  | function node =>
    have hitem := (prints_functionDecl h r.interface).thenReturn fun result =>
      (⟨{ r.node with
          functions := r.node.functions ++ [{ result.1 with annotations := node.annotations }] },
        [], result.2⟩ : Revision)
    exact (prints_pending h.2.1 2 r hr).iterateAppend
      hitem.orLeft.orRight.iterateOne fun _ _ => trivial

/-- A revision without annotations of its own, whose declarations can be printed. -/
def AbiversionNode.Printable (node : AbiversionNode) : Prop :=
  node.annotations = [] ∧ ∀ d ∈ node.declarations, d.Printable

section Decidable

instance : DecidablePred ExpressionNode.Printable
  | .string value => inferInstanceAs (Decidable (IsQuoted value))
  | .number _ => isTrue trivial
  | .identifier name => inferInstanceAs (Decidable (IsIdentifier name))

instance : DecidablePred AnnotationNode.Printable := fun node =>
  inferInstanceAs (Decidable (IsIdentifier node.name ∧ ∀ arg ∈ node.args, arg.Printable))

instance TypeNode.decidablePrintable : (node : TypeNode) → Decidable node.Printable
  | .named _ _ name => inferInstanceAs (Decidable (IsIdentifier name))
  | .ptr _ _ innerType => decidablePrintable innerType
  | .array _ _ innerType => decidablePrintable innerType

instance : DecidablePred StructNode.Printable := fun node =>
  inferInstanceAs (Decidable (IsIdentifier node.name ∧ (∀ a ∈ node.annotations, a.Printable) ∧
    ∀ field ∈ node.fields, field.type.Printable ∧ IsIdentifier field.name))

instance : DecidablePred BitfieldNode.Printable := fun node =>
  inferInstanceAs (Decidable (IsIdentifier node.name ∧ (∀ a ∈ node.annotations, a.Printable) ∧
    node.baseType.Printable ∧ ∀ field ∈ node.fields, IsIdentifier field.name))

instance : DecidablePred EnumNode.Printable := fun node =>
  inferInstanceAs (Decidable (IsIdentifier node.name ∧ (∀ a ∈ node.annotations, a.Printable) ∧
    node.baseType.Printable ∧
      ∀ member ∈ node.members, IsIdentifier member.name ∧ ∀ a ∈ member.annotations, a.Printable))

instance : DecidablePred ParameterNode.Printable := fun node =>
  inferInstanceAs (Decidable (IsIdentifier node.name ∧ (∀ a ∈ node.annotations, a.Printable) ∧
    node.type.Printable))

instance : DecidablePred FunctionNode.Printable := fun node =>
  inferInstanceAs (Decidable (IsIdentifier node.name ∧ (∀ a ∈ node.annotations, a.Printable) ∧
    ∀ parameter ∈ node.parameters, parameter.Printable))

instance : DecidablePred Declaration.Printable
  | .bitfield node => inferInstanceAs (Decidable node.Printable)
  | .enum node => inferInstanceAs (Decidable node.Printable)
  | .struct node => inferInstanceAs (Decidable node.Printable)
  | .function node => inferInstanceAs (Decidable node.Printable)

instance : DecidablePred AbiversionNode.Printable := fun node =>
  inferInstanceAs (Decidable (node.annotations = [] ∧ ∀ d ∈ node.declarations, d.Printable))

end Decidable

section Push

variable {r : Revision} (hr : r.annotations = [])

include hr

theorem foldl_push_bitfields (nodes : List BitfieldNode) :
    (nodes.map Declaration.bitfield).foldl push r
      = ⟨{ r.node with bitfields := r.node.bitfields ++ nodes.map BitfieldNode.bare }, [],
          r.interface⟩ := by
  obtain ⟨node, _, interface⟩ := r
  obtain rfl := hr
  induction nodes generalizing node with
  | nil => simp
  | cons x xs ih => simp [push, ih]

theorem foldl_push_enums (nodes : List EnumNode) :
    (nodes.map Declaration.enum).foldl push r
      = ⟨{ r.node with enums := r.node.enums ++ nodes.map EnumNode.bare }, [], r.interface⟩ := by
  obtain ⟨node, _, interface⟩ := r
  obtain rfl := hr
  induction nodes generalizing node with
  | nil => simp
  | cons x xs ih => simp [push, ih]

theorem foldl_push_structs (nodes : List StructNode) :
    (nodes.map Declaration.struct).foldl push r
      = ⟨{ r.node with structs := r.node.structs ++ nodes.map StructNode.bare }, [],
          r.interface⟩ := by
  obtain ⟨node, _, interface⟩ := r
  obtain rfl := hr
  induction nodes generalizing node with
  | nil => simp
  | cons x xs ih => simp [push, ih]

theorem foldl_push_functions (nodes : List FunctionNode) :
    (nodes.map Declaration.function).foldl push r
      = ⟨{ r.node with functions := r.node.functions ++
            renumberFunctions r.interface.currentFuncid (nodes.map FunctionNode.bare) }, [],
          r.interface.takeIds nodes.length⟩ := by
  obtain ⟨node, _, interface⟩ := r
  obtain rfl := hr
  induction nodes generalizing node interface with
  | nil => simp [renumberFunctions, InterfaceNode.takeIds]
  | cons x xs ih =>
    simp [push, ih, renumberFunctions, InterfaceNode.takeIds, UInt32.ofNat_add, UInt32.add_assoc,
      UInt32.add_comm 1]

end Push

/-- The revision with its functions numbered from `id` on. -/
def AbiversionNode.numbered (node : AbiversionNode) (id : UInt32) : AbiversionNode :=
  { node.bare with functions := renumberFunctions id node.bare.functions }

theorem foldl_push_declarations (node : AbiversionNode) (hnode : node.annotations = [])
    (interface : InterfaceNode) :
    node.declarations.foldl push ⟨{ version := node.version }, [], interface⟩
      = ⟨node.numbered interface.currentFuncid, [],
          interface.takeIds node.functions.length⟩ := by
  rw [AbiversionNode.declarations, List.foldl_append, List.foldl_append, List.foldl_append,
    foldl_push_bitfields rfl, foldl_push_enums rfl, foldl_push_structs rfl,
    foldl_push_functions rfl]
  simp [AbiversionNode.numbered, AbiversionNode.bare, hnode]

theorem prints_abirevision {node : AbiversionNode} (h : node.Printable)
    (interface : InterfaceNode) :
    PrintsAs (decompileAbirevision node) (Syntax.abirevision interface)
      (node.numbered interface.currentFuncid,
        interface.takeIds node.functions.length) := by
  obtain ⟨hnode, hdeclarations⟩ := h
  have hkeyword : PrintsAs (ascii "abirevision ") (Syntax.token .kwdAbirevision) () :=
    prints_keywordBlank (ascii "abirevision") (by simp [Lexer.keywords])
  have hlist : PrintsAs (decompileDeclarations node)
      (.iterate Syntax.revisionItem ⟨{ version := node.version }, [], interface⟩)
      ⟨node.numbered interface.currentFuncid, [], interface.takeIds node.functions.length⟩ := by
    rw [decompileDeclarations_eq, ← foldl_push_declarations node hnode]
    refine Prints.iterateSeparatedBy
      (G := fun ds => ds.foldl push ⟨{ version := node.version }, [], interface⟩)
      (lexemes_blanks blank_newline) fun ds d es hds => ?_
    have hnone : (ds.foldl push ⟨{ version := node.version }, [], interface⟩).annotations = [] := by
      induction ds using List.reverseRecOn with
      | nil => rfl
      | append_singleton ds d _ =>
        rw [List.foldl_append]
        exact annotations_push _ d
    have hd : d ∈ node.declarations := by
      rw [hds]
      exact List.mem_append_right _ List.mem_cons_self
    rw [List.foldl_append]
    exact prints_declaration (hdeclarations d hd) hnone
  have hclose : PrintsAs (writeIndent 1 ++ ascii "\x7d\n") (Syntax.token (op '\x7d')) () :=
    prints_closeBrace.skip (lexemes_writeIndent 1)
  rw [decompileAbirevision, hnode]
  refine Prints.skip (fun _ => rfl) (Prints.skip (lexemes_writeIndent 1) (hkeyword.andThen
    ((prints_number node.version).bind (prints_open.andThen (hlist.andThen
      (hclose.thenReturn fun _ => _))) ?_)))
  exact fun r _ => endsWord_cons (by decide) _

/-- A revision with the next number goes to the end of the interface. -/
theorem prints_nextRevision {node : AbiversionNode} (h : node.Printable)
    {firstAbirevision : UInt64} {interface : InterfaceNode}
    (hversion : node.version
      = firstAbirevision + UInt64.ofNat interface.abiversions.length) :
    PrintsAs (decompileAbirevision node) (Syntax.nextRevision firstAbirevision interface)
      (interface.declare [node]) := by
  have hdeclare : interface.declare [node] = { interface.takeIds node.functions.length with
      abiversions := interface.abiversions ++ [node.numbered interface.currentFuncid] } := by
    simp [InterfaceNode.declare, InterfaceNode.takeIds, renumber, functionsOf,
      AbiversionNode.numbered]
  rw [hdeclare, ← List.append_nil (decompileAbirevision node)]
  exact (prints_abirevision h interface).andThen ⟨[], ⟨rfl, hversion, rfl⟩, fun _ _ => rfl⟩

theorem VersionsFrom.version_of_append {i : Nat} {ys zs : List AbiversionNode}
    {node : AbiversionNode} (h : VersionsFrom i (ys ++ node :: zs)) :
    node.version = UInt64.ofNat (i + ys.length) := by
  induction ys generalizing i with
  | nil => exact h.1
  | cons y ys ih =>
    rw [ih h.2, List.length_cons, Nat.add_assoc, Nat.add_comm 1]

theorem prints_revisions {nodes : List AbiversionNode} (h : ∀ node ∈ nodes, node.Printable)
    {first : Nat} (hversions : VersionsFrom first nodes) {interface : InterfaceNode}
    (hempty : interface.abiversions = []) :
    PrintsAs (separatedBy (ascii "\n") decompileAbirevision nodes)
      (.iterate (Syntax.nextRevision (UInt64.ofNat first)) interface)
      (interface.declare nodes) := by
  have step (ys : List AbiversionNode) (node : AbiversionNode) (zs : List AbiversionNode)
      (hnodes : nodes = ys ++ node :: zs) :
      PrintsAs (decompileAbirevision node)
        (.iterate (Syntax.nextRevision (UInt64.ofNat first)) (interface.declare ys))
        (interface.declare (ys ++ [node])) := by
    have hlength : (interface.declare ys).abiversions.length = ys.length := by
      simp [InterfaceNode.declare, hempty]
    have hmem : node ∈ nodes := by
      rw [hnodes]
      exact List.mem_append_right _ List.mem_cons_self
    have hversion : node.version
        = UInt64.ofNat first + UInt64.ofNat (interface.declare ys).abiversions.length := by
      rw [hnodes] at hversions
      rw [hversions.version_of_append, hlength, UInt64.ofNat_add]
    rw [← InterfaceNode.declare_declare]
    exact (prints_nextRevision (h node hmem) hversion).iterateOne
  have hlist := Prints.iterateSeparatedBy (lexemes_blanks blank_newline) step
  rwa [interface.declare_nil] at hlist

/-! ### Interfaces -/

/-- The annotations that the identity of an interface is printed as. -/
def InterfaceNode.identityAnnotations (interface : InterfaceNode) : List AnnotationNode :=
  [{ name := ascii "uuid"
     args := [.string (quoted (uuidToString interface.uuidNamespace)),
       .string (quoted interface.uuidName)] },
   { name := ascii "prefix"
     args := [.string (quoted interface.prefixStr)] }]

structure InterfaceNode.Printable (interface : InterfaceNode) : Prop where
  name : IsIdentifier interface.name
  uuidName : ∀ c ∈ interface.uuidName, c ≠ chr '"'
  prefixStr : ∀ c ∈ interface.prefixStr, c ≠ chr '"'
  annotations : ∀ node ∈ interface.annotations, node.Printable
  revisions : ∀ node ∈ interface.abiversions, node.Printable

/-- What the header of a printed interface denotes. -/
def InterfaceNode.header (interface : InterfaceNode) (firstFuncid : UInt32) : InterfaceNode :=
  { name := interface.name
    annotations := interface.identityAnnotations ++ interface.annotations
    currentFuncid := firstFuncid }

theorem decompileInterface_eq (interface : InterfaceNode) :
    decompileInterface interface =
      decompileAnnotations (interface.identityAnnotations ++ interface.annotations) 0 ++
        (ascii "interface " ++ (interface.name ++ (ascii " \x7b\n" ++
          (separatedBy (ascii "\n") decompileAbirevision interface.abiversions ++
            ascii "\x7d\n")))) := by
  have huuid : ascii "@uuid(\"" = ascii "@" ++ (ascii "uuid" ++ (ascii "(" ++ [chr '"'])) := rfl
  have hcomma : ascii "\", \"" = [chr '"'] ++ (ascii ", " ++ [chr '"']) := rfl
  have hclose : ascii "\")\n" = [chr '"'] ++ (ascii ")" ++ ascii "\n") := rfl
  have hpre : ascii "@prefix(\"" = ascii "@" ++ (ascii "prefix" ++ (ascii "(" ++ [chr '"'])) := rfl
  simp only [decompileInterface, InterfaceNode.identityAnnotations, decompileAnnotations,
    decompileAnnotationNode, decompileExpression, separatedBy, quoted, huuid, hcomma, hclose, hpre,
    writeIndent, List.flatMap_cons, List.cons_append, List.nil_append, List.append_assoc,
    List.replicate_zero, List.flatten_nil]

theorem InterfaceNode.Printable.identityAnnotations {interface : InterfaceNode}
    (h : interface.Printable) : ∀ node ∈ interface.identityAnnotations, node.Printable := by
  have hquoted {body : Bytes} (hbody : ∀ c ∈ body, c ≠ chr '"') :
      (ExpressionNode.string (quoted body)).Printable := ⟨body, rfl, hbody⟩
  have hnamespace : ∀ c ∈ uuidToString interface.uuidNamespace, c ≠ chr '"' :=
    fun c hc => Uuid.not_quote_of_mem_toString hc
  have huuid : IsIdentifier (ascii "uuid") := by decide +kernel
  have hpre : IsIdentifier (ascii "prefix") := by decide +kernel
  rw [InterfaceNode.identityAnnotations, List.forall_mem_cons, List.forall_mem_singleton]
  refine ⟨⟨huuid, ?_⟩, ⟨hpre, ?_⟩⟩
  · rw [List.forall_mem_cons, List.forall_mem_singleton]
    exact ⟨hquoted hnamespace, hquoted h.uuidName⟩
  · rw [List.forall_mem_singleton]
    exact hquoted h.prefixStr

theorem prints_header {interface : InterfaceNode} (h : interface.Printable) (firstFuncid : UInt32) :
    PrintsAs (decompileAnnotations (interface.identityAnnotations ++ interface.annotations) 0 ++
        (ascii "interface " ++ (interface.name ++ ascii " \x7b\n")))
      (Syntax.interfaceHeader firstFuncid) (interface.header firstFuncid) := by
  have hannotations : ∀ node ∈ interface.identityAnnotations ++ interface.annotations,
      node.Printable := List.forall_mem_append.2 ⟨h.identityAnnotations, h.annotations⟩
  have hkeyword : PrintsAs (ascii "interface ") (Syntax.token .kwdInterface) () :=
    prints_keywordBlank (ascii "interface") (by simp [Lexer.keywords])
  refine (prints_annotations hannotations 0).andThen (hkeyword.andThen
    ((prints_identifier h.name).bind (prints_open.thenReturn fun _ => _) ?_))
  exact fun r _ => endsWord_cons (by decide) _

theorem prints_interface {interface : InterfaceNode} (h : interface.Printable) {first : Nat}
    (hversions : VersionsFrom first interface.abiversions) (firstFuncid : UInt32) :
    PrintsAs (decompileInterface interface)
      (Syntax.interfaceDecl (UInt64.ofNat first) firstFuncid)
      ((interface.header firstFuncid).declare interface.abiversions) := by
  have hempty : (interface.header firstFuncid).abiversions = [] := rfl
  have hbody : PrintsAs
      (separatedBy (ascii "\n") decompileAbirevision interface.abiversions ++ ascii "\x7d\n")
      (do
        let interface ← Lang.iterate (Syntax.nextRevision (UInt64.ofNat first))
          (interface.header firstFuncid)
        Syntax.token (op '\x7d')
        return interface)
      ((interface.header firstFuncid).declare interface.abiversions) :=
    (prints_revisions h.revisions hversions hempty).andThen
      (prints_closeBrace.thenReturn fun _ => _)
  have hall : PrintsAs (_ ++ _) (Syntax.interfaceDecl (UInt64.ofNat first) firstFuncid)
      ((interface.header firstFuncid).declare interface.abiversions) :=
    (prints_header h firstFuncid).andThen hbody
  rw [decompileInterface_eq]
  simpa only [List.append_assoc] using hall

/-- **What is printed for an interface is parsed again**: into the header with the identity as
annotations, and the revisions, with their functions numbered from the first free id. -/
theorem parse_decompileInterface {interface : InterfaceNode} (h : interface.Printable)
    {first : Nat} (hversions : VersionsFrom first interface.abiversions) (firstFuncid : UInt32) :
    parse (decompileInterface interface) (UInt64.ofNat first) firstFuncid
      = .ok (some ((interface.header firstFuncid).declare interface.abiversions)) := by
  obtain ⟨hdecl, -⟩ := (prints_interface h hversions firstFuncid).self lexemes_nil
  exact parse_eq_some_iff.2 ⟨_, List.prefix_refl _, hdecl⟩

end Sidlc
