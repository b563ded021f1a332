import Sidlc.Equiv.Acceptance
import Sidlc.Library.Progress

/-!
# Parsing ends

Every round of a loop of the parser, and every call of `parse_type`, consumes a token or throws, and
what is left of the source is less then. No round succeeds at the end of the file, which
`next_token` returns forever. So `parse` ends on every source (`parse_ends`).
-/

namespace Sidlc

open Relation StateExcept

namespace Parser

/-! ### Tokens -/

/-- A token is taken. The end of the file is none. -/
def TokenStep (p q : Parser) : Prop :=
  p.currentToken.type ≠ .endOfFile ∧ q = p.next

/-- The characters that have not been read, and the current token. -/
def remaining (p : Parser) : Nat :=
  p.lexer.left + if p.currentToken.type = .endOfFile then 0 else 1

/-- `next_token` reads at least a character, except at the end. -/
theorem left_next (p : Parser) :
    p.next.lexer.left ≤ p.lexer.left ∧
      (p.next.currentToken.type ≠ .endOfFile → p.next.lexer.left < p.lexer.left) := by
  have hgap := length_skipGap_le p.lexer.rest
  rw [Lexer.left_eq_length, Lexer.left_eq_length]
  cases h : skipGap p.lexer.rest with
  | nil =>
    obtain ⟨htype, hrest⟩ := next_of_gap_nil h
    rw [hrest]
    exact ⟨Nat.zero_le _, fun hne => absurd htype hne⟩
  | cons c r =>
    rw [h] at hgap
    obtain ⟨-, hrest⟩ := next_of_gap_cons h
    have hscan := length_scan_le c r
    rw [List.length_cons] at hgap
    rw [hrest]
    exact ⟨by omega, fun _ => by omega⟩

theorem remaining_lt (p q : Parser) (h : TokenStep p q) : q.remaining < p.remaining := by
  obtain ⟨htype, rfl⟩ := h
  obtain ⟨hle, hlt⟩ := p.left_next
  unfold remaining
  rw [if_neg htype]
  by_cases hnext : p.next.currentToken.type = .endOfFile
  · rw [if_pos hnext]
    omega
  · rw [if_neg hnext]
    have := hlt hnext
    omega

theorem remaining_lt_rounds (p : Parser) : p.remaining < p.rounds := by
  unfold remaining rounds
  split_ifs <;> omega

/-- At the end of the file no token is taken. -/
theorem not_consumed_endOfFile {p q : Parser} (h : p.currentToken.type = .endOfFile) :
    ¬ TransGen TokenStep p q := by
  intro hsteps
  obtain ⟨q', hstep, -⟩ := TransGen.head'_iff.1 hsteps
  exact hstep.1 h

/-! ### Parts of the parser -/

abbrev Halting {α : Type} (x : Parse α) (p : Parser) : Prop :=
  Halts TokenStep Exn.diverges x p

abbrev Taking {α : Type} (x : Parse α) (p : Parser) : Prop :=
  Consumes TokenStep Exn.diverges x p

variable {α β : Type} {p : Parser}

theorem taking_advance (h : p.currentToken.type ≠ .endOfFile) : Taking advance p where
  ne_out h' := by
    unfold advance at h'
    cases h'
  steps a q h' := by
    obtain rfl : p.next = q := congrArg Prod.snd (Except.ok.inj h')
    exact .single ⟨h, rfl⟩

theorem taking_currentType {f : TokenType → Parse α} (h : Taking (f p.currentToken.type) p) :
    Taking (currentType >>= f) p :=
  ⟨h.ne_out, h.steps⟩

theorem halting_currentType {f : TokenType → Parse α} (h : Halting (f p.currentToken.type) p) :
    Halting (currentType >>= f) p :=
  ⟨h.ne_out, h.steps⟩

theorem taking_currentText {f : Bytes → Parse α} (h : Taking (f p.currentToken.text) p) :
    Taking (currentText >>= f) p :=
  ⟨h.ne_out, h.steps⟩

/-- What is expected is not the end of the file. -/
theorem taking_expect {type : TokenType} (htype : type ≠ .endOfFile) {f : Unit → Parse α}
    (h : p.currentToken.type ≠ .endOfFile → Taking (f ()) p) : Taking (expect type >>= f) p := by
  by_cases hp : p.currentToken.type = type
  · exact .congr (expect_bind hp f) (h (hp ▸ htype))
  · exact .of_error (expect_bind_error hp f) (by simp)

theorem taking_consume {type : TokenType} (htype : type ≠ .endOfFile) : Taking (consume type) p :=
  taking_expect htype taking_advance

theorem taking_identifier : Taking identifier p :=
  taking_expect (by decide) fun hp =>
    taking_currentText ((taking_advance hp).bind fun _ _ _ => .pure _)

theorem stoull_ne_diverges (text : Bytes) : stoull text ≠ .error .diverges := by
  unfold stoull
  dsimp only
  split_ifs <;> simp

theorem taking_number : Taking number p :=
  taking_expect (by decide) fun hp => taking_currentText <|
    .of_fromExcept (stoull_ne_diverges _) fun _ => (taking_advance hp).bind fun _ _ _ => .pure _

theorem taking_unexpected {type : TokenType} : Taking (unexpected type : Parse α) p :=
  .throw (by simp)

/-! ### Loops -/

/-- A loop of the parser: the tokens on which it goes on, and a round. -/
structure Loop where
  State : Type
  goesOn : TokenType → Prop
  decidable : DecidablePred goesOn
  round : State → Parse State

namespace Loop

def run (loop : Loop) (b : loop.State) : Parse loop.State :=
  @whileType loop.State loop.goesOn loop.decidable loop.round b

/-- A loop over items with separators, up to a closing token. -/
def separatedUntil (close : TokenType) (item : β → Parse β) : Loop where
  State := β
  goesOn := (· ≠ close)
  decidable := inferInstance
  round := separated (fun p : Parser => p.currentToken.type ≠ close) (consume (op ',')) item

/-- A loop over items that need no separators, up to a closing token. -/
def itemsUntil (close : TokenType) (item : β → Parse β) : Loop where
  State := β
  goesOn := (· ≠ close)
  decidable := inferInstance
  round := item

def arguments : Loop :=
  separatedUntil (op ')') fun args => do
    let arg ← parseArgument
    return args ++ [arg]

def annotations : Loop where
  State := List AnnotationNode
  goesOn := (· = op '@')
  decidable := inferInstance
  round := fun annotations => do
    let node ← parseAnnotation
    return annotations ++ [node]

def structFields : Loop :=
  itemsUntil (op '\x7d') fun fields => do
    let type ← parseType
    let name ← identifier
    consume (op ';')
    return fields ++ [({ type, name } : StructFieldNode)]

def bitfieldFields : Loop :=
  itemsUntil (op '\x7d') fun fields => do
    let name ← identifier
    consume (op ':')
    let bits ← number
    consume (op ';')
    return fields ++ [({ name, bits } : BitfieldFieldNode)]

def members : Loop :=
  separatedUntil (op '\x7d') fun members => do
    let annotations ← parseAnnotations
    let name ← identifier
    consume (op '=')
    let value ← number
    return members ++ [({ name, value, annotations } : EnumMemberNode)]

def parameters : Loop :=
  separatedUntil (op ')') fun parameters => do
    let parameter ← parseParameter
    return parameters ++ [parameter]

def revisionItems : Loop :=
  itemsUntil (op '\x7d') parseRevisionItem

def revisions (firstAbirevision : UInt64) : Loop :=
  itemsUntil (op '\x7d') (parseInterfaceItem firstAbirevision)

/-- The loops of `parser.cc`. That over annotations stands in `parse`, `parse_parameter` and
`parse_enum`. -/
def all (firstAbirevision : UInt64) : List Loop :=
  [arguments, annotations, structFields, bitfieldFields, members, parameters, revisionItems,
    revisions firstAbirevision]

/-- A loop whose rounds consume ends. -/
theorem halting_run (loop : Loop) (hround : ∀ b p, Taking (loop.round b) p) (b : loop.State) :
    Halting (loop.run b) p := by
  let := loop.decidable
  have h := Halts.loop (c := fun p : Parser => loop.goesOn p.currentToken.type) remaining_lt hround
    p.rounds b p p.remaining_lt_rounds
  exact ⟨h.ne_out, h.steps⟩

/-- At the end of the file a loop exits, or throws like its round does. -/
theorem run_endOfFile (loop : Loop) (hround : ∀ b p, Taking (loop.round b) p) (b : loop.State)
    (hend : p.currentToken.type = .endOfFile) :
    loop.run b p = .ok (b, p) ∨ ∃ e, e ≠ .diverges ∧ loop.run b p = .error e := by
  let := loop.decidable
  by_cases hgoes : loop.goesOn p.currentToken.type
  · have hrun : loop.run b p = (loop.round b >>= loopWhile
        (fun p : Parser => loop.goesOn p.currentToken.type) loop.round .diverges
          (p.lexer.left + 1)) p := if_pos hgoes
    have hne := (hround b p).ne_out
    cases hb : loop.round b p with
    | ok r => exact absurd ((hround b p).steps r.1 r.2 hb) (not_consumed_endOfFile hend)
    | error e =>
      refine .inr ⟨e, fun he => hne (he ▸ hb), ?_⟩
      rw [hrun]
      exact bind_error.2 (.inl hb)
  · exact .inl (if_neg hgoes)

theorem taking_separated {close : TokenType} {item : β → Parse β}
    (hitem : ∀ b p, Taking (item b) p) (b : β) (p : Parser) :
    Taking ((separatedUntil close item).round b) p :=
  (hitem b p).bind fun _ _ _ =>
    (Halts.onlyIf (taking_consume (by decide)).halts).bind fun _ _ _ => .pure _

end Loop

/-! ### Annotations and types -/

theorem taking_argument : Taking parseArgument p := by
  refine taking_currentType ?_
  by_cases hidentifier : p.currentToken.type = .identifier
  · rw [if_pos hidentifier]
    exact taking_identifier.bind fun _ _ _ => .pure _
  · rw [if_neg hidentifier]
    refine taking_currentType ?_
    split_ifs with hstring hnumber
    · have hp : p.currentToken.type ≠ .endOfFile := by simp [hstring]
      exact taking_currentText ((taking_advance hp).bind fun _ _ _ => .pure _)
    · exact taking_number.bind fun _ _ _ => .pure _
    · exact taking_unexpected

theorem taking_arguments (args : List ExpressionNode) (p : Parser) :
    Taking (Loop.arguments.round args) p :=
  Loop.taking_separated (fun _ _ => taking_argument.bind fun _ _ _ => .pure _) args p

theorem parseAnnotation_eq : parseAnnotation = (do
    consume (op '@')
    let name ← identifier
    consume (op '(')
    let args ← Loop.arguments.run []
    consume (op ')')
    return { name, args }) :=
  rfl

theorem taking_annotation : Taking parseAnnotation p := by
  rw [parseAnnotation_eq]
  refine (taking_consume (by decide)).bind fun _ _ _ => ?_
  refine taking_identifier.halts.bind fun _ _ _ => ?_
  refine (taking_consume (by decide)).halts.bind fun _ _ _ => ?_
  refine (Loop.halting_run .arguments taking_arguments _).bind fun _ _ _ => ?_
  exact (taking_consume (by decide)).halts.bind fun _ _ _ => .pure _

theorem taking_annotations (annotations : List AnnotationNode) (p : Parser) :
    Taking (Loop.annotations.round annotations) p :=
  taking_annotation.bind fun _ _ _ => .pure _

theorem halting_annotations : Halting parseAnnotations p :=
  Loop.halting_run .annotations taking_annotations _

theorem halting_const : Halting parseConst p := by
  refine halting_currentType ?_
  split_ifs with hconst
  · have hp : p.currentToken.type ≠ .endOfFile := by simp [hconst]
    exact (taking_advance hp).halts.bind fun _ _ _ => .pure _
  · exact .pure _

/-- The body of `parse_type`, with `inner` for the recursive call. -/
def typeRound (inner : Parse TypeNode) : Parse TypeNode := do
  let isConst ← parseConst
  let type ← currentType
  if type = .kwdPtr then
    advance
    consume (op '<')
    let innerType ← inner
    consume (op '>')
    return .ptr isConst 0 innerType
  else if type = .kwdArray then
    advance
    consume (op '<')
    let innerType ← inner
    consume (op '>')
    return .array isConst 0 innerType
  else
    let name ← identifier
    return .named isConst 0 name

/-- Another call is made behind a keyword only, so with less left. -/
theorem typeRound_congr {inner inner' : Parse TypeNode} {p : Parser}
    (h : ∀ q : Parser, q.remaining < p.remaining → inner q = inner' q) :
    typeRound inner p = typeRound inner' p := by
  refine bind_congr_of_ok rfl fun isConst q hq => ?_
  have hle := measure_le remaining_lt (halting_const.steps _ _ hq)
  -- `ptr` and `array` read the inner type two tokens further on
  have hwrapper (node : TypeNode → TypeNode) (htype : q.currentToken.type ≠ .endOfFile) :
      (do
        advance
        consume (op '<')
        let innerType ← inner
        consume (op '>')
        return node innerType : Parse TypeNode) q =
      (do
        advance
        consume (op '<')
        let innerType ← inner'
        consume (op '>')
        return node innerType : Parse TypeNode) q := by
    refine bind_congr_of_ok rfl fun _ q₁ hq₁ => bind_congr_of_ok rfl fun _ q₂ hq₂ => ?_
    have hlt := measure_lt remaining_lt ((taking_advance htype).steps _ _ hq₁)
    have hlt' := measure_lt remaining_lt ((taking_consume (by decide)).steps _ _ hq₂)
    exact bind_congr_of_ok (h q₂ (by omega)) fun _ _ _ => rfl
  by_cases hptr : q.currentToken.type = .kwdPtr
  · show (if _ then _ else _ : Parse TypeNode) q = (if _ then _ else _ : Parse TypeNode) q
    rw [if_pos hptr, if_pos hptr]
    exact hwrapper (.ptr isConst 0) (by simp [hptr])
  · show (if _ then _ else _ : Parse TypeNode) q = (if _ then _ else _ : Parse TypeNode) q
    rw [if_neg hptr, if_neg hptr]
    by_cases harray : q.currentToken.type = .kwdArray
    · rw [if_pos harray, if_pos harray]
      exact hwrapper (.array isConst 0) (by simp [harray])
    · rw [if_neg harray, if_neg harray]

theorem taking_typeRound {inner : Parse TypeNode}
    (h : ∀ q : Parser, q.remaining < p.remaining → Taking inner q) :
    Taking (typeRound inner) p := by
  refine halting_const.bind_consumes fun isConst q hq => taking_currentType ?_
  have hle := measure_le remaining_lt hq
  -- the inner type starts behind two tokens, so there is less left for it
  have hwrapper (node : TypeNode → TypeNode) (htype : q.currentToken.type ≠ .endOfFile) :
      Taking (do
        advance
        consume (op '<')
        let innerType ← inner
        consume (op '>')
        return node innerType) q := by
    refine (taking_advance htype).bind fun _ q₁ hq₁ => ?_
    refine (taking_consume (by decide)).halts.bind fun _ q₂ hq₂ => ?_
    have hlt := measure_lt remaining_lt hq₁
    have hle' := measure_le remaining_lt hq₂
    refine (h q₂ (by omega)).halts.bind fun _ _ _ => ?_
    exact (taking_consume (by decide)).halts.bind fun _ _ _ => .pure _
  split_ifs with hptr harray
  · exact hwrapper (.ptr isConst 0) (by simp [hptr])
  · exact hwrapper (.array isConst 0) (by simp [harray])
  · exact taking_identifier.bind fun _ _ _ => .pure _

theorem parseTypeFuel_succ (n : Nat) : parseTypeFuel (n + 1) = typeRound (parseTypeFuel n) :=
  rfl

/-- The levels of nesting are fewer than the tokens that are left. -/
theorem taking_typeFuel (n : Nat) :
    ∀ p : Parser, p.remaining < n → Taking (parseTypeFuel n) p := by
  induction n with
  | zero => intro p hn; exact absurd hn (Nat.not_lt_zero _)
  | succ n ih =>
    intro p hn
    rw [parseTypeFuel_succ]
    exact taking_typeRound fun q hq => ih q (by omega)

theorem taking_type : Taking parseType p :=
  have h := taking_typeFuel p.rounds p p.remaining_lt_rounds
  ⟨h.ne_out, h.steps⟩

/-- More levels than tokens make no difference. -/
theorem parseTypeFuel_congr (n : Nat) :
    ∀ (m : Nat) (p : Parser), p.remaining < n → p.remaining < m →
      parseTypeFuel n p = parseTypeFuel m p := by
  induction n with
  | zero => intro m p hn _; exact absurd hn (Nat.not_lt_zero _)
  | succ n ih =>
    intro m p hn hm
    obtain ⟨m, rfl⟩ : ∃ k, m = k + 1 := ⟨m - 1, by omega⟩
    rw [parseTypeFuel_succ, parseTypeFuel_succ]
    exact typeRound_congr fun q hq => ih m q (by omega) (by omega)

/-- `parse_type` calls itself, without a bound. -/
theorem parseType_eq : parseType = typeRound parseType := by
  funext p
  have hp := p.remaining_lt_rounds
  have hrounds : p.rounds = p.lexer.left + 1 + 1 := rfl
  calc parseType p
      = typeRound (parseTypeFuel (p.lexer.left + 1)) p := rfl
    _ = typeRound parseType p := typeRound_congr fun q hq =>
        parseTypeFuel_congr _ _ q (by omega) q.remaining_lt_rounds

/-! ### Declarations -/

theorem taking_direction : Taking parseDirection p := by
  have htake (d : Direction) (hp : p.currentToken.type ≠ .endOfFile) :
      Taking (do advance; return d) p :=
    (taking_advance hp).bind fun _ _ _ => .pure _
  refine taking_currentType ?_
  split_ifs with hinout hin hout
  · exact htake .INOUT (by simp [hinout])
  · exact htake .IN (by simp [hin])
  · exact htake .OUT (by simp [hout])
  · exact taking_unexpected

theorem taking_parameter : Taking parseParameter p := by
  refine halting_annotations.bind_consumes fun _ _ _ => ?_
  refine taking_direction.bind fun _ _ _ => ?_
  refine taking_type.halts.bind fun _ _ _ => ?_
  exact taking_identifier.halts.bind fun _ _ _ => .pure _

theorem taking_structFields (fields : List StructFieldNode) (p : Parser) :
    Taking (Loop.structFields.round fields) p := by
  refine taking_type.bind fun _ _ _ => ?_
  refine taking_identifier.halts.bind fun _ _ _ => ?_
  exact (taking_consume (by decide)).halts.bind fun _ _ _ => .pure _

theorem parseStruct_eq : parseStruct = (do
    consume .kwdStruct
    let name ← identifier
    consume (op '\x7b')
    let fields ← Loop.structFields.run []
    consume (op '\x7d')
    consume (op ';')
    return { name, annotations := [], fields }) :=
  rfl

theorem taking_struct : Taking parseStruct p := by
  rw [parseStruct_eq]
  refine (taking_consume (by decide)).bind fun _ _ _ => ?_
  refine taking_identifier.halts.bind fun _ _ _ => ?_
  refine (taking_consume (by decide)).halts.bind fun _ _ _ => ?_
  refine (Loop.halting_run .structFields taking_structFields _).bind fun _ _ _ => ?_
  refine (taking_consume (by decide)).halts.bind fun _ _ _ => ?_
  exact (taking_consume (by decide)).halts.bind fun _ _ _ => .pure _

theorem taking_bitfieldFields (fields : List BitfieldFieldNode) (p : Parser) :
    Taking (Loop.bitfieldFields.round fields) p := by
  refine taking_identifier.bind fun _ _ _ => ?_
  refine (taking_consume (by decide)).halts.bind fun _ _ _ => ?_
  refine taking_number.halts.bind fun _ _ _ => ?_
  exact (taking_consume (by decide)).halts.bind fun _ _ _ => .pure _

theorem parseBitfield_eq : parseBitfield = (do
    consume .kwdBitfield
    consume (op '<')
    let baseType ← parseType
    consume (op '>')
    let name ← identifier
    consume (op '\x7b')
    let fields ← Loop.bitfieldFields.run []
    consume (op '\x7d')
    consume (op ';')
    return { name, baseType, annotations := [], fields }) :=
  rfl

theorem taking_bitfield : Taking parseBitfield p := by
  rw [parseBitfield_eq]
  refine (taking_consume (by decide)).bind fun _ _ _ => ?_
  refine (taking_consume (by decide)).halts.bind fun _ _ _ => ?_
  refine taking_type.halts.bind fun _ _ _ => ?_
  refine (taking_consume (by decide)).halts.bind fun _ _ _ => ?_
  refine taking_identifier.halts.bind fun _ _ _ => ?_
  refine (taking_consume (by decide)).halts.bind fun _ _ _ => ?_
  refine (Loop.halting_run .bitfieldFields taking_bitfieldFields _).bind fun _ _ _ => ?_
  refine (taking_consume (by decide)).halts.bind fun _ _ _ => ?_
  exact (taking_consume (by decide)).halts.bind fun _ _ _ => .pure _

theorem taking_members (members : List EnumMemberNode) (p : Parser) :
    Taking (Loop.members.round members) p := by
  refine Loop.taking_separated (fun _ _ => ?_) members p
  refine halting_annotations.bind_consumes fun _ _ _ => ?_
  refine taking_identifier.bind fun _ _ _ => ?_
  refine (taking_consume (by decide)).halts.bind fun _ _ _ => ?_
  exact taking_number.halts.bind fun _ _ _ => .pure _

theorem parseEnum_eq : parseEnum = (do
    consume .kwdEnum
    consume (op '<')
    let baseType ← parseType
    consume (op '>')
    let name ← identifier
    consume (op '\x7b')
    let members ← Loop.members.run []
    consume (op '\x7d')
    consume (op ';')
    return { name, baseType, annotations := [], members }) :=
  rfl

theorem taking_enum : Taking parseEnum p := by
  rw [parseEnum_eq]
  refine (taking_consume (by decide)).bind fun _ _ _ => ?_
  refine (taking_consume (by decide)).halts.bind fun _ _ _ => ?_
  refine taking_type.halts.bind fun _ _ _ => ?_
  refine (taking_consume (by decide)).halts.bind fun _ _ _ => ?_
  refine taking_identifier.halts.bind fun _ _ _ => ?_
  refine (taking_consume (by decide)).halts.bind fun _ _ _ => ?_
  refine (Loop.halting_run .members taking_members _).bind fun _ _ _ => ?_
  refine (taking_consume (by decide)).halts.bind fun _ _ _ => ?_
  exact (taking_consume (by decide)).halts.bind fun _ _ _ => .pure _

theorem taking_parameters (parameters : List ParameterNode) (p : Parser) :
    Taking (Loop.parameters.round parameters) p :=
  Loop.taking_separated (fun _ _ => taking_parameter.bind fun _ _ _ => .pure _) parameters p

theorem parseFunction_eq (interface : InterfaceNode) : parseFunction interface = (do
    consume .kwdFunction
    let name ← identifier
    consume (op '(')
    let parameters ← Loop.parameters.run []
    consume (op ')')
    consume (op ';')
    return ({ name, annotations := [], parameters, id := interface.currentFuncid },
      { interface with currentFuncid := interface.currentFuncid + 1 })) :=
  rfl

theorem taking_function {interface : InterfaceNode} : Taking (parseFunction interface) p := by
  rw [parseFunction_eq]
  refine (taking_consume (by decide)).bind fun _ _ _ => ?_
  refine taking_identifier.halts.bind fun _ _ _ => ?_
  refine (taking_consume (by decide)).halts.bind fun _ _ _ => ?_
  refine (Loop.halting_run .parameters taking_parameters _).bind fun _ _ _ => ?_
  refine (taking_consume (by decide)).halts.bind fun _ _ _ => ?_
  exact (taking_consume (by decide)).halts.bind fun _ _ _ => .pure _

/-! ### Revisions and interfaces -/

theorem taking_revisionItems (r : Revision) (p : Parser) :
    Taking (Loop.revisionItems.round r) p := by
  refine taking_currentType ?_
  split_ifs with hannotation hfunction hstruct hbitfield henum
  · exact taking_annotation.bind fun _ _ _ => .pure _
  · exact taking_function.bind fun _ _ _ => .pure _
  · exact taking_struct.bind fun _ _ _ => .pure _
  · exact taking_bitfield.bind fun _ _ _ => .pure _
  · exact taking_enum.bind fun _ _ _ => .pure _
  · exact taking_unexpected

theorem parseAbiversion_eq (interface : InterfaceNode) : parseAbiversion interface = (do
    consume .kwdAbirevision
    let version ← number
    consume (op '\x7b')
    let r ← Loop.revisionItems.run ⟨{ version }, [], interface⟩
    consume (op '\x7d')
    return (r.node, r.interface)) :=
  rfl

theorem taking_abiversion {interface : InterfaceNode} : Taking (parseAbiversion interface) p := by
  rw [parseAbiversion_eq]
  refine (taking_consume (by decide)).bind fun _ _ _ => ?_
  refine taking_number.halts.bind fun _ _ _ => ?_
  refine (taking_consume (by decide)).halts.bind fun _ _ _ => ?_
  refine (Loop.halting_run .revisionItems taking_revisionItems _).bind fun _ _ _ => ?_
  exact (taking_consume (by decide)).halts.bind fun _ _ _ => .pure _

theorem appendAbiversion_ne_diverges (firstAbirevision : UInt64) (interface : InterfaceNode)
    (abiversion : AbiversionNode) :
    appendAbiversionOrThrow firstAbirevision interface abiversion ≠ .error .diverges := by
  unfold appendAbiversionOrThrow
  dsimp only
  split_ifs
  · simp
  · simp

theorem taking_revisions (firstAbirevision : UInt64) (interface : InterfaceNode) (p : Parser) :
    Taking ((Loop.revisions firstAbirevision).round interface) p := by
  refine taking_currentType ?_
  split_ifs with habirevision
  · exact taking_abiversion.bind fun r _ _ =>
      .fromExcept (appendAbiversion_ne_diverges firstAbirevision r.2 r.1)
  · exact taking_unexpected

theorem halting_interface (firstAbirevision : UInt64) (firstFuncid : UInt32) :
    Halting (parseInterface firstAbirevision firstFuncid) p := by
  refine Halts.bind ?_ fun interface _ _ => ?_
  · refine halting_annotations.bind fun _ _ _ => ?_
    refine (taking_consume (by decide)).halts.bind fun _ _ _ => ?_
    refine taking_identifier.halts.bind fun _ _ _ => ?_
    exact (taking_consume (by decide)).halts.bind fun _ _ _ => .pure _
  · refine (Loop.halting_run (.revisions firstAbirevision) (taking_revisions firstAbirevision)
      interface).bind fun _ _ _ => ?_
    exact (taking_consume (by decide)).halts.bind fun _ _ _ => .pure _

theorem taking_loops {firstAbirevision : UInt64} {loop : Loop}
    (h : loop ∈ Loop.all firstAbirevision) :
    ∀ b p, Taking (loop.round b) p := by
  simp only [Loop.all, List.mem_cons, List.not_mem_nil, or_false] at h
  rcases h with rfl | rfl | rfl | rfl | rfl | rfl | rfl | rfl
  · exact taking_arguments
  · exact taking_annotations
  · exact taking_structFields
  · exact taking_bitfieldFields
  · exact taking_members
  · exact taking_parameters
  · exact taking_revisionItems
  · exact taking_revisions firstAbirevision

/-! ### The end -/

/-- `x` consumes at least a token, and leaves less of the source, or it throws. -/
def Progresses (x : Parse α) (p : Parser) : Prop :=
  (∃ a q, x p = .ok (a, q) ∧ TransGen TokenStep p q ∧ q.remaining < p.remaining) ∨
    ∃ e, e ≠ .diverges ∧ x p = .error e

theorem Progresses.of_taking {x : Parse α} (h : Taking x p) : Progresses x p := by
  cases hx : x p with
  | ok r =>
    have hsteps := h.steps r.1 r.2 hx
    exact .inl ⟨r.1, r.2, hx, hsteps, measure_lt remaining_lt hsteps⟩
  | error e =>
    have hne : e ≠ .diverges := by
      rintro rfl
      exact h.ne_out hx
    exact .inr ⟨e, hne, hx⟩

/-- **Parsing ends**: every round of a loop and every call of `parse_type`, which calls itself with
less left only, consumes a token or throws; at the end of the file a loop exits or throws; and
`parse` ends. -/
theorem parse_ends (firstAbirevision : UInt64) :
    (∀ loop ∈ Loop.all firstAbirevision, ∀ b p,
      Progresses (loop.round b) p ∧
        (p.currentToken.type = .endOfFile →
          loop.run b p = .ok (b, p) ∨ ∃ e, e ≠ .diverges ∧ loop.run b p = .error e)) ∧
      parseType = typeRound parseType ∧
      (∀ p, Progresses parseType p ∧
        ∀ inner : Parse TypeNode,
          (∀ q : Parser, q.remaining < p.remaining → inner q = parseType q) →
          typeRound inner p = parseType p) ∧
      ∀ (source : Bytes) (firstFuncid : UInt32),
        parse source firstAbirevision firstFuncid ≠ .error .diverges := by
  refine ⟨fun loop hloop b p => ?_, parseType_eq, fun p => ⟨.of_taking taking_type, ?_⟩, ?_⟩
  · have hround := taking_loops hloop
    exact ⟨.of_taking (hround b p), loop.run_endOfFile hround b⟩
  · intro inner hinner
    rw [typeRound_congr hinner, ← parseType_eq]
  · intro source firstFuncid h
    have hends := (halting_interface firstAbirevision firstFuncid (p := start source)).ne_out
    rw [parse_eq] at h
    cases hparse : parseInterface firstAbirevision firstFuncid (start source) with
    | ok r => simp [hparse] at h
    | error e =>
      have he : e ≠ .diverges := fun he => hends (he ▸ hparse)
      rw [hparse] at h
      -- `parse` catches every other error
      cases e with
      | diverges => exact he rfl
      | runtimeError what => simp at h
      | invalidArgument what => simp at h
      | outOfRange what => simp at h

end Parser

end Sidlc
