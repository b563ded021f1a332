import Sidlc.Library.Decimal
import Sidlc.Library.StateExcept
import Sidlc.Lexer

/-!
# The parser (`parser.cc`)

The state is the lexer and the current token; the numbers of the first revision and of the first
function, which never change, are arguments. `InterfaceNode::current_funcid` is counted up in the
interface that is passed through. A loop gets as many rounds as there can be tokens left, and raises
`Exn.diverges` when they are used up.
-/

namespace Sidlc

open Decimal StateExcept

/-- `std::stoull` on the text of a number token, which has no blank and no sign to skip. -/
def stoull (text : Bytes) : Except Exn UInt64 :=
  let digits := text.takeWhile isDigit
  if digits = [] then .error (.invalidArgument "stoull")
  else if decimalValue digits ≥ 2 ^ 64 then .error (.outOfRange "stoull")
  else .ok (UInt64.ofNat (decimalValue digits))

structure Parser where
  lexer : Lexer
  currentToken : Token := ⟨.unknown, [], 0, 0⟩

abbrev Parse := StateT Parser (Except Exn)

namespace Parser

/-! ### Tokens -/

def advance : Parse Unit := fun p =>
  let (token, lexer) := p.lexer.nextToken
  .ok ((), { lexer, currentToken := token })

def currentType : Parse TokenType := fun p =>
  .ok (p.currentToken.type, p)

def currentText : Parse Bytes := fun p =>
  .ok (p.currentToken.text, p)

def expect (type : TokenType) : Parse Unit := fun p =>
  if p.currentToken.type ≠ type then
    .error (.runtimeError ("Expected token type " ++ toString type.toInt))
  else .ok ((), p)

def consume (type : TokenType) : Parse Unit := do
  expect type
  advance

/-- `Token::Type('c')` -/
def op (c : Char) : TokenType :=
  .char (chr c)

/-- `throw std::runtime_error("Unexpected token type " + ...)` -/
def unexpected {α : Type} (type : TokenType) : Parse α :=
  throw (.runtimeError ("Unexpected token type " ++ toString type.toInt))

/-- An identifier: `expect`, take the text, `advance`. -/
def identifier : Parse Bytes := do
  expect .identifier
  let text ← currentText
  advance
  return text

/-- A number: `expect`, `std::stoull` of the text, `advance`. -/
def number : Parse UInt64 := do
  expect .number
  let text ← currentText
  let value ← fromExcept (stoull text)
  advance
  return value

/-! ### Loops -/

/-- More rounds than there can be tokens left. -/
def rounds (p : Parser) : Nat :=
  p.lexer.left + 2

/-- `while (c(current_token.type)) ...` -/
def whileType {β : Type} (c : TokenType → Prop) [DecidablePred c] (body : β → Parse β) (b : β) :
    Parse β := fun p =>
  loopWhile (fun p : Parser => c p.currentToken.type) body .diverges p.rounds b p

/-- A loop over items with commas between them:
`while (current_token.type != close) { item; if (current_token.type != close) consume(','); }` -/
def whileSeparated {β : Type} (close : TokenType) (item : β → Parse β) (b : β) : Parse β :=
  whileType (· ≠ close)
    (separated (fun p : Parser => p.currentToken.type ≠ close) (consume (op ',')) item) b

/-! ### Annotations -/

def parseIdentifierExpression : Parse ExpressionNode := do
  let name ← identifier
  return .identifier name

def parseLiteralExpression : Parse ExpressionNode := do
  let type ← currentType
  if type = .string then
    let text ← currentText
    advance
    return .string text
  else if type = .number then
    let value ← number
    return .number value
  else unexpected type

/-- One argument of an annotation. -/
def parseArgument : Parse ExpressionNode := do
  let type ← currentType
  if type = .identifier then parseIdentifierExpression else parseLiteralExpression

def parseAnnotation : Parse AnnotationNode := do
  consume (op '@')
  let name ← identifier
  consume (op '(')
  let args ← whileSeparated (op ')') (fun args => do
    let arg ← parseArgument
    return args ++ [arg]) []
  consume (op ')')
  return { name, args }

/-- `while (current_token.type == '@') annotations.push_back(parse_annotation());` -/
def parseAnnotations : Parse (List AnnotationNode) :=
  whileType (· = op '@') (fun annotations => do
    let node ← parseAnnotation
    return annotations ++ [node]) []

/-! ### Types -/

/-- The optional `const` in front of a type. -/
def parseConst : Parse Bool := do
  let type ← currentType
  if type = .kwdConst then
    advance
    return true
  else return false

/-- `parse_type`, with at most `fuel` levels of nesting. No architecture is set when a source is
parsed, so a pointer gets the size `0`. -/
def parseTypeFuel : Nat → Parse TypeNode
  | 0 => throw .diverges
  | fuel + 1 => do
    let isConst ← parseConst
    let type ← currentType
    if type = .kwdPtr then
      advance
      consume (op '<')
      let innerType ← parseTypeFuel fuel
      consume (op '>')
      return .ptr isConst 0 innerType
    else if type = .kwdArray then
      advance
      consume (op '<')
      let innerType ← parseTypeFuel fuel
      consume (op '>')
      return .array isConst 0 innerType
    else
      let name ← identifier
      return .named isConst 0 name

def parseType : Parse TypeNode := fun p =>
  parseTypeFuel p.rounds p

/-! ### Declarations -/

/-- The direction keyword of a parameter. -/
def parseDirection : Parse Direction := do
  let type ← currentType
  if type = .kwdInout then
    advance
    return .INOUT
  else if type = .kwdIn then
    advance
    return .IN
  else if type = .kwdOut then
    advance
    return .OUT
  else unexpected type

def parseParameter : Parse ParameterNode := do
  let annotations ← parseAnnotations
  let direction ← parseDirection
  let type ← parseType
  let name ← identifier
  return { direction, type, name, annotations }

def parseStruct : Parse StructNode := do
  consume .kwdStruct
  let name ← identifier
  consume (op '\x7b')
  let fields ← whileType (· ≠ op '\x7d') (fun fields => do
    let type ← parseType
    let name ← identifier
    consume (op ';')
    return fields ++ [{ type, name }]) []
  consume (op '\x7d')
  consume (op ';')
  return { name, annotations := [], fields }

def parseBitfield : Parse BitfieldNode := do
  consume .kwdBitfield
  consume (op '<')
  let baseType ← parseType
  consume (op '>')
  let name ← identifier
  consume (op '\x7b')
  let fields ← whileType (· ≠ op '\x7d') (fun fields => do
    let name ← identifier
    consume (op ':')
    let bits ← number
    consume (op ';')
    return fields ++ [{ name, bits }]) []
  consume (op '\x7d')
  consume (op ';')
  return { name, baseType, annotations := [], fields }

/-- `parse_enum`. The vector of pending annotations is moved into every member, so each member
starts with none. -/
def parseEnum : Parse EnumNode := do
  consume .kwdEnum
  consume (op '<')
  let baseType ← parseType
  consume (op '>')
  let name ← identifier
  consume (op '\x7b')
  let members ← whileSeparated (op '\x7d') (fun members => do
    let annotations ← parseAnnotations
    let name ← identifier
    consume (op '=')
    let value ← number
    return members ++ [{ name, value, annotations }]) []
  consume (op '\x7d')
  consume (op ';')
  return { name, baseType, annotations := [], members }

/-- `parse_function`: the id is `abiversion.interface.current_funcid++`. -/
def parseFunction (interface : InterfaceNode) : Parse (FunctionNode × InterfaceNode) := do
  consume .kwdFunction
  let name ← identifier
  consume (op '(')
  let parameters ← whileSeparated (op ')') (fun parameters => do
    let parameter ← parseParameter
    return parameters ++ [parameter]) []
  consume (op ')')
  consume (op ';')
  return ({ name, annotations := [], parameters, id := interface.currentFuncid },
    { interface with currentFuncid := interface.currentFuncid + 1 })

/-! ### Revisions -/

/-- The locals of the loop of `parse_abiversion`, and the interface it counts the functions in. -/
structure Revision where
  node : AbiversionNode
  annotations : List AnnotationNode
  interface : InterfaceNode

/-- The body of the loop of `parse_abiversion`: a pending annotation, or a declaration that takes
all pending annotations. -/
def parseRevisionItem (r : Revision) : Parse Revision := do
  let type ← currentType
  if type = op '@' then
    let node ← parseAnnotation
    return { r with annotations := r.annotations ++ [node] }
  else if type = .kwdFunction then
    let (func, interface) ← parseFunction r.interface
    let func := { func with annotations := r.annotations }
    return ⟨{ r.node with functions := r.node.functions ++ [func] }, [], interface⟩
  else if type = .kwdStruct then
    let strct ← parseStruct
    let strct := { strct with annotations := r.annotations }
    return ⟨{ r.node with structs := r.node.structs ++ [strct] }, [], r.interface⟩
  else if type = .kwdBitfield then
    let bitfield ← parseBitfield
    let bitfield := { bitfield with annotations := r.annotations }
    return ⟨{ r.node with bitfields := r.node.bitfields ++ [bitfield] }, [], r.interface⟩
  else if type = .kwdEnum then
    let enumNode ← parseEnum
    let enumNode := { enumNode with annotations := r.annotations }
    return ⟨{ r.node with enums := r.node.enums ++ [enumNode] }, [], r.interface⟩
  else unexpected type

def parseAbiversion (interface : InterfaceNode) : Parse (AbiversionNode × InterfaceNode) := do
  consume .kwdAbirevision
  let version ← number
  consume (op '\x7b')
  let r ← whileType (· ≠ op '\x7d') parseRevisionItem ⟨{ version }, [], interface⟩
  consume (op '\x7d')
  return (r.node, r.interface)

def appendAbiversionOrThrow (firstAbirevision : UInt64) (interface : InterfaceNode)
    (abiversion : AbiversionNode) : Except Exn InterfaceNode :=
  let expectedVersion := firstAbirevision + UInt64.ofNat interface.abiversions.length
  if abiversion.version ≠ expectedVersion then
    .error (.runtimeError ("ABI revisions must be contiguous; expected revision "
      ++ toString expectedVersion.toNat ++ ", got " ++ toString abiversion.version.toNat))
  else .ok { interface with abiversions := interface.abiversions ++ [abiversion] }

/-! ### Interfaces -/

/-- The body of the loop of `parse`. -/
def parseInterfaceItem (firstAbirevision : UInt64) (interface : InterfaceNode) :
    Parse InterfaceNode := do
  let type ← currentType
  if type = .kwdAbirevision then
    let (abiversion, interface) ← parseAbiversion interface
    fromExcept (appendAbiversionOrThrow firstAbirevision interface abiversion)
  else unexpected type

/-- The first part of the `try` block of `parse`, after the first `advance`. -/
def parseInterfaceHeader (firstFuncid : UInt32) : Parse InterfaceNode := do
  let annotations ← parseAnnotations
  consume .kwdInterface
  let name ← identifier
  consume (op '\x7b')
  return { name, annotations, currentFuncid := firstFuncid }

/-- The `try` block of `parse`, after the first `advance`. -/
def parseInterface (firstAbirevision : UInt64) (firstFuncid : UInt32) : Parse InterfaceNode := do
  let interface ← parseInterfaceHeader firstFuncid
  let interface ← whileType (· ≠ op '\x7d') (parseInterfaceItem firstAbirevision) interface
  consume (op '\x7d')
  return interface

/-- `Parser::parse`; `none` is the null pointer returned after a `std::runtime_error` has been
reported. No other exception is caught. -/
def parse (source : Bytes) (firstAbirevision : UInt64) (firstFuncid : UInt32) :
    Except Exn (Option InterfaceNode) :=
  match (advance >>= fun _ => parseInterface firstAbirevision firstFuncid)
      { lexer := { source } } with
  | .ok (interface, _) => .ok (some interface)
  | .error (.runtimeError _) => .ok none
  | .error e => .error e

end Parser

end Sidlc
