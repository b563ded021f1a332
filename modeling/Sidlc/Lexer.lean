import Sidlc.Ast

/-!
# The lexer (`lexer.cc`)

The source is read one byte at a time by its position. A loop over the source gets as many rounds as
there are bytes left, each of which moves the position forward.
-/

namespace Sidlc

/-- `Token::Type`; the values below `256` are the characters themselves. -/
inductive TokenType where
  | unknown
  | char (c : UInt8)
  | endOfFile
  | identifier
  | number
  | string
  | kwdInterface
  | kwdAbirevision
  | kwdStruct
  | kwdBitfield
  | kwdEnum
  | kwdFunction
  | kwdInout
  | kwdIn
  | kwdOut
  | kwdPtr
  | kwdArray
  | kwdConst
  deriving DecidableEq

namespace TokenType

/-- The value of the enumerator, which the messages of the parser print. -/
def toInt : TokenType → Int
  | unknown => -1
  | char c => c.toNat
  | endOfFile => 256
  | identifier => 257
  | number => 258
  | string => 259
  | kwdInterface => 260
  | kwdAbirevision => 261
  | kwdStruct => 262
  | kwdBitfield => 263
  | kwdEnum => 264
  | kwdFunction => 265
  | kwdInout => 266
  | kwdIn => 267
  | kwdOut => 268
  | kwdPtr => 269
  | kwdArray => 270
  | kwdConst => 271

end TokenType

structure Token where
  type : TokenType
  text : Bytes
  line : Nat
  startColumn : Nat
  deriving DecidableEq

/-! ### Characters (`<cctype>` in the C locale) -/

def isSpace (c : UInt8) : Bool :=
  c == 32 || (9 ≤ c && c ≤ 13)

def isAlpha (c : UInt8) : Bool :=
  (65 ≤ c && c ≤ 90) || (97 ≤ c && c ≤ 122)

def isDigit (c : UInt8) : Bool :=
  48 ≤ c && c ≤ 57

def isAlnum (c : UInt8) : Bool :=
  isAlpha c || isDigit c

def isXdigit (c : UInt8) : Bool :=
  isDigit c || (65 ≤ c && c ≤ 70) || (97 ≤ c && c ≤ 102)

/-- The character of a character literal of the source. -/
def chr (c : Char) : UInt8 :=
  c.toNat.toUInt8

/-! ### The lexer -/

structure Lexer where
  source : Bytes
  pos : Nat := 0
  currentLine : Nat := 1
  currentColumn : Nat := 1
  deriving DecidableEq

namespace Lexer

/-- `source[pos]`, when `pos < source.length()`. -/
def peek (l : Lexer) : Option UInt8 :=
  l.source[l.pos]?

/-- `source.length() - pos` -/
def left (l : Lexer) : Nat :=
  l.source.length - l.pos

def advance (l : Lexer) : Lexer :=
  if l.peek = some (chr '\n') then
    { l with pos := l.pos + 1, currentLine := l.currentLine + 1, currentColumn := 1 }
  else { l with pos := l.pos + 1, currentColumn := l.currentColumn + 1 }

/-- `while (pos < source.length() && p(source[pos])) advance();`, at most `n` rounds. -/
def advanceLoop (p : UInt8 → Bool) : Nat → Lexer → Lexer
  | 0, l => l
  | n + 1, l =>
    match l.peek with
    | none => l
    | some c => if p c then advanceLoop p n l.advance else l

def advanceWhile (p : UInt8 → Bool) (l : Lexer) : Lexer :=
  advanceLoop p l.left l

/-- The loop over the body of a block comment, up to and over its end. -/
def blockCommentLoop : Nat → Lexer → Lexer
  | 0, l => l
  | n + 1, l =>
    match l.peek with
    | none => l
    | some c =>
      if c = chr '*' ∧ l.source[l.pos + 1]? = some (chr '/') then l.advance.advance
      else blockCommentLoop n l.advance

/-- The loop of `skip_unmeaningful_string`. A `/` that starts no comment is skipped like a blank. -/
def skipLoop : Nat → Lexer → Lexer
  | 0, l => l
  | n + 1, l =>
    match l.peek with
    | none => l
    | some c =>
      if isSpace c ∨ c = chr '\n' then skipLoop n l.advance
      else if c = chr '/' then
        let l := l.advance
        if l.peek = some (chr '/') then skipLoop n (l.advanceWhile (· != chr '\n'))
        else if l.peek = some (chr '*') then
          let l := l.advance
          skipLoop n (blockCommentLoop l.left l)
        else skipLoop n l
      else l

def skipUnmeaningfulString (l : Lexer) : Lexer :=
  skipLoop l.left l

/-- `source.substr(start, count)` -/
def substr (l : Lexer) (start count : Nat) : Bytes :=
  (l.source.drop start).take count

/-- The keywords, in the order they are tried. -/
def keywords : List (Bytes × TokenType) :=
  [(ascii "interface", .kwdInterface), (ascii "abirevision", .kwdAbirevision),
    (ascii "struct", .kwdStruct), (ascii "function", .kwdFunction), (ascii "enum", .kwdEnum),
    (ascii "inout", .kwdInout), (ascii "in", .kwdIn), (ascii "out", .kwdOut),
    (ascii "bitfield", .kwdBitfield), (ascii "ptr", .kwdPtr), (ascii "array", .kwdArray),
    (ascii "const", .kwdConst)]

def wordType (text : Bytes) : TokenType :=
  (keywords.lookup text).getD .identifier

def isWordChar (c : UInt8) : Bool :=
  isAlnum c || c == chr '_'

/-- The characters that are tokens of their own. -/
def isOperator (c : UInt8) : Bool :=
  (ascii "@\x7b\x7d()[]<>:;,.=").contains c

/-- A number: the characters from here on that satisfy `p`. -/
def numberToken (p : UInt8 → Bool) (startColumn : Nat) (l : Lexer) : Token × Lexer :=
  let startPos := l.pos
  let l := l.advanceWhile p
  (⟨.number, l.substr startPos (l.pos - startPos), l.currentLine, startColumn⟩, l)

def nextToken (l : Lexer) : Token × Lexer :=
  let l := l.skipUnmeaningfulString
  match l.peek with
  | none => (⟨.endOfFile, [], l.currentLine, l.currentColumn⟩, l)
  | some c =>
    let startColumn := l.currentColumn
    if isAlpha c ∨ c = chr '_' then
      let startPos := l.pos
      let l := l.advanceWhile isWordChar
      let text := l.substr startPos (l.pos - startPos)
      (⟨wordType text, text, l.currentLine, startColumn⟩, l)
    else if c = chr '0' then
      let l := l.advance
      match l.peek with
      | none => (⟨.number, l.substr (l.pos - 1) 1, l.currentLine, startColumn⟩, l)
      | some d =>
        if d = chr 'x' ∨ d = chr 'X' then l.advance.numberToken isXdigit startColumn
        else if d = chr 'b' ∨ d = chr 'B' then
          l.advance.numberToken (fun e => e == chr '0' || e == chr '1') startColumn
        else if isDigit d then l.numberToken isDigit startColumn
        else (⟨.number, l.substr (l.pos - 1) 1, l.currentLine, startColumn⟩, l)
    else if isDigit c then l.numberToken isDigit startColumn
    else if c = chr '"' then
      let l := l.advance
      let startPos := l.pos
      let l := l.advanceWhile (· != chr '"')
      -- both quotes; without a closing one the length is clipped
      let text := l.substr (startPos - 1) (l.pos - startPos + 2)
      let l := l.advance
      (⟨.string, text, l.currentLine, startColumn⟩, l)
    else
      let l := l.advance
      let type := if isOperator c then TokenType.char c else .unknown
      (⟨type, l.substr (l.pos - 1) 1, l.currentLine, startColumn⟩, l)

end Lexer

end Sidlc
