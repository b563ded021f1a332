import Sidlc.Lexer

/-!
# The lexer with its accesses checked (`lexer.cc`)

The functions of the lexer once more, with every `source[i]`, every `source.substr(start, ...)` and
every new `pos` held against the length of the source. What `std::string_view` leaves undefined, or
refuses, is raised as an `Outside`.
-/

namespace Sidlc

/-- An access outside of the source. -/
inductive Outside where
  | read (i : Nat)
  | substr (start : Nat)
  | pos (pos : Nat)
  deriving DecidableEq

abbrev Checked := Except Outside

namespace Lexer

/-- `source[i]` -/
def readChecked (l : Lexer) (i : Nat) : Checked UInt8 :=
  match l.source[i]? with
  | none => .error (.read i)
  | some c => .ok c

/-- `source.substr(start, count)` -/
def substrChecked (l : Lexer) (start count : Nat) : Checked Bytes :=
  if l.source.length < start then .error (.substr start)
  else .ok (l.substr start count)

/-- The character at the position, read when `pos < source.length()`. -/
def peekChecked (l : Lexer) : Checked (Option UInt8) :=
  if l.pos < l.source.length then do
    let c ← l.readChecked l.pos
    return some c
  else return none

def advanceChecked (l : Lexer) : Checked Lexer := do
  let c ← l.readChecked l.pos
  let l :=
    if c = chr '\n' then
      { l with pos := l.pos + 1, currentLine := l.currentLine + 1, currentColumn := 1 }
    else { l with pos := l.pos + 1, currentColumn := l.currentColumn + 1 }
  if l.source.length < l.pos then .error (.pos l.pos)
  else return l

/-- `while (pos < source.length() && p(source[pos])) advance();` -/
def advanceLoopChecked (p : UInt8 → Bool) : Nat → Lexer → Checked Lexer
  | 0, l => .ok l
  | n + 1, l => do
    match ← l.peekChecked with
    | none => return l
    | some c =>
      if p c then
        let l ← l.advanceChecked
        advanceLoopChecked p n l
      else return l

def advanceWhileChecked (p : UInt8 → Bool) (l : Lexer) : Checked Lexer :=
  advanceLoopChecked p l.left l

/-- `pos + 1 < source.length() && source[pos] == '*' && source[pos + 1] == '/'` -/
def closesCommentChecked (l : Lexer) : Checked Bool :=
  if l.pos + 1 < l.source.length then do
    let c ← l.readChecked l.pos
    if c = chr '*' then
      let d ← l.readChecked (l.pos + 1)
      return d = chr '/'
    else return false
  else return false

def blockCommentLoopChecked : Nat → Lexer → Checked Lexer
  | 0, l => .ok l
  | n + 1, l =>
    if l.pos < l.source.length then do
      if ← l.closesCommentChecked then
        let l ← l.advanceChecked
        l.advanceChecked
      else
        let l ← l.advanceChecked
        blockCommentLoopChecked n l
    else .ok l

def skipLoopChecked : Nat → Lexer → Checked Lexer
  | 0, l => .ok l
  | n + 1, l => do
    match ← l.peekChecked with
    | none => return l
    | some c =>
      if isSpace c ∨ c = chr '\n' then
        let l ← l.advanceChecked
        skipLoopChecked n l
      else if c = chr '/' then
        let l ← l.advanceChecked
        let d ← l.peekChecked
        if d = some (chr '/') then
          let l ← l.advanceWhileChecked (· != chr '\n')
          skipLoopChecked n l
        else if d = some (chr '*') then
          let l ← l.advanceChecked
          let l ← blockCommentLoopChecked l.left l
          skipLoopChecked n l
        else skipLoopChecked n l
      else return l

def skipUnmeaningfulStringChecked (l : Lexer) : Checked Lexer :=
  skipLoopChecked l.left l

def numberTokenChecked (p : UInt8 → Bool) (startColumn : Nat) (l : Lexer) :
    Checked (Token × Lexer) := do
  let startPos := l.pos
  let l ← l.advanceWhileChecked p
  let text ← l.substrChecked startPos (l.pos - startPos)
  return (⟨.number, text, l.currentLine, startColumn⟩, l)

/-- The last character, as a token. -/
def lastTokenChecked (type : TokenType) (startColumn : Nat) (l : Lexer) :
    Checked (Token × Lexer) := do
  let text ← l.substrChecked (l.pos - 1) 1
  return (⟨type, text, l.currentLine, startColumn⟩, l)

def nextTokenChecked (l : Lexer) : Checked (Token × Lexer) := do
  let l ← l.skipUnmeaningfulStringChecked
  match ← l.peekChecked with
  | none => return (⟨.endOfFile, [], l.currentLine, l.currentColumn⟩, l)
  | some c =>
    let startColumn := l.currentColumn
    if isAlpha c ∨ c = chr '_' then
      let startPos := l.pos
      let l ← l.advanceWhileChecked isWordChar
      let text ← l.substrChecked startPos (l.pos - startPos)
      return (⟨wordType text, text, l.currentLine, startColumn⟩, l)
    else if c = chr '0' then
      let l ← l.advanceChecked
      match ← l.peekChecked with
      | none => l.lastTokenChecked .number startColumn
      | some d =>
        if d = chr 'x' ∨ d = chr 'X' then
          let l ← l.advanceChecked
          l.numberTokenChecked isXdigit startColumn
        else if d = chr 'b' ∨ d = chr 'B' then
          let l ← l.advanceChecked
          l.numberTokenChecked (fun e => e == chr '0' || e == chr '1') startColumn
        else if isDigit d then l.numberTokenChecked isDigit startColumn
        else l.lastTokenChecked .number startColumn
    else if isDigit c then l.numberTokenChecked isDigit startColumn
    else if c = chr '"' then
      let l ← l.advanceChecked
      let startPos := l.pos
      let l ← l.advanceWhileChecked (· != chr '"')
      let text ← l.substrChecked (startPos - 1) (l.pos - startPos + 2)
      -- the closing quote, if there is one
      let l ← l.advanceChecked
      return (⟨.string, text, l.currentLine, startColumn⟩, l)
    else
      let l ← l.advanceChecked
      l.lastTokenChecked (if isOperator c then .char c else .unknown) startColumn

/-- `n` calls of `next_token`. -/
def callsChecked : Nat → Lexer → Checked Lexer
  | 0, l => .ok l
  | n + 1, l => do
    let (_, l) ← l.nextTokenChecked
    callsChecked n l

end Lexer

end Sidlc
