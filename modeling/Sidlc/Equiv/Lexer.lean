import Mathlib.Logic.Function.Iterate
import Sidlc.Lexer

/-!
# What the lexer reads

The lexer as a function of the text that is left (`Lexer.rest`): `skipGap` drops blanks and
comments, `scan` cuts off one lexeme, and `lexemes` lists the lexemes up to the end. Positions and
columns play no part.
-/

namespace Sidlc

namespace Lexer

/-- The text that has not been read yet. -/
def rest (l : Lexer) : Bytes :=
  l.source.drop l.pos

/-! ### Moving forward -/

theorem peek_eq_head? (l : Lexer) : l.peek = l.rest.head? := by
  rw [peek, rest, List.head?_drop]

theorem left_eq_length (l : Lexer) : l.left = l.rest.length := by
  rw [left, rest, List.length_drop]

@[simp] theorem source_advance (l : Lexer) : l.advance.source = l.source := by
  rw [advance]
  split_ifs <;> rfl

@[simp] theorem pos_advance (l : Lexer) : l.advance.pos = l.pos + 1 := by
  rw [advance]
  split_ifs <;> rfl

@[simp] theorem rest_advance (l : Lexer) : l.advance.rest = l.rest.tail := by
  rw [rest, rest, source_advance, pos_advance, List.tail_drop]

theorem source_iterate (n : Nat) (l : Lexer) : (advance^[n] l).source = l.source := by
  induction n generalizing l with
  | zero => rfl
  | succ n ih => rw [Function.iterate_succ_apply, ih, source_advance]

theorem pos_iterate (n : Nat) (l : Lexer) : (advance^[n] l).pos = l.pos + n := by
  induction n generalizing l with
  | zero => rfl
  | succ n ih => rw [Function.iterate_succ_apply, ih, pos_advance]; omega

theorem rest_iterate (n : Nat) (l : Lexer) : (advance^[n] l).rest = l.rest.drop n := by
  rw [rest, rest, source_iterate, pos_iterate, List.drop_drop]

theorem advanceLoop_eq (p : UInt8 → Bool) (n : Nat) (l : Lexer) (hn : l.rest.length ≤ n) :
    advanceLoop p n l = advance^[(l.rest.takeWhile p).length] l := by
  induction n generalizing l with
  | zero => rw [List.length_eq_zero_iff.1 (Nat.le_zero.1 hn)]; rfl
  | succ n ih =>
    rw [advanceLoop, peek_eq_head?]
    cases hr : l.rest with
    | nil => rfl
    | cons c r =>
      have htail : l.advance.rest = r := by rw [rest_advance, hr, List.tail_cons]
      rw [List.takeWhile_cons]
      by_cases hc : p c = true
      · have hlen : l.advance.rest.length ≤ n := by
          rw [htail]
          rw [hr, List.length_cons] at hn
          omega
        simp only [List.head?_cons, hc, if_true, List.length_cons]
        rw [ih _ hlen, htail, Function.iterate_succ_apply]
      · simp [hc]

theorem advanceWhile_eq (p : UInt8 → Bool) (l : Lexer) :
    l.advanceWhile p = advance^[(l.rest.takeWhile p).length] l :=
  advanceLoop_eq p _ l (Nat.le_of_eq l.left_eq_length.symm)

@[simp] theorem source_advanceWhile (p : UInt8 → Bool) (l : Lexer) :
    (l.advanceWhile p).source = l.source := by
  rw [advanceWhile_eq, source_iterate]

theorem pos_advanceWhile (p : UInt8 → Bool) (l : Lexer) :
    (l.advanceWhile p).pos = l.pos + (l.rest.takeWhile p).length := by
  rw [advanceWhile_eq, pos_iterate]

@[simp] theorem rest_advanceWhile (p : UInt8 → Bool) (l : Lexer) :
    (l.advanceWhile p).rest = l.rest.dropWhile p := by
  rw [advanceWhile_eq, rest_iterate]
  conv_lhs => arg 2; rw [← List.takeWhile_append_dropWhile (p := p) (l := l.rest)]
  exact List.drop_left

/-- The text between the positions before and after the loop. -/
theorem substr_advanceWhile (p : UInt8 → Bool) (l : Lexer) :
    (l.advanceWhile p).substr l.pos ((l.advanceWhile p).pos - l.pos) = l.rest.takeWhile p := by
  rw [substr, source_advanceWhile, pos_advanceWhile, Nat.add_sub_cancel_left, ← rest]
  conv_lhs => arg 2; rw [← List.takeWhile_append_dropWhile (p := p) (l := l.rest)]
  exact List.take_left

end Lexer

/-! ### Gaps -/

/-- What follows the end of a block comment. -/
def skipComment : Bytes → Bytes
  | [] => []
  | c :: r => if c = chr '*' ∧ r.head? = some (chr '/') then r.tail else skipComment r

theorem length_skipComment_le (r : Bytes) : (skipComment r).length ≤ r.length := by
  induction r with
  | nil => exact Nat.le_refl 0
  | cons c r ih =>
    rw [skipComment, List.length_cons]
    split_ifs
    · rw [List.length_tail]
      omega
    · omega

/-- What follows the blanks and comments. -/
def skipGap : Bytes → Bytes
  | [] => []
  | c :: r =>
    if isSpace c ∨ c = chr '\n' then skipGap r
    else if c = chr '/' then
      if r.head? = some (chr '/') then skipGap (r.dropWhile (· != chr '\n'))
      else if r.head? = some (chr '*') then skipGap (skipComment r.tail)
      else skipGap r
    else c :: r
  termination_by r => r.length
  decreasing_by
  · simp
  · have := (List.dropWhile_suffix (l := r) (· != chr '\n')).length_le
    simp only [List.length_cons]
    omega
  · have := length_skipComment_le r.tail
    rw [List.length_tail] at this
    simp only [List.length_cons]
    omega
  · simp

theorem length_skipGap_le (r : Bytes) : (skipGap r).length ≤ r.length := by
  -- a comment takes more than one character, so not by structure
  induction hn : r.length using Nat.strongRecOn generalizing r with
  | _ n ih =>
    cases r with
    | nil => simp [skipGap]
    | cons c r =>
      have hdrop := (List.dropWhile_suffix (l := r) (· != chr '\n')).length_le
      have hcomment := length_skipComment_le r.tail
      rw [List.length_tail] at hcomment
      rw [List.length_cons] at hn
      rw [skipGap]
      split_ifs
      · have := ih _ (by omega) r rfl
        omega
      · have := ih _ (by omega) (r.dropWhile (· != chr '\n')) rfl
        omega
      · have := ih _ (by omega) (skipComment r.tail) rfl
        omega
      · have := ih _ (by omega) r rfl
        omega
      · rw [List.length_cons]
        omega

namespace Lexer

@[simp] theorem source_blockCommentLoop (n : Nat) (l : Lexer) :
    (blockCommentLoop n l).source = l.source := by
  induction n generalizing l with
  | zero => rfl
  | succ n ih =>
    rw [blockCommentLoop]
    split
    · rfl
    · split_ifs
      · simp
      · rw [ih, source_advance]

theorem rest_blockCommentLoop (n : Nat) (l : Lexer) (hn : l.rest.length ≤ n) :
    (blockCommentLoop n l).rest = skipComment l.rest := by
  induction n generalizing l with
  | zero =>
    rw [List.length_eq_zero_iff.1 (Nat.le_zero.1 hn), skipComment]
    exact List.length_eq_zero_iff.1 (Nat.le_zero.1 hn)
  | succ n ih =>
    rw [blockCommentLoop, peek_eq_head?]
    cases hr : l.rest with
    | nil => exact hr
    | cons c r =>
      have htail : l.advance.rest = r := by rw [rest_advance, hr, List.tail_cons]
      -- the source looks one character ahead by index
      have hend : (c = chr '*' ∧ l.source[l.pos + 1]? = some (chr '/')) ↔
          (c = chr '*' ∧ r.head? = some (chr '/')) := by
        have hr' : r = l.rest.tail := by rw [hr, List.tail_cons]
        rw [hr', rest, List.tail_drop, List.head?_drop]
      rw [hr, List.length_cons] at hn
      simp only [List.head?_cons]
      rw [skipComment]
      by_cases h : c = chr '*' ∧ r.head? = some (chr '/')
      · rw [if_pos (hend.2 h), if_pos h, rest_advance, htail]
      · rw [if_neg (mt hend.1 h), if_neg h, ih _ (by rw [htail]; omega), htail]

/-- The loop over blanks and comments leaves what follows the gap. -/
theorem rest_skipLoop (n : Nat) (l : Lexer) (hn : l.rest.length ≤ n) :
    (skipLoop n l).rest = skipGap l.rest := by
  -- the rounds suffice as each takes a character of what is left
  induction n generalizing l with
  | zero =>
    rw [List.length_eq_zero_iff.1 (Nat.le_zero.1 hn), skipGap]
    exact List.length_eq_zero_iff.1 (Nat.le_zero.1 hn)
  | succ n ih =>
    rw [skipLoop, peek_eq_head?]
    cases hr : l.rest with
    | nil => rw [skipGap]; exact hr
    | cons c r =>
      have htail : l.advance.rest = r := by rw [rest_advance, hr, List.tail_cons]
      rw [hr, List.length_cons] at hn
      have hdrop := (List.dropWhile_suffix (l := r) (· != chr '\n')).length_le
      have hcomment := length_skipComment_le r.tail
      rw [List.length_tail] at hcomment
      rw [skipGap]
      simp only [List.head?_cons, peek_eq_head?, htail]
      split_ifs with h₁ h₂ h₃ h₄
      · rw [ih _ (by rw [htail]; omega), htail]
      · rw [ih _ (by rw [rest_advanceWhile, htail]; omega), rest_advanceWhile, htail]
      · have hrest : (blockCommentLoop l.advance.advance.left l.advance.advance).rest
            = skipComment r.tail := by
          rw [rest_blockCommentLoop _ _ (Nat.le_of_eq (left_eq_length _).symm), rest_advance, htail]
        rw [ih _ (by rw [hrest]; omega), hrest]
      · rw [ih _ (by rw [htail]; omega), htail]
      · exact hr

theorem rest_skipUnmeaningfulString (l : Lexer) :
    l.skipUnmeaningfulString.rest = skipGap l.rest :=
  rest_skipLoop _ l (Nat.le_of_eq l.left_eq_length.symm)

end Lexer

/-! ### Lexemes -/

/-- A token without its place. -/
abbrev Lexeme := TokenType × Bytes

def Token.lexeme (t : Token) : Lexeme :=
  (t.type, t.text)

/-- A number that ends before the first character that does not satisfy `p`. -/
def scanNumber (p : UInt8 → Bool) (r : Bytes) : Lexeme × Bytes :=
  ((.number, r.takeWhile p), r.dropWhile p)

/-- The lexeme that starts with `c`, and what follows it. -/
def scan (c : UInt8) (r : Bytes) : Lexeme × Bytes :=
  if isAlpha c ∨ c = chr '_' then
    let text := (c :: r).takeWhile Lexer.isWordChar
    ((Lexer.wordType text, text), (c :: r).dropWhile Lexer.isWordChar)
  else if c = chr '0' then
    match r with
    | [] => ((.number, [c]), [])
    | d :: r' =>
      if d = chr 'x' ∨ d = chr 'X' then scanNumber isXdigit r'
      else if d = chr 'b' ∨ d = chr 'B' then
        scanNumber (fun e => e == chr '0' || e == chr '1') r'
      else if isDigit d then scanNumber isDigit r
      else ((.number, [c]), r)
  else if isDigit c then scanNumber isDigit (c :: r)
  else if c = chr '"' then
    let body := r.takeWhile (· != chr '"')
    ((.string, (c :: r).take (body.length + 2)), (r.dropWhile (· != chr '"')).tail)
  else ((if Lexer.isOperator c then .char c else .unknown, [c]), r)

/-- A word is an identifier or a keyword. -/
theorem wordType_ne {text : Bytes} {type : TokenType} (hidentifier : type ≠ .identifier)
    (hkeyword : type ∉ Lexer.keywords.map Prod.snd) : Lexer.wordType text ≠ type := by
  rw [Lexer.wordType]
  cases h : Lexer.keywords.lookup text with
  | none => exact hidentifier.symm
  | some other =>
    rintro rfl
    obtain ⟨xs, ys, hxs, -⟩ := List.lookup_eq_some_iff.1 h
    rw [hxs] at hkeyword
    simp at hkeyword

/-- Every lexeme takes at least its first character. -/
theorem length_scan_le (c : UInt8) (r : Bytes) : (scan c r).2.length ≤ r.length := by
  have hdrop (p : UInt8 → Bool) (r : Bytes) := (List.dropWhile_suffix (l := r) p).length_le
  unfold scan
  split_ifs with h₁ h₂ h₃ h₄
  · have hc : Lexer.isWordChar c = true := by
      rcases h₁ with h | h <;> simp [Lexer.isWordChar, isAlnum, h]
    simp only [List.dropWhile_cons, hc, if_true]
    exact hdrop _ r
  · cases r with
    | nil => exact Nat.le_refl 0
    | cons d r =>
      have := hdrop isXdigit r
      have := hdrop (fun e => e == chr '0' || e == chr '1') r
      have := hdrop isDigit (d :: r)
      simp only [scanNumber]
      split_ifs <;> simp only [List.length_cons] at * <;> omega
  · simp only [scanNumber, List.dropWhile_cons, h₃, if_true]
    exact hdrop _ r
  · rw [List.length_tail]
    exact Nat.le_trans (Nat.sub_le ..) (hdrop _ r)
  · exact Nat.le_refl _
  · exact Nat.le_refl _

/-- The lexemes of a text, up to its end. -/
def lexemes (r : Bytes) : List Lexeme :=
  match _h : skipGap r with
  | [] => []
  | c :: r' => (scan c r').1 :: lexemes (scan c r').2
  termination_by r.length
  decreasing_by
    have hgap := length_skipGap_le r
    have hscan := length_scan_le c r'
    rw [_h, List.length_cons] at hgap
    omega

theorem lexemes_of_gap_nil {r : Bytes} (h : skipGap r = []) : lexemes r = [] := by
  rw [lexemes, h]

theorem lexemes_of_gap_cons {r r' : Bytes} {c : UInt8} (h : skipGap r = c :: r') :
    lexemes r = (scan c r').1 :: lexemes (scan c r').2 := by
  rw [lexemes, h]

/-- There are no more lexemes than characters. -/
theorem length_lexemes_le (r : Bytes) : (lexemes r).length ≤ r.length := by
  induction r using lexemes.induct with
  | case1 r h => rw [lexemes, h]; exact Nat.zero_le _
  | case2 r c r' h ih =>
    have hgap := length_skipGap_le r
    have hscan := length_scan_le c r'
    rw [h, List.length_cons] at hgap
    rw [lexemes, h, List.length_cons]
    omega

namespace Lexer

theorem numberToken_eq (p : UInt8 → Bool) (column : Nat) (l : Lexer) :
    ((l.numberToken p column).1.lexeme, (l.numberToken p column).2.rest) = scanNumber p l.rest := by
  simp only [numberToken, Token.lexeme, substr_advanceWhile, rest_advanceWhile, scanNumber]

/-- The character before the position. -/
theorem substr_advance {l : Lexer} {c : UInt8} {r : Bytes} (h : l.rest = c :: r) :
    l.advance.substr (l.advance.pos - 1) 1 = [c] := by
  rw [substr, source_advance, pos_advance, Nat.add_sub_cancel, ← rest, h]
  rfl

/-- **`next_token` returns the next lexeme**, and leaves what follows it. -/
theorem nextToken_eq (l : Lexer) :
    ((nextToken l).1.lexeme, (nextToken l).2.rest) =
      match skipGap l.rest with
      | [] => ((.endOfFile, []), [])
      | c :: r => scan c r := by
  have hskip := l.rest_skipUnmeaningfulString
  rw [← hskip, nextToken]
  generalize l.skipUnmeaningfulString = m
  simp only [peek_eq_head?]
  cases hm : m.rest with
  | nil => simp [Token.lexeme, hm]
  | cons c r =>
    have htail : m.advance.rest = r := by rw [rest_advance, hm, List.tail_cons]
    simp only [List.head?_cons, scan]
    split_ifs with h₁ h₂ h₃ h₄
    · simp only [Token.lexeme, substr_advanceWhile, rest_advanceWhile, hm]
    · rw [htail]
      cases r with
      | nil => simp only [List.head?_nil, Token.lexeme, substr_advance hm, htail]
      | cons d r =>
        have htail' : m.advance.advance.rest = r := by rw [rest_advance, htail, List.tail_cons]
        simp only [List.head?_cons]
        split_ifs
        · rw [numberToken_eq, htail']
        · rw [numberToken_eq, htail']
        · rw [numberToken_eq, htail]
        · simp only [Token.lexeme, substr_advance hm, htail]
    · rw [numberToken_eq, hm]
    · -- a string: the text is cut out by its length with the quotes
      have hpos : (m.advance.advanceWhile (· != chr '"')).pos
          = m.pos + 1 + (r.takeWhile (· != chr '"')).length := by
        rw [pos_advanceWhile, pos_advance, htail]
      have hlen : m.pos + 1 + (r.takeWhile (· != chr '"')).length - (m.pos + 1) + 2
          = (r.takeWhile (· != chr '"')).length + 2 := by omega
      have hsource : m.source.drop m.pos = c :: r := hm
      simp only [Token.lexeme, substr, source_advanceWhile, source_advance, hpos, pos_advance,
        Nat.add_sub_cancel, hlen, hsource, rest_advance, rest_advanceWhile, hm, List.tail_cons]
    · simp only [Token.lexeme, substr_advance hm, htail]
    · simp only [Token.lexeme, substr_advance hm, htail]

end Lexer

end Sidlc
