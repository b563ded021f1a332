import Mathlib.Data.List.TakeWhile
import Sidlc.Equiv.Lexer
import Sidlc.Library.Decimal

/-!
# How printed tokens are read

A word, an operator, a decimal numeral or a string literal that stands alone is read as the token it
is. Blanks between them are skipped.
-/

namespace Sidlc

open Decimal

/-! ### Characters -/

/-- A property of characters is checked on all of them. -/
instance (priority := low) decidableForallChar {p : UInt8 → Prop} [DecidablePred p] :
    Decidable (∀ c, p c) :=
  decidable_of_iff (∀ n : Fin 256, p (UInt8.ofFin n))
    ⟨fun h c => UInt8.ofFin_toFin c ▸ h c.toFin, fun h _ => h _⟩

theorem wordStart_spec : ∀ c : UInt8, isAlpha c = true ∨ c = chr '_' →
    isSpace c = false ∧ c ≠ chr '\n' ∧ c ≠ chr '/' := by
  decide +kernel

/-- The operators by their codes. -/
theorem isOperator_eq (c : UInt8) : Lexer.isOperator c
    = ([64, 123, 125, 40, 41, 91, 93, 60, 62, 58, 59, 44, 46, 61] : Bytes).contains c :=
  rfl

theorem operator_spec : ∀ c : UInt8, Lexer.isOperator c = true →
    isSpace c = false ∧ c ≠ chr '\n' ∧ c ≠ chr '/' ∧ ¬ (isAlpha c = true ∨ c = chr '_') ∧
      c ≠ chr '0' ∧ ¬ isDigit c = true ∧ c ≠ chr '"' := by
  have hall : ∀ c ∈ ([64, 123, 125, 40, 41, 91, 93, 60, 62, 58, 59, 44, 46, 61] : Bytes),
      isSpace c = false ∧ c ≠ chr '\n' ∧ c ≠ chr '/' ∧ ¬ (isAlpha c = true ∨ c = chr '_') ∧
        c ≠ chr '0' ∧ ¬ isDigit c = true ∧ c ≠ chr '"' := by
    decide +kernel
  intro c hc
  rw [isOperator_eq, List.contains_iff_mem] at hc
  exact hall c hc

theorem digit_spec : ∀ c : UInt8, isDigit c = true →
    isSpace c = false ∧ c ≠ chr '\n' ∧ c ≠ chr '/' ∧ ¬ (isAlpha c = true ∨ c = chr '_') := by
  decide +kernel

/-- The operators that the parser looks for. -/
theorem isOperator_spec : ∀ c ∈ ['@', '\x7b', '\x7d', '(', ')', '<', '>', ':', ';', ',', '='],
    Lexer.isOperator (chr c) = true := by
  simp only [isOperator_eq]
  exact List.all_eq_true.1 (by decide)

/-- What ends a word ends a number. -/
theorem notWordChar_spec : ∀ c : UInt8, Lexer.isWordChar c = false →
    isDigit c = false ∧ c ≠ chr 'x' ∧ c ≠ chr 'X' ∧ c ≠ chr 'b' ∧ c ≠ chr 'B' := by
  decide +kernel

/-! ### Spans -/

theorem takeWhile_append_of_stop {p : UInt8 → Bool} {w r : Bytes} (hw : ∀ c ∈ w, p c = true)
    (hr : ∀ c ∈ r.head?, p c = false) : (w ++ r).takeWhile p = w := by
  rw [List.takeWhile_append_of_pos hw]
  cases r with
  | nil => simp
  | cons c r => simp [hr c rfl]

theorem dropWhile_append_of_stop {p : UInt8 → Bool} {w r : Bytes} (hw : ∀ c ∈ w, p c = true)
    (hr : ∀ c ∈ r.head?, p c = false) : (w ++ r).dropWhile p = r := by
  rw [List.dropWhile_append_of_pos hw]
  cases r with
  | nil => simp
  | cons c r => simp [hr c rfl]

/-- Up to a character that is there. -/
theorem dropWhile_ne_append {c : UInt8} {body : Bytes} (h : c ∉ body) (r : Bytes) :
    (body ++ c :: r).dropWhile (· != c) = c :: r :=
  dropWhile_append_of_stop (fun _ hd => bne_iff_ne.2 (ne_of_mem_of_not_mem hd h)) (by simp)

theorem dropWhile_ne_of_notMem {c : UInt8} {r : Bytes} (h : c ∉ r) :
    r.dropWhile (· != c) = [] :=
  List.dropWhile_eq_nil_iff.2 fun _ hd => bne_iff_ne.2 (ne_of_mem_of_not_mem hd h)

/-- The text does not go on with a character of a word. -/
def EndsWord (r : Bytes) : Prop :=
  ∀ c ∈ r.head?, Lexer.isWordChar c = false

/-! ### Blanks -/

theorem lexemes_nil : lexemes [] = [] :=
  lexemes_of_gap_nil (by rw [skipGap])

theorem lexemes_eq_of_gap {r r' : Bytes} (h : skipGap r = skipGap r') :
    lexemes r = lexemes r' := by
  cases hr : skipGap r' with
  | nil => rw [lexemes_of_gap_nil (h.trans hr), lexemes_of_gap_nil hr]
  | cons c s => rw [lexemes_of_gap_cons (h.trans hr), lexemes_of_gap_cons hr]

theorem lexemes_blank {c : UInt8} (h : isSpace c = true) (r : Bytes) :
    lexemes (c :: r) = lexemes r := by
  apply lexemes_eq_of_gap
  rw [skipGap, if_pos (.inl h)]

theorem lexemes_blanks {w : Bytes} (h : ∀ c ∈ w, isSpace c = true) (r : Bytes) :
    lexemes (w ++ r) = lexemes r := by
  induction w with
  | nil => rfl
  | cons c w ih =>
    rw [List.cons_append, lexemes_blank (h c List.mem_cons_self)]
    exact ih fun d hd => h d (List.mem_cons_of_mem _ hd)

/-- A token starts at a character that is no blank and opens no comment. -/
theorem lexemes_of_scan {c : UInt8} (hspace : isSpace c = false) (hline : c ≠ chr '\n')
    (hslash : c ≠ chr '/') (r : Bytes) :
    lexemes (c :: r) = (scan c r).1 :: lexemes (scan c r).2 := by
  apply lexemes_of_gap_cons
  rw [skipGap, if_neg (by simp [hspace, hline]), if_neg hslash]

/-! ### Words -/

/-- The characters of an identifier or a keyword. -/
def IsWord (w : Bytes) : Prop :=
  (∃ c ∈ w.head?, isAlpha c = true ∨ c = chr '_') ∧ ∀ c ∈ w, Lexer.isWordChar c = true

instance (w : Bytes) : Decidable (IsWord w) :=
  inferInstanceAs (Decidable (_ ∧ _))

theorem isWord_keyword : ∀ keyword ∈ Lexer.keywords,
    IsWord keyword.1 ∧ Lexer.wordType keyword.1 = keyword.2 := by
  decide +kernel

theorem lexemes_word {w r : Bytes} (hw : IsWord w) (hr : EndsWord r) :
    lexemes (w ++ r) = (Lexer.wordType w, w) :: lexemes r := by
  obtain ⟨⟨c, hc, hstart⟩, hchars⟩ := hw
  obtain ⟨cs, rfl⟩ : ∃ cs, w = c :: cs := by
    cases w with
    | nil => exact absurd hc (by simp)
    | cons d cs =>
      obtain rfl : d = c := Option.some.inj hc
      exact ⟨cs, rfl⟩
  obtain ⟨hspace, hline, hslash⟩ := wordStart_spec c hstart
  have hscan : scan c (cs ++ r) = ((Lexer.wordType (c :: cs), c :: cs), r) := by
    unfold scan
    rw [if_pos hstart, ← List.cons_append, takeWhile_append_of_stop hchars hr,
      dropWhile_append_of_stop hchars hr]
  rw [List.cons_append, lexemes_of_scan hspace hline hslash, hscan]

/-! ### Operators -/

theorem scan_operator {c : UInt8} (h : Lexer.isOperator c = true) (r : Bytes) :
    scan c r = ((.char c, [c]), r) := by
  obtain ⟨-, -, -, hword, hzero, hdigit, hquote⟩ := operator_spec c h
  unfold scan
  rw [if_neg hword, if_neg hzero, if_neg hdigit, if_neg hquote, if_pos h]

theorem lexemes_operator {c : UInt8} (h : Lexer.isOperator c = true) (r : Bytes) :
    lexemes (c :: r) = (.char c, [c]) :: lexemes r := by
  obtain ⟨hspace, hline, hslash, -⟩ := operator_spec c h
  rw [lexemes_of_scan hspace hline hslash, scan_operator h]

/-! ### Numbers -/

theorem isDigit_of_mem_numeral {n : Nat} {c : UInt8} (h : c ∈ numeral n) : isDigit c = true := by
  obtain ⟨hlo, hhi⟩ := isDigit_numeral n c h
  simp only [isDigit, Bool.and_eq_true, decide_eq_true_eq, UInt8.le_iff_toNat_le]
  exact ⟨hlo, hhi⟩

theorem lexemes_numeral (n : Nat) {r : Bytes} (hr : EndsWord r) :
    lexemes (numeral n ++ r) = (.number, numeral n) :: lexemes r := by
  obtain ⟨c, cs, hcs⟩ := List.exists_cons_of_ne_nil (numeral_ne_nil n)
  have hc : isDigit c = true := isDigit_of_mem_numeral (hcs ▸ List.mem_cons_self)
  obtain ⟨hspace, hline, hslash, hword⟩ := digit_spec c hc
  have hscan : scan c (cs ++ r) = ((.number, numeral n), r) := by
    unfold scan
    rw [if_neg hword]
    by_cases hzero : c = chr '0'
    · -- only `0` itself starts with a `0`
      have hn : n = 0 := by
        by_contra hn
        obtain ⟨d, ds, hds, hd⟩ := numeral_head hn
        rw [hcs] at hds
        exact hd ((List.cons.inj hds).1 ▸ hzero)
      obtain rfl : cs = [] := by
        subst hn
        exact (List.cons.inj hcs).2.symm
      rw [if_pos hzero, hcs]
      cases r with
      | nil => rfl
      | cons d r =>
        obtain ⟨hdigit, hx, hX, hb, hB⟩ := notWordChar_spec d (hr d rfl)
        simp [hx, hX, hb, hB, hdigit]
    · have hdigits : ∀ d ∈ c :: cs, isDigit d = true :=
        fun d hd => isDigit_of_mem_numeral (hcs ▸ hd)
      have hstop : ∀ d ∈ r.head?, isDigit d = false := fun d hd => (notWordChar_spec d (hr d hd)).1
      rw [if_neg hzero, if_pos hc, scanNumber, ← List.cons_append,
        takeWhile_append_of_stop hdigits hstop, dropWhile_append_of_stop hdigits hstop, hcs]
  rw [hcs, List.cons_append, lexemes_of_scan hspace hline hslash, hscan, hcs]

/-! ### Strings -/

theorem scan_string {body : Bytes} (hbody : ∀ c ∈ body, c ≠ chr '"') (r : Bytes) :
    scan (chr '"') (body ++ chr '"' :: r) = ((.string, chr '"' :: (body ++ [chr '"'])), r) := by
  have hstop : ∀ c ∈ (chr '"' :: r).head?, (c != chr '"') = false := by simp
  have hbody' : ∀ c ∈ body, (c != chr '"') = true := fun c hc => by simpa using hbody c hc
  unfold scan
  rw [if_neg (by decide), if_neg (by decide), if_neg (by decide), if_pos rfl]
  simp only [takeWhile_append_of_stop hbody' hstop, dropWhile_append_of_stop hbody' hstop,
    List.tail_cons, List.take_succ_cons, List.take_length_add_append]
  rfl

theorem lexemes_string {body : Bytes} (hbody : ∀ c ∈ body, c ≠ chr '"') (r : Bytes) :
    lexemes (chr '"' :: (body ++ chr '"' :: r))
      = (.string, chr '"' :: (body ++ [chr '"'])) :: lexemes r := by
  rw [lexemes_of_scan (by decide) (by decide) (by decide), scan_string hbody]

end Sidlc
