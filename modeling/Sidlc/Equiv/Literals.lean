import Mathlib.Data.Nat.Digits.Defs
import Sidlc.Equiv.Acceptance

/-!
# Numeric literals

The lexer knows four forms of numbers and cuts off the prefix of three of them; the parser reads
what is left with `std::stoull`, which takes it for decimal. `Literal` is a number as it is
spelled, with the value it has in its base, and `Stores` says what the four places of the grammar
that have a number make of its lexeme.
-/

namespace Sidlc

open Grammar Decimal Sidlc.Parser

/-! ### Spelled numbers -/

/-- The forms of numbers, with the letter that marks them. -/
inductive LiteralForm where
  | decimal
  | octal
  | hexadecimal (letter : UInt8)
  | binary (letter : UInt8)
  deriving DecidableEq

namespace LiteralForm

def base : LiteralForm → Nat
  | decimal => 10
  | octal => 8
  | hexadecimal _ => 16
  | binary _ => 2

/-- What stands before the digits. -/
def lead : LiteralForm → Bytes
  | decimal => []
  | octal => [chr '0']
  | hexadecimal letter => [chr '0', letter]
  | binary letter => [chr '0', letter]

/-- The digits that are valid in the base. -/
def IsDigitOf : LiteralForm → UInt8 → Prop
  | decimal, c => isDigit c = true
  | octal, c => isDigit c = true ∧ c ≠ chr '8' ∧ c ≠ chr '9'
  | hexadecimal _, c => isXdigit c = true
  | binary _, c => c = chr '0' ∨ c = chr '1'

/-- The characters that the lexer takes for digits. -/
def takes : LiteralForm → UInt8 → Bool
  | decimal | octal => isDigit
  | hexadecimal _ => isXdigit
  | binary _ => fun c => c == chr '0' || c == chr '1'

def HasLetter : LiteralForm → Prop
  | decimal | octal => True
  | hexadecimal letter => letter = chr 'x' ∨ letter = chr 'X'
  | binary letter => letter = chr 'b' ∨ letter = chr 'B'

end LiteralForm

/-- The number that a digit stands for. -/
def digitValue (c : UInt8) : Nat :=
  if isDigit c then c.toNat - 48 else if c ≤ 70 then c.toNat - 55 else c.toNat - 87

/-- A number as it is spelled: a letter of its form, and digits that are valid in its base, at least
one. A decimal number does not begin with a zero, except for zero itself. -/
structure Literal where
  form : LiteralForm
  digits : Bytes
  hasLetter : form.HasLetter
  digits_ne_nil : digits ≠ []
  isDigitOf : ∀ c ∈ digits, form.IsDigitOf c
  eq_zero_of_head? : form = .decimal → digits.head? = some (chr '0') → digits = [chr '0']

namespace Literal

def spelling (ℓ : Literal) : Bytes :=
  ℓ.form.lead ++ ℓ.digits

/-- **The mathematical value of the literal in its base.** -/
def value (ℓ : Literal) : Nat :=
  Nat.ofDigits ℓ.form.base (ℓ.digits.map digitValue).reverse

/-- The text after the literal does not go on with it: no digit follows, and no letter that would
make another form of a zero. -/
def EndsBefore (ℓ : Literal) (r : Bytes) : Prop :=
  ∀ c ∈ r.head?, ℓ.form.takes c = false ∧
    (ℓ.spelling = [chr '0'] → c ≠ chr 'x' ∧ c ≠ chr 'X' ∧ c ≠ chr 'b' ∧ c ≠ chr 'B')

/-- The token of the literal: its text is what follows the prefix. -/
def lexeme (ℓ : Literal) : Lexeme :=
  (.number, ℓ.digits)

theorem takes_of_mem (ℓ : Literal) {c : UInt8} (h : c ∈ ℓ.digits) : ℓ.form.takes c = true := by
  have hdigit := ℓ.isDigitOf c h
  cases hform : ℓ.form with
  | decimal =>
    rw [hform] at hdigit
    exact hdigit
  | octal =>
    rw [hform] at hdigit
    exact hdigit.1
  | hexadecimal letter =>
    rw [hform] at hdigit
    exact hdigit
  | binary letter =>
    rw [hform] at hdigit
    have hbit : c = chr '0' ∨ c = chr '1' := hdigit
    simpa [LiteralForm.takes] using hbit

theorem scan_digits (ℓ : Literal) {r : Bytes} (hr : ℓ.EndsBefore r) :
    scanNumber ℓ.form.takes (ℓ.digits ++ r) = (ℓ.lexeme, r) := by
  have hdigits : ∀ c ∈ ℓ.digits, ℓ.form.takes c = true := fun c hc => ℓ.takes_of_mem hc
  have hstop : ∀ c ∈ r.head?, ℓ.form.takes c = false := fun c hc => (hr c hc).1
  rw [scanNumber, takeWhile_append_of_stop hdigits hstop, dropWhile_append_of_stop hdigits hstop,
    lexeme]

theorem exists_digits_cons (ℓ : Literal) :
    ∃ c cs, ℓ.digits = c :: cs ∧ ℓ.form.takes c = true := by
  obtain ⟨c, cs, hcs⟩ := List.exists_cons_of_ne_nil ℓ.digits_ne_nil
  exact ⟨c, cs, hcs, ℓ.takes_of_mem (hcs ▸ List.mem_cons_self)⟩

/-- Only the literal `0` begins with a zero, and what follows makes no other form of it. -/
theorem lexemes_decimal (ℓ : Literal) (hform : ℓ.form = .decimal) {r : Bytes}
    (hr : ℓ.EndsBefore r) : lexemes (ℓ.digits ++ r) = ℓ.lexeme :: lexemes r := by
  have hscan := ℓ.scan_digits hr
  obtain ⟨c, cs, hcs, hc⟩ := ℓ.exists_digits_cons
  rw [hform] at hc hscan
  have hdigit : isDigit c = true := hc
  obtain ⟨hspace, hline, hslash, hword⟩ := digit_spec c hdigit
  rw [hcs] at hscan
  have hfirst : scan c (cs ++ r) = (ℓ.lexeme, r) := by
    unfold scan
    rw [if_neg hword]
    by_cases hzero : c = chr '0'
    · -- a decimal literal that begins with `0` is `0`
      have hone : ℓ.digits = [chr '0'] :=
        ℓ.eq_zero_of_head? hform (by rw [hcs, hzero]; rfl)
      have hcs' : cs = [] := by
        rw [hcs] at hone
        exact (List.cons.inj hone).2
      have hspelling : ℓ.spelling = [chr '0'] := by rw [spelling, hform, hone]; rfl
      rw [if_pos hzero, lexeme, hone, hcs', hzero]
      cases r with
      | nil => rfl
      | cons d r =>
        obtain ⟨htakes, hnot⟩ := hr d rfl
        obtain ⟨hx, hX, hb, hB⟩ := hnot hspelling
        have hdigit : isDigit d = false := by rwa [hform] at htakes
        simp [hx, hX, hb, hB, hdigit]
    · rw [if_neg hzero, if_pos hdigit]
      exact hscan
  rw [hcs, List.cons_append, lexemes_of_scan hspace hline hslash, hfirst]

theorem lexemes_octal (ℓ : Literal) (hform : ℓ.form = .octal) {r : Bytes} (hr : ℓ.EndsBefore r) :
    lexemes (chr '0' :: (ℓ.digits ++ r)) = ℓ.lexeme :: lexemes r := by
  have hscan := ℓ.scan_digits hr
  obtain ⟨c, cs, hcs, hc⟩ := ℓ.exists_digits_cons
  rw [hform] at hc hscan
  have hdigit : isDigit c = true := hc
  have hnot : c ≠ chr 'x' ∧ c ≠ chr 'X' ∧ c ≠ chr 'b' ∧ c ≠ chr 'B' := by
    refine ⟨?_, ?_, ?_, ?_⟩
    all_goals
      rintro rfl
      exact absurd hdigit (by decide)
  obtain ⟨hx, hX, hb, hB⟩ := hnot
  rw [hcs] at hscan
  have hfirst : scan (chr '0') (c :: cs ++ r) = (ℓ.lexeme, r) := by
    unfold scan
    rw [if_neg (by decide), if_pos rfl, List.cons_append]
    dsimp only
    rw [if_neg (by simp [hx, hX]), if_neg (by simp [hb, hB]), if_pos hdigit]
    exact hscan
  rw [hcs, lexemes_of_scan (by decide) (by decide) (by decide), hfirst]

theorem lexemes_hexadecimal (ℓ : Literal) {letter : UInt8} (hform : ℓ.form = .hexadecimal letter)
    {r : Bytes} (hr : ℓ.EndsBefore r) :
    lexemes (chr '0' :: letter :: (ℓ.digits ++ r)) = ℓ.lexeme :: lexemes r := by
  have hscan := ℓ.scan_digits hr
  have hletter := ℓ.hasLetter
  rw [hform] at hscan hletter
  have hx : letter = chr 'x' ∨ letter = chr 'X' := hletter
  have hfirst : scan (chr '0') (letter :: (ℓ.digits ++ r)) = (ℓ.lexeme, r) := by
    unfold scan
    rw [if_neg (by decide), if_pos rfl]
    dsimp only
    rw [if_pos hx]
    exact hscan
  rw [lexemes_of_scan (by decide) (by decide) (by decide), hfirst]

theorem lexemes_binary (ℓ : Literal) {letter : UInt8} (hform : ℓ.form = .binary letter)
    {r : Bytes} (hr : ℓ.EndsBefore r) :
    lexemes (chr '0' :: letter :: (ℓ.digits ++ r)) = ℓ.lexeme :: lexemes r := by
  have hscan := ℓ.scan_digits hr
  have hletter := ℓ.hasLetter
  rw [hform] at hscan hletter
  have hb : letter = chr 'b' ∨ letter = chr 'B' := hletter
  have hnot : ¬(letter = chr 'x' ∨ letter = chr 'X') := by
    rcases hb with rfl | rfl
    · decide
    · decide
  have hfirst : scan (chr '0') (letter :: (ℓ.digits ++ r)) = (ℓ.lexeme, r) := by
    unfold scan
    rw [if_neg (by decide), if_pos rfl]
    dsimp only
    rw [if_neg hnot, if_pos hb]
    exact hscan
  rw [lexemes_of_scan (by decide) (by decide) (by decide), hfirst]

/-- **The lexer makes one token of a literal.** -/
theorem lexemes_spelling (ℓ : Literal) {r : Bytes} (hr : ℓ.EndsBefore r) :
    lexemes (ℓ.spelling ++ r) = ℓ.lexeme :: lexemes r := by
  rw [spelling, List.append_assoc]
  cases hform : ℓ.form with
  | decimal => exact ℓ.lexemes_decimal hform hr
  | octal => exact ℓ.lexemes_octal hform hr
  | hexadecimal letter => exact ℓ.lexemes_hexadecimal hform hr
  | binary letter => exact ℓ.lexemes_binary hform hr

end Literal

/-! ### Where the grammar has a number -/

/-- **The value `v` is stored for the lexeme** wherever the grammar has a number: as the argument of
an annotation, the width of a bitfield's field, the value of an enum's member and the number of a
revision. -/
structure Stores (t : Lexeme) (v : UInt64) : Prop where
  argument (node : ExpressionNode) : Syntax.argument [t] node ↔ node = .number v
  width (fields : List BitfieldFieldNode) (name colon semicolon : Bytes)
    (result : List BitfieldFieldNode) :
    Syntax.bitfieldField fields
        [(.identifier, name), (op ':', colon), t, (op ';', semicolon)] result ↔
      result = fields ++ [{ name, bits := v }]
  enumValue (members : List EnumMemberNode) (ts : List Lexeme) (name equals : Bytes)
    (result : List EnumMemberNode) :
    Syntax.enumMember members (ts ++ [(.identifier, name), (op '=', equals), t]) result ↔
      ∃ annotations, Syntax.annotations ts annotations ∧
        result = members ++ [{ name, value := v, annotations }]
  revision (interface : InterfaceNode) (keyword opening closing : Bytes) (items : List Lexeme)
    (result : AbiversionNode × InterfaceNode) :
    Syntax.abirevision interface ((.kwdAbirevision, keyword) :: t :: (op '\x7b', opening) ::
        (items ++ [(op '\x7d', closing)])) result ↔
      ∃ r, Lang.iterate Syntax.revisionItem ⟨{ version := v }, [], interface⟩ items r ∧
        result = (r.node, r.interface)

namespace Syntax

/-- A terminal of one type. -/
theorem terminal_ofType_iff {α : Type} {type : TokenType} {value : Lexeme → Option α} {t : Lexeme}
    {a : α} : Lang.terminal (fun t => if t.1 = type then value t else none) [t] a ↔
      t.1 = type ∧ value t = some a := by
  constructor
  · rintro ⟨u, hu, hvalue⟩
    obtain rfl := (List.cons.inj hu).1
    by_cases htype : t.1 = type
    · exact ⟨htype, (if_pos htype).symm.trans hvalue⟩
    · exact absurd ((if_neg htype).symm.trans hvalue) (by simp)
  · rintro ⟨htype, hvalue⟩
    exact ⟨t, rfl, (if_pos htype).trans hvalue⟩

theorem number_iff {t : Lexeme} {v : UInt64} :
    number [t] v ↔ t.1 = .number ∧ stoull t.2 = .ok v := by
  refine terminal_ofType_iff.trans (and_congr_right fun _ => ?_)
  cases stoull t.2 with
  | error e => simp [Except.toOption]
  | ok w => simp [Except.toOption]

section Sites

variable {t : Lexeme} {v : UInt64}

theorem argument_number_iff (ht : t.1 = .number) {node : ExpressionNode} :
    argument [t] node ↔ ∃ w, number [t] w ∧ node = .number w := by
  constructor
  · rintro (⟨name, xs, ys, hts, hx, rfl, rfl⟩ | ⟨text, xs, ys, hts, hx, rfl, rfl⟩ |
      ⟨w, xs, ys, hts, hx, rfl, rfl⟩)
    · rw [List.append_nil] at hts
      have htype := (terminal_ofType_iff.1 (hts ▸ hx)).1
      exact absurd (ht.symm.trans htype) (by decide)
    · rw [List.append_nil] at hts
      have htype := (terminal_ofType_iff.1 (hts ▸ hx)).1
      exact absurd (ht.symm.trans htype) (by decide)
    · rw [List.append_nil] at hts
      exact ⟨w, hts ▸ hx, rfl⟩
  · rintro ⟨w, hw, rfl⟩
    exact .inr (.inr ⟨w, [t], [], rfl, hw, rfl, rfl⟩)

/-- A chain of terminals takes its tokens one by one. -/
theorem terminal_bind_iff {α β : Type} {value : Lexeme → Option α} {f : α → Lang Lexeme β}
    {ts : List Lexeme} {b : β} :
    (Lang.terminal value >>= f) (t :: ts) b ↔ ∃ a, Lang.terminal value [t] a ∧ f a ts b := by
  rw [Lang.terminal_bind_cons_iff]
  refine exists_congr fun a => and_congr_left fun _ => ?_
  constructor
  · exact fun h => ⟨t, rfl, h⟩
  · rintro ⟨u, hu, h⟩
    rwa [(List.cons.inj hu).1]

theorem token_bind_iff {β : Type} {type : TokenType} {text : Bytes} {f : Unit → Lang Lexeme β}
    {ts : List Lexeme} {b : β} : (token type >>= f) ((type, text) :: ts) b ↔ f () ts b := by
  rw [token, Lang.terminal_bind_cons_iff]
  constructor
  · rintro ⟨⟨⟩, -, h⟩
    exact h
  · exact fun h => ⟨(), if_pos rfl, h⟩

theorem identifier_bind_iff {β : Type} {name : Bytes} {f : Bytes → Lang Lexeme β}
    {ts : List Lexeme} {b : β} :
    (identifier >>= f) ((.identifier, name) :: ts) b ↔ f name ts b := by
  rw [identifier, Lang.terminal_bind_cons_iff]
  simp

theorem number_bind_iff {β : Type} {f : UInt64 → Lang Lexeme β} {ts : List Lexeme} {b : β} :
    (number >>= f) (t :: ts) b ↔ ∃ w, number [t] w ∧ f w ts b :=
  terminal_bind_iff

theorem bitfieldField_iff {fields result : List BitfieldFieldNode} {name colon semicolon : Bytes} :
    bitfieldField fields
        [(.identifier, name), (op ':', colon), t, (op ';', semicolon)] result ↔
      ∃ w, number [t] w ∧ result = fields ++ [{ name, bits := w }] := by
  rw [bitfieldField, identifier_bind_iff, token_bind_iff, number_bind_iff]
  refine exists_congr fun w => and_congr_right fun _ => ?_
  rw [token_bind_iff, Lang.pure_iff, and_iff_right rfl]

theorem enumMember_iff {members result : List EnumMemberNode} {ts : List Lexeme}
    {name equals : Bytes} :
    enumMember members (ts ++ [(.identifier, name), (op '=', equals), t]) result ↔
      ∃ annotations w, Syntax.annotations ts annotations ∧ number [t] w ∧
        result = members ++ [{ name, value := w, annotations }] := by
  have htail (annotations : List AnnotationNode) : Lang.HasLength 3 (do
      let name ← identifier
      token (op '=')
      let value ← number
      return members ++ [({ name, value, annotations } : EnumMemberNode)]) :=
    .terminal_bind fun _ => .terminal_bind fun _ => .terminal_bind fun _ => Lang.hasLength_pure _
  rw [enumMember, Lang.bind_append_iff htail rfl]
  refine exists_congr fun annotations => ?_
  rw [identifier_bind_iff, token_bind_iff, number_bind_iff, ← exists_and_left]
  refine exists_congr fun w => and_congr_right fun _ => and_congr_right fun _ => ?_
  rw [Lang.pure_iff, and_iff_right rfl]

theorem abirevision_iff {interface : InterfaceNode} {keyword opening closing : Bytes}
    {items : List Lexeme} {result : AbiversionNode × InterfaceNode} :
    abirevision interface ((.kwdAbirevision, keyword) :: t :: (op '\x7b', opening) ::
        (items ++ [(op '\x7d', closing)])) result ↔
      ∃ w r, number [t] w ∧ Lang.iterate revisionItem ⟨{ version := w }, [], interface⟩ items r ∧
        result = (r.node, r.interface) := by
  have htail (r : Revision) : Lang.HasLength 1 (do
      token (op '\x7d')
      return (r.node, r.interface)) :=
    .terminal_bind fun _ => Lang.hasLength_pure _
  rw [abirevision, token_bind_iff, number_bind_iff]
  refine exists_congr fun w => ?_
  rw [token_bind_iff, Lang.bind_append_iff htail rfl, ← exists_and_left]
  refine exists_congr fun r => and_congr_right fun _ => and_congr_right fun _ => ?_
  rw [token_bind_iff, Lang.pure_iff, and_iff_right rfl]

end Sites

end Syntax

/-- All four places read the number with `std::stoull`. -/
theorem stores_iff {t : Lexeme} (ht : t.1 = .number) {v : UInt64} :
    Stores t v ↔ stoull t.2 = .ok v := by
  constructor
  · intro h
    obtain ⟨w, hw, hnode⟩ := (Syntax.argument_number_iff ht).1 ((h.argument (.number v)).2 rfl)
    rw [ExpressionNode.number.inj hnode]
    exact (Syntax.number_iff.1 hw).2
  · intro h
    -- every production takes the number from the same conversion
    have hunique (w : UInt64) : Syntax.number [t] w ↔ w = v := by
      rw [Syntax.number_iff, h]
      simp [ht, eq_comm]
    constructor
    · intro node
      rw [Syntax.argument_number_iff ht]
      simp only [hunique, exists_eq_left]
    · intro fields name colon semicolon result
      rw [Syntax.bitfieldField_iff]
      simp only [hunique, exists_eq_left]
    · intro members ts name equals result
      rw [Syntax.enumMember_iff]
      simp only [hunique, exists_and_left, exists_eq_left]
    · intro interface keyword opening closing items result
      rw [Syntax.abirevision_iff]
      simp only [hunique, exists_and_left, exists_eq_left]

/-! ### Bases -/

/-- A larger base gives a larger number, unless all digits but the lowest are zero. -/
theorem ofDigits_eq_ofDigits_iff {a b : Nat} (ha : 0 < a) (hab : a < b) (d : Nat) (ds : List Nat) :
    Nat.ofDigits a (d :: ds) = Nat.ofDigits b (d :: ds) ↔ ∀ e ∈ ds, e = 0 := by
  have hzero {c : Nat} (hc : 0 < c) (ds : List Nat) :
      Nat.ofDigits c ds = 0 ↔ ∀ e ∈ ds, e = 0 := by
    induction ds with
    | nil => simp [Nat.ofDigits_nil]
    | cons e ds ih =>
      rw [Nat.ofDigits_cons, List.forall_mem_cons, ← ih, Nat.add_eq_zero_iff, Nat.mul_eq_zero]
      simp [hc.ne']
  have hle : Nat.ofDigits a ds ≤ Nat.ofDigits b ds := Nat.ofDigits_monotone ds hab.le
  rw [Nat.ofDigits_cons, Nat.ofDigits_cons, Nat.add_left_cancel_iff]
  constructor
  · intro h
    rw [← hzero (ha.trans hab)]
    by_contra hne
    have hpos : 0 < Nat.ofDigits b ds := Nat.pos_of_ne_zero hne
    have hlt : a * Nat.ofDigits a ds < b * Nat.ofDigits b ds :=
      (Nat.mul_le_mul_left a hle).trans_lt (Nat.mul_lt_mul_of_pos_right hab hpos)
    exact absurd h hlt.ne
  · intro h
    rw [(hzero ha ds).2 h, (hzero (ha.trans hab) ds).2 h, Nat.mul_zero, Nat.mul_zero]

theorem decimalValue_eq_ofDigits {text : Bytes} (h : ∀ c ∈ text, isDigit c = true) :
    decimalValue text = Nat.ofDigits 10 (text.map digitValue).reverse := by
  induction text using List.reverseRecOn with
  | nil => rfl
  | append_singleton text c ih =>
    rw [List.forall_mem_append, List.forall_mem_singleton] at h
    have hc : digitValue c = c.toNat - 48 := if_pos h.2
    rw [decimalValue_append_singleton, ih h.1, List.map_append, List.reverse_append,
      List.map_singleton, List.reverse_singleton, List.singleton_append, Nat.ofDigits_cons, hc]
    omega

namespace Literal

/-- All digits are zero except the last, which is a decimal one. -/
def IsSingleDigit (ℓ : Literal) : Prop :=
  ∃ k c, ℓ.digits = List.replicate k (chr '0') ++ [c] ∧ isDigit c = true

theorem xdigit_spec : ∀ c : UInt8, isXdigit c = true → isDigit c = false → 10 ≤ digitValue c := by
  decide +kernel

theorem eq_zero_spec : ∀ c : UInt8, isDigit c = true → digitValue c = 0 → c = chr '0' := by
  decide +kernel

theorem isDigit_of_ne_hexadecimal {ℓ : Literal} (h : ∀ letter, ℓ.form ≠ .hexadecimal letter) :
    ∀ c ∈ ℓ.digits, isDigit c = true := by
  intro c hc
  have hdigit := ℓ.isDigitOf c hc
  cases hform : ℓ.form with
  | decimal =>
    rw [hform] at hdigit
    exact hdigit
  | octal =>
    rw [hform] at hdigit
    exact hdigit.1
  | hexadecimal letter => exact absurd hform (h letter)
  | binary letter =>
    rw [hform] at hdigit
    have hbit : c = chr '0' ∨ c = chr '1' := hdigit
    rcases hbit with rfl | rfl
    · decide
    · decide

/-- Digits that are all decimal mean the same in both bases if there is in effect only one. -/
theorem decimalValue_eq_value_iff (ℓ : Literal) (hform : ℓ.form ≠ .decimal)
    (hdigits : ∀ c ∈ ℓ.digits, isDigit c = true) :
    decimalValue ℓ.digits = ℓ.value ↔ ℓ.IsSingleDigit := by
  obtain ⟨init, c, hlast⟩ := List.eq_nil_or_concat ℓ.digits |>.resolve_left ℓ.digits_ne_nil
  rw [List.concat_eq_append] at hlast
  have hreverse : (ℓ.digits.map digitValue).reverse
      = digitValue c :: (init.map digitValue).reverse := by
    rw [hlast, List.map_append, List.reverse_append]
    rfl
  -- two bases agree on digits only if all but the last are zeros
  have hbase : Nat.ofDigits 10 (ℓ.digits.map digitValue).reverse
      = Nat.ofDigits ℓ.form.base (ℓ.digits.map digitValue).reverse ↔
        ∀ e ∈ (init.map digitValue).reverse, e = 0 := by
    rw [hreverse]
    cases hf : ℓ.form with
    | decimal => exact absurd hf hform
    | octal => exact eq_comm.trans (ofDigits_eq_ofDigits_iff (a := 8) (by decide) (by decide) ..)
    | hexadecimal letter =>
      exact ofDigits_eq_ofDigits_iff (b := 16) (by decide) (by decide) ..
    | binary letter =>
      exact eq_comm.trans (ofDigits_eq_ofDigits_iff (a := 2) (by decide) (by decide) ..)
  rw [decimalValue_eq_ofDigits hdigits, value, hbase]
  rw [hlast, List.forall_mem_append, List.forall_mem_singleton] at hdigits
  constructor
  · intro h
    have hzeros : ∀ e ∈ init, e = chr '0' := fun e he =>
      eq_zero_spec e (hdigits.1 e he) (h _ (List.mem_reverse.2 (List.mem_map_of_mem he)))
    refine ⟨init.length, c, ?_, hdigits.2⟩
    rw [hlast, List.eq_replicate_of_mem hzeros, List.length_replicate]
  · rintro ⟨k, d, hk, -⟩ e he
    obtain ⟨hinit, -⟩ := List.append_inj' (hlast.symm.trans hk) rfl
    obtain ⟨x, hx, rfl⟩ := List.mem_map.1 (List.mem_reverse.1 he)
    rw [hinit] at hx
    rw [List.eq_of_mem_replicate hx]
    rfl

/-- A hexadecimal letter makes the number larger than what is read before it. -/
theorem decimalValue_lt_value {ℓ : Literal} {letter : UInt8} (hform : ℓ.form = .hexadecimal letter)
    {xs ys : Bytes} {c : UInt8} (hdigits : ℓ.digits = xs ++ c :: ys)
    (hxs : ∀ x ∈ xs, isDigit x = true) (hc : isDigit c = false) :
    decimalValue xs < ℓ.value := by
  have hxdigit : isXdigit c = true := by
    have h := ℓ.isDigitOf c (by rw [hdigits]; exact List.mem_append_right _ List.mem_cons_self)
    rwa [hform] at h
  have hten := xdigit_spec c hxdigit hc
  have hsplit : (ℓ.digits.map digitValue).reverse
      = (ys.map digitValue).reverse ++ digitValue c :: (xs.map digitValue).reverse := by
    rw [hdigits, List.map_append, List.map_cons, List.reverse_append, List.reverse_cons,
      List.append_assoc]
    rfl
  have hvalue : ℓ.value = Nat.ofDigits 16 (ys.map digitValue).reverse
      + 16 ^ (ys.map digitValue).reverse.length
        * (digitValue c + 16 * Nat.ofDigits 16 (xs.map digitValue).reverse) := by
    rw [value, hform, hsplit, Nat.ofDigits_append]
    rfl
  have hpow : 1 ≤ 16 ^ (ys.map digitValue).reverse.length := Nat.one_le_pow _ _ (by decide)
  -- the digits before `c` count no less in base 16, and `c` is at least ten
  have hle : Nat.ofDigits 10 (xs.map digitValue).reverse
      ≤ Nat.ofDigits 16 (xs.map digitValue).reverse := Nat.ofDigits_monotone _ (by decide)
  rw [decimalValue_eq_ofDigits hxs, hvalue]
  calc Nat.ofDigits 10 (xs.map digitValue).reverse
      < digitValue c + 16 * Nat.ofDigits 16 (xs.map digitValue).reverse := by omega
    _ ≤ 16 ^ (ys.map digitValue).reverse.length
          * (digitValue c + 16 * Nat.ofDigits 16 (xs.map digitValue).reverse) :=
        Nat.le_mul_of_pos_left _ hpow
    _ ≤ _ := Nat.le_add_left _ _

/-- **`std::stoull` reads the value of a literal** if it is decimal or has a single digit. -/
theorem stoull_digits_iff (ℓ : Literal) (h : ℓ.value < 2 ^ 64) :
    stoull ℓ.digits = .ok (UInt64.ofNat ℓ.value) ↔ ℓ.form = .decimal ∨ ℓ.IsSingleDigit := by
  have hread (hdigits : ∀ c ∈ ℓ.digits, isDigit c = true)
      (hvalue : decimalValue ℓ.digits = ℓ.value) :
      stoull ℓ.digits = .ok (UInt64.ofNat ℓ.value) := by
    rw [stoull_of_isDecimal ⟨ℓ.digits_ne_nil, hdigits, by rwa [hvalue]⟩, hvalue]
  by_cases hform : ℓ.form = .decimal
  · have hdigits : ∀ c ∈ ℓ.digits, isDigit c = true :=
      isDigit_of_ne_hexadecimal fun letter hletter => nomatch hform.symm.trans hletter
    refine iff_of_true (hread hdigits ?_) (.inl hform)
    rw [decimalValue_eq_ofDigits hdigits, value, hform]
    rfl
  · constructor
    · intro hstoull
      rw [stoull] at hstoull
      split_ifs at hstoull with hnil hbig
      have hlt : decimalValue (ℓ.digits.takeWhile isDigit) < 2 ^ 64 := by omega
      have heq : decimalValue (ℓ.digits.takeWhile isDigit) = ℓ.value := by
        have hmod := congrArg UInt64.toNat (Except.ok.inj hstoull)
        rwa [UInt64.toNat_ofNat_of_lt' hlt, UInt64.toNat_ofNat_of_lt' h] at hmod
      have hsplit := List.takeWhile_append_dropWhile (p := isDigit) (l := ℓ.digits)
      cases hrest : ℓ.digits.dropWhile isDigit with
      | nil =>
        rw [hrest, List.append_nil] at hsplit
        have hdigits := List.takeWhile_eq_self_iff.1 hsplit
        rw [hsplit] at heq
        exact .inr ((ℓ.decimalValue_eq_value_iff hform hdigits).1 heq)
      | cons c ys =>
        -- the number goes on with a letter where `std::stoull` has stopped
        rw [hrest] at hsplit
        have hc : isDigit c = false := by
          have hhead := List.head?_dropWhile_not isDigit ℓ.digits
          rw [hrest] at hhead
          simpa using hhead
        obtain ⟨letter, hletter⟩ : ∃ letter, ℓ.form = .hexadecimal letter := by
          by_contra hno
          have hmem : c ∈ ℓ.digits := by
            rw [← hsplit]
            exact List.mem_append_right _ List.mem_cons_self
          have hdigit := isDigit_of_ne_hexadecimal (fun letter hl => hno ⟨letter, hl⟩) c hmem
          exact absurd (hc.symm.trans hdigit) (by decide)
        have hltvalue := decimalValue_lt_value hletter hsplit.symm
          (fun x hx => List.mem_takeWhile_imp hx) hc
        exact absurd heq hltvalue.ne
    · rintro (hdecimal | hsingle)
      · exact absurd hdecimal hform
      · have hdigits : ∀ c ∈ ℓ.digits, isDigit c = true := by
          obtain ⟨k, c, hk, hc⟩ := hsingle
          intro x hx
          rw [hk, List.mem_append, List.mem_singleton] at hx
          rcases hx with hx | rfl
          · rw [List.eq_of_mem_replicate hx]
            decide
          · exact hc
        exact hread hdigits ((ℓ.decimalValue_eq_value_iff hform hdigits).2 hsingle)

end Literal

/-- **What numeric literals mean.** Wherever a literal of less than `2 ^ 64` stands in a source, the
lexer makes one lexeme of it, and the grammar stores its value for it if and only if it is decimal
or all its digits but the last are zero and the last is a decimal digit. -/
theorem stores_value_iff (ℓ : Literal) (h : ℓ.value < 2 ^ 64) (r : Bytes) (hr : ℓ.EndsBefore r) :
    ∃ t, lexemes (ℓ.spelling ++ r) = t :: lexemes r ∧
      (Stores t (UInt64.ofNat ℓ.value) ↔ ℓ.form = .decimal ∨ ℓ.IsSingleDigit) :=
  ⟨ℓ.lexeme, ℓ.lexemes_spelling hr, (stores_iff rfl).trans (ℓ.stoull_digits_iff h)⟩

/-- A hexadecimal literal with a small letter. -/
def Literal.ofHexadecimal (digits : Bytes) (hne : digits ≠ [])
    (h : ∀ c ∈ digits, isXdigit c = true) : Literal where
  form := .hexadecimal (chr 'x')
  digits
  hasLetter := .inl rfl
  digits_ne_nil := hne
  isDigitOf := h
  eq_zero_of_head? := nofun

/-- The literal `0x05` has a single digit. -/
theorem stores_value_hexFive :
    ∃ t, lexemes (ascii "0x05" ++ ascii ";") = t :: lexemes (ascii ";") ∧ Stores t 5 := by
  let five := Literal.ofHexadecimal (ascii "05") (by decide) (List.all_eq_true.1 (by decide))
  have hends : five.EndsBefore (ascii ";") := by
    rintro c ⟨⟩
    exact ⟨by decide, fun h => absurd h (by decide)⟩
  obtain ⟨t, hlexemes, hstores⟩ := stores_value_iff five (by decide) (ascii ";") hends
  exact ⟨t, hlexemes, hstores.2 (.inr ⟨1, chr '5', rfl, by decide⟩)⟩

/-! ### A source with a hexadecimal number -/

/-- The literal `0x10`. -/
def hexSixteen : Literal :=
  .ofHexadecimal (ascii "10") (by decide) (List.all_eq_true.1 (by decide))

def hexSource : Bytes :=
  ascii "interface a \x7b abirevision 0 \x7b enum<u8> e \x7b m = " ++ hexSixteen.spelling
    ++ ascii " \x7d; \x7d \x7d"

/-- The values of the members of all enums. -/
def InterfaceNode.enumValues (interface : InterfaceNode) : List UInt64 :=
  interface.abiversions.flatMap fun node => node.enums.flatMap fun node =>
    node.members.map EnumMemberNode.value

/-- The member whose value is spelled `0x10` gets the value `10`. -/
theorem not_stores_hexSixteen :
    hexSixteen.value = 16 ∧ ¬Stores hexSixteen.lexeme 16 ∧
      (parse hexSource 0 0).map (Option.map InterfaceNode.enumValues) = .ok (some [10]) := by
  refine ⟨by decide, ?_, by decide +kernel⟩
  rw [stores_iff rfl]
  decide

end Sidlc
